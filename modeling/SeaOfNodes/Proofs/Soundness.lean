import SeaOfNodes.Proofs.Fixpoint
import SeaOfNodes.Proofs.Journal

/-!
Constant propagation says the truth about runs.

Whatever a run does, a solution of the constraints has foreseen: the blocks it enters are
reachable, the edges it follows are taken, and the values it stores are covered by the facts about
their nodes (`execute_sound`). The invariant is that every value in the environment is covered; a
node that acts in a reachable block turns covered operands into a covered value, because what it
computes is what its transfer function computes.
-/

namespace SeaOfNodes

/-! ### Values that facts cover -/

namespace Fact

/-- The fact allows for the value. -/
def Covers (a : Fact) (v : Literal) : Prop := a = .varying ∨ a = .constant v

theorem Covers.mono {a b : Fact} {v : Literal} (h : a.Covers v) (hle : a.le b = true) :
    b.Covers v := by
  rcases h with rfl | rfl
  · exact .inl (varying_le.mp hle)
  · rcases le_iff.mp hle with h | rfl | rfl
    · cases h
    · exact .inr rfl
    · exact .inl rfl

theorem Covers.map {a : Fact} {c v : Literal} {f : Literal → Option Literal} (h : a.Covers c)
    (hf : f c = some v) : (a.map f).Covers v := by
  rcases h with rfl | rfl
  · exact .inl rfl
  · rw [Fact.map, hf]
    exact .inr rfl

theorem Covers.combine {a b : Fact} {c d v : Literal} {f : Literal → Literal → Option Literal}
    (ha : a.Covers c) (hb : b.Covers d) (hf : f c d = some v) : (a.combine f b).Covers v := by
  rcases ha with rfl | rfl
  · exact .inl rfl
  · rcases hb with rfl | rfl
    · exact .inl rfl
    · rw [Fact.combine, hf]
      exact .inr rfl

theorem Covers.admits {a : Fact} {v : Literal} {side : Bool} (h : a.Covers v)
    (hv : v.toBool? = some side) : a.Admits side := by
  rcases h with rfl | rfl
  · trivial
  · exact .inr hv

end Fact

/-- Converting a literal to its own mode changes nothing. -/
theorem Literal.convert?_mode (v : Literal) : v.convert? v.mode = some v := by
  cases v with
  | bool b => cases b <;> rfl
  | int t a =>
    have hwidth : t.width ≤ 64 := by cases t <;> decide
    have hback : (Literal.int t a).extend.setWidth t.width = a := by
      apply BitVec.eq_of_getLsbD_eq
      intro i hi
      have hi64 : i < 64 := Nat.lt_of_lt_of_le hi hwidth
      simp only [Literal.extend]
      split
      · rw [BitVec.getLsbD_setWidth, BitVec.getLsbD_signExtend]
        simp [hi, hi64]
      · rw [BitVec.getLsbD_setWidth, BitVec.getLsbD_setWidth]
        simp [hi, hi64]
    show some (Literal.int t _) = _
    rw [hback]

/-! ### Covered environments -/

namespace Execution

/-- Every value in the environment is covered. -/
def Machine.Covered (a : Assignment) (m : Machine) : Prop :=
  ∀ n v, m.env[n]? = some (some v) → (a.value n).Covers v

variable {a : Assignment} {m m' : Machine} {n : NodeId} {x : Node} {v : Literal}

theorem get?_eq_ok {o : Option Literal} (h : m.get? n = .ok o) : m.env[n]? = some o := by
  unfold Machine.get? at h
  split at h
  next v hv =>
    cases h
    exact hv
  next => cases h

theorem get_eq_ok (h : m.get n = .ok v) : m.env[n]? = some (some v) := by
  obtain ⟨o, ho, h⟩ := bind_eq_ok.mp h
  cases o with
  | none => cases h
  | some w =>
    cases h
    exact get?_eq_ok ho

theorem set_eq_ok (h : m.set n v = .ok m') :
    n < m.env.size ∧ m' = { m with env := m.env.setIfInBounds n (some v) } := by
  unfold Machine.set at h
  split at h
  next hn =>
    cases h
    exact ⟨hn, rfl⟩
  next => cases h

theorem Machine.Covered.set (h : m.Covered a) (hv : (a.value n).Covers v)
    (hset : m.set n v = .ok m') : m'.Covered a := by
  obtain ⟨hn, rfl⟩ := set_eq_ok hset
  intro i w hw
  by_cases hi : n = i
  · subst hi
    have : some v = some w := by simpa [hn] using hw
    cases this
    exact hv
  · refine h i w ?_
    simpa [hi] using hw

theorem Machine.Covered.operand (h : m.Covered a) {i : Nat} (hv : operand m n x i = .ok v) :
    (a.operand x i).Covers v := by
  unfold Execution.operand at hv
  unfold Assignment.operand
  cases ho : x.operands[i]? with
  | none => simp [ho] at hv
  | some o =>
    rw [ho] at hv
    exact h o v (get_eq_ok hv)

theorem typed_eq_ok {o : Option Literal} {action : Action} (h : typed n o = .ok action) :
    ∃ w, o = some w ∧ action = .value w := by
  cases o with
  | none => cases h
  | some w =>
    cases h
    exact ⟨w, rfl, rfl⟩

/-! ### One node -/

/-- What a node does, kind by kind. -/
inductive Chooses (args : List Literal) (m : Machine) (n : NodeId) (x : Node) : Action → Prop where
  | const {v : Literal} : x.op = .const v → Chooses args m n x (.value v)
  | argument {i : Nat} {a v : Literal} : x.op = .proj (.argument i) → args[i]? = some a →
    a.convert? x.mode = some v → Chooses args m n x (.value v)
  | result {a v : Literal} : x.op = .proj .result → operand m n x 0 = .ok a →
    a.convert? x.mode = some v → Chooses args m n x (.value v)
  | conv {a v : Literal} : x.op = .conv → operand m n x 0 = .ok a →
    a.convert? x.mode = some v → Chooses args m n x (.value v)
  /-- The branch decides for the side of the arm. -/
  | leave {side : Bool} {a : Literal} : x.op = .proj (.arm side) → operand m n x 0 = .ok a →
    a.toBool? = some side → Chooses args m n x .leave
  | stay {side other : Bool} {a : Literal} : x.op = .proj (.arm side) →
    operand m n x 0 = .ok a → a.toBool? = some other → other ≠ side → Chooses args m n x .nothing
  | binary {op : BinaryOp} {a b v : Literal} : x.op = .binary op → operand m n x 0 = .ok a →
    operand m n x 1 = .ok b → op.eval a b = some v → Chooses args m n x (.value v)
  | cmp {rel : Relation} {a b : Literal} {holds : Bool} : x.op = .cmp rel →
    operand m n x 0 = .ok a → operand m n x 1 = .ok b → rel.eval a b = some holds →
    Chooses args m n x (.value (.bool holds))
  | minus {a v : Literal} : x.op = .minus → operand m n x 0 = .ok a → a.neg? = some v →
    Chooses args m n x (.value v)
  | not {a : Literal} : x.op = .not → operand m n x 0 = .ok a →
    Chooses args m n x (.value a.complement)
  | cond {a : Literal} : x.op = .cond → operand m n x 0 = .ok a → Chooses args m n x (.value a)
  | quotient {a b v : Literal} : x.op = .div ∧ a.div? b = some v ∨ x.op = .mod ∧ a.rem? b = some v →
    operand m n x 1 = .ok a → operand m n x 2 = .ok b → Chooses args m n x (.value v)
  /-- There is no quotient. -/
  | trap {a b : Literal} : x.op = .div ∧ a.div? b = none ∨ x.op = .mod ∧ a.rem? b = none →
    operand m n x 1 = .ok a → operand m n x 2 = .ok b → Chooses args m n x (.finish .trapped)
  | load {a : Literal} : x.op = .load → operand m n x 1 = .ok a →
    Chooses args m n x (.value (m.load a.extend))
  | store {a v : Literal} : x.op = .store → operand m n x 1 = .ok a → operand m n x 2 = .ok v →
    Chooses args m n x (.write a.extend v)
  | call {callee : String} {vs : List Literal} : x.op = .call callee →
    (x.operands.drop 1).mapM m.get = .ok vs → Chooses args m n x (.invoke callee vs)
  | ret {vs : List Literal} : x.op = .ret → (x.operands.drop 1).mapM m.get = .ok vs →
    Chooses args m n x (.finish (.returned vs))
  | jump : x.op = .jump → Chooses args m n x .leave
  | idle : x.op ∈ [.proj .memory, .start, .stop, .bad, .phi, .block] → Chooses args m n x .nothing

theorem chooses_of_choose {args : List Literal} {action : Action}
    (h : choose args m n x = .ok action) : Chooses args m n x action := by
  obtain ⟨op, mode, block, operands, users⟩ := x
  cases op with
  | const v =>
    cases h
    exact .const rfl
  | binary op =>
    obtain ⟨a, ha, h⟩ := bind_eq_ok.mp h
    obtain ⟨b, hb, h⟩ := bind_eq_ok.mp h
    obtain ⟨v, hv, rfl⟩ := typed_eq_ok h
    exact .binary rfl ha hb hv
  | cmp rel =>
    obtain ⟨a, ha, h⟩ := bind_eq_ok.mp h
    obtain ⟨b, hb, h⟩ := bind_eq_ok.mp h
    obtain ⟨v, hv, rfl⟩ := typed_eq_ok h
    obtain ⟨holds, hholds, rfl⟩ := Option.map_eq_some_iff.mp hv
    exact .cmp rfl ha hb hholds
  | minus =>
    obtain ⟨a, ha, h⟩ := bind_eq_ok.mp h
    obtain ⟨v, hv, rfl⟩ := typed_eq_ok h
    exact .minus rfl ha hv
  | not =>
    obtain ⟨a, ha, h⟩ := bind_eq_ok.mp h
    cases h
    exact .not rfl ha
  | conv =>
    obtain ⟨a, ha, h⟩ := bind_eq_ok.mp h
    obtain ⟨v, hv, rfl⟩ := typed_eq_ok h
    exact .conv rfl ha hv
  | cond =>
    obtain ⟨a, ha, h⟩ := bind_eq_ok.mp h
    cases h
    exact .cond rfl ha
  | div =>
    obtain ⟨a, ha, h⟩ := bind_eq_ok.mp h
    obtain ⟨b, hb, h⟩ := bind_eq_ok.mp h
    cases hv : a.div? b with
    | none =>
      rw [hv] at h
      cases h
      exact .trap (.inl ⟨rfl, hv⟩) ha hb
    | some v =>
      rw [hv] at h
      cases h
      exact .quotient (.inl ⟨rfl, hv⟩) ha hb
  | mod =>
    obtain ⟨a, ha, h⟩ := bind_eq_ok.mp h
    obtain ⟨b, hb, h⟩ := bind_eq_ok.mp h
    cases hv : a.rem? b with
    | none =>
      rw [hv] at h
      cases h
      exact .trap (.inr ⟨rfl, hv⟩) ha hb
    | some v =>
      rw [hv] at h
      cases h
      exact .quotient (.inr ⟨rfl, hv⟩) ha hb
  | load =>
    obtain ⟨a, ha, h⟩ := bind_eq_ok.mp h
    cases h
    exact .load rfl ha
  | store =>
    obtain ⟨a, ha, h⟩ := bind_eq_ok.mp h
    obtain ⟨v, hv, h⟩ := bind_eq_ok.mp h
    cases h
    exact .store rfl ha hv
  | call callee =>
    obtain ⟨vs, hvs, h⟩ := bind_eq_ok.mp h
    cases h
    exact .call rfl hvs
  | ret =>
    obtain ⟨vs, hvs, h⟩ := bind_eq_ok.mp h
    cases h
    exact .ret rfl hvs
  | jump =>
    cases h
    exact .jump rfl
  | proj kind =>
    cases kind with
    | memory =>
      cases h
      exact .idle (by simp)
    | argument i =>
      simp only [choose] at h
      split at h
      next => cases h
      next a ha =>
        obtain ⟨v, hv, rfl⟩ := typed_eq_ok h
        exact .argument rfl ha hv
    | arm side =>
      obtain ⟨a, ha, h⟩ := bind_eq_ok.mp h
      split at h
      next => cases h
      next other hother =>
        split at h
        next heq =>
          cases h
          exact .leave rfl ha (heq ▸ hother)
        next hne =>
          cases h
          exact .stay rfl ha hother hne
    | result =>
      obtain ⟨a, ha, h⟩ := bind_eq_ok.mp h
      obtain ⟨v, hv, rfl⟩ := typed_eq_ok h
      exact .result rfl ha hv
  | start | stop | bad | phi | block =>
    cases h
    exact .idle (by simp)
  | retired => cases h

/-- The result of a division with a constant value has the mode of that value. -/
def ResultsAgree (g : Graph) (a : Assignment) : Prop :=
  ∀ n x t y c, g.Live n → g.nodes[n]? = some x → x.op = .proj .result →
    x.operands.head? = some t → g.Live t → g.nodes[t]? = some y → y.op.isDivision = true →
    a.value t = .constant c → x.mode = c.mode

/-- What `n` is about to do is what the assignment says about it. -/
def Action.Foreseen (a : Assignment) (n : NodeId) : Action → Prop
  | .value v => (a.value n).Covers v
  | .invoke _ _ => a.value n = .varying
  | .leave => a.taken n = true
  | _ => True

section Node

variable {g : Graph} {args : List Literal} {action : Action}

/-- The result of a division is covered by the fact about the division. -/
theorem result_covers (hmodes : ResultsAgree g a)
    (hinUse : ∀ n m, g.Live n → m ∈ g.inputs n → g.isRetired m = false) (hn : g.Live n)
    (hx : g.nodes[n]? = some x) (hop : x.op = .proj .result) (hc : g.computes x = true)
    {c : Literal} (hcover : (a.operand x 0).Covers c) (hv : c.convert? x.mode = some v) :
    (a.operand x 0).Covers v := by
  obtain ⟨y, hy, hdiv⟩ : ∃ y, (x.operands.head?.bind fun t => g.nodes[t]?) = some y ∧
      y.op.isDivision = true := by
    simpa [Graph.computes, hop, Option.any_eq_true] using hc
  obtain ⟨t, ht, hy⟩ := Option.bind_eq_some_iff.mp hy
  have hfirst : x.operands[0]? = some t := by rw [← List.head?_eq_getElem?, ht]
  have hoperand : a.operand x 0 = a.value t := by rw [Assignment.operand, hfirst]; rfl
  rw [hoperand] at hcover ⊢
  rcases hcover with hvary | hconst
  · exact .inl hvary
  · have hinput : t ∈ g.inputs n := by
      rw [Graph.inputs_eq hx]
      exact List.mem_append_right _ (List.mem_of_getElem? hfirst)
    have hmode := hmodes n x t y c hn hx hop ht (hn.needs ⟨hinput, hinUse n t hn hinput⟩) hy hdiv
      hconst
    rw [hmode, Literal.convert?_mode] at hv
    cases hv
    exact .inr hconst

/-- A node that acts in a reachable block does what the assignment says. -/
theorem choose_foreseen (hs : a.Solves g) (hmodes : ResultsAgree g a)
    (hinUse : ∀ n m, g.Live n → m ∈ g.inputs n → g.isRetired m = false) (hn : g.Live n)
    (hx : g.nodes[n]? = some x) (hin : a.enters x = true) (hm : m.Covered a)
    (h : choose args m n x = .ok action) : action.Foreseen a n := by
  have hcomputed (hc : g.computes x = true) {v : Literal} (hv : (a.transfer g x).Covers v) :
      (a.value n).Covers v := hv.mono (hs.compute n x hn hx hc hin)
  have hseed := hs.seed n x hn hx
  have hchooses := chooses_of_choose h
  obtain ⟨op, mode, block, operands, users⟩ := x
  cases hchooses with
  | const hop =>
    cases hop
    exact .inr (hseed rfl)
  | argument hop | load hop =>
    cases hop
    exact .inl (hseed rfl)
  | call hop =>
    cases hop
    exact hseed rfl
  | binary hop ha hb hv =>
    cases hop
    exact hcomputed rfl ((hm.operand ha).combine (hm.operand hb) hv)
  | cmp hop ha hb hv =>
    cases hop
    exact hcomputed rfl ((hm.operand ha).combine (hm.operand hb) (by rw [hv]; rfl))
  | minus hop ha hv | conv hop ha hv =>
    cases hop
    exact hcomputed rfl ((hm.operand ha).map hv)
  | not hop ha =>
    cases hop
    exact hcomputed rfl ((hm.operand ha).map rfl)
  | cond hop ha =>
    cases hop
    exact hcomputed rfl (hm.operand ha)
  | quotient hop ha hb =>
    rcases hop with ⟨hop, hv⟩ | ⟨hop, hv⟩ <;>
      · cases hop
        exact hcomputed rfl ((hm.operand ha).combine (hm.operand hb) hv)
  | result hop ha hv =>
    cases hop
    cases hc : g.computes ⟨.proj .result, mode, block, operands, users⟩ with
    | false => exact .inl (hseed hc)
    | true => exact hcomputed hc (result_covers hmodes hinUse hn hx rfl hc (hm.operand ha) hv)
  | leave hop ha hside => exact hs.choose n _ _ hn hx hop hin ((hm.operand ha).admits hside)
  | jump hop => exact hs.leave n _ hn hx (.inl hop) hin
  | stay | trap | store | ret | idle => trivial

end Node

/-! ### One block -/

/-- The assignment says so. -/
def Note.Foreseen (g : Graph) (a : Assignment) : Note → Prop
  | .entered b => a.reachable b = true
  | .followed e => a.taken e = true
  | .stored n v => g.Live n ∧ (a.value n).Covers v

def Ending.Foreseen (a : Assignment) : Ending → Prop
  | .through m exit => m.Covered a ∧ ∀ e, exit = some e → a.taken e = true
  | .finished _ _ => True

/-- The nodes of a schedule are live. -/
def Schedule.Within (g : Graph) (s : Schedule) : Prop :=
  ∀ e ∈ s, g.Live e.1 ∧ g.nodes[e.1]? = some e.2

theorem schedule_eq_ok {g : Graph} {s : Schedule} (h : schedule g = .ok s) : s.Within g := by
  obtain ⟨walk, hwalk, h⟩ := bind_eq_ok.mp h
  have hcomplete := Walk.complete_of_run hwalk
  intro e he
  obtain ⟨n, hn, hturn⟩ := exists_of_mem_mapM h he
  obtain ⟨x, hx, hturn⟩ := bind_eq_ok.mp hturn
  cases hturn
  exact ⟨(hcomplete.mem_order n).mp hn, Graph.node_eq_ok hx⟩

section Block

variable {g : Graph} {s : Schedule} {handler : Handler} {args : List Literal}

theorem journalBody_foreseen (hs : a.Solves g) (hmodes : ResultsAgree g a)
    (hinUse : ∀ n m, g.Live n → m ∈ g.inputs n → g.isRetired m = false) {body : Schedule}
    (hbody : body.Within g) (hin : ∀ e ∈ body, a.enters e.2 = true) (hm : m.Covered a)
    {exit : Option NodeId} (hexit : ∀ e, exit = some e → a.taken e = true) {notes : List Note}
    {ending : Ending} (h : journalBody handler args body m exit = .ok (notes, ending)) :
    (∀ note ∈ notes, note.Foreseen g a) ∧ ending.Foreseen a := by
  induction body generalizing m exit notes with
  | nil =>
    cases h
    exact ⟨fun note hnote => (by cases hnote), hm, hexit⟩
  | cons e rest ih =>
    obtain ⟨n, x⟩ := e
    obtain ⟨hn, hx⟩ := hbody (n, x) List.mem_cons_self
    have hrest : Schedule.Within g rest := fun e he => hbody e (List.mem_cons_of_mem _ he)
    have hinRest : ∀ e ∈ rest, a.enters e.2 = true :=
      fun e he => hin e (List.mem_cons_of_mem _ he)
    obtain ⟨action, haction, h⟩ := bind_eq_ok.mp h
    have hforeseen := choose_foreseen hs hmodes hinUse hn hx (hin (n, x) List.mem_cons_self) hm
      haction
    have hstored {v : Literal} (hv : (a.value n).Covers v) {m₁ m₂ : Machine} (hm₁ : m₁.Covered a)
        (hset : m₁.set n v = .ok m₂) (h : (Note.stored n v).before
          (journalBody handler args rest m₂ exit) = .ok (notes, ending)) :
        (∀ note ∈ notes, note.Foreseen g a) ∧ ending.Foreseen a := by
      cases hrun : journalBody handler args rest m₂ exit with
      | error e => simp [hrun, Note.before] at h
      | ok r =>
        rw [hrun] at h
        cases h
        obtain ⟨hnotes, hending⟩ := ih hrest hinRest (hm₁.set hv hset) hexit hrun
        refine ⟨fun note hnote => ?_, hending⟩
        rcases List.mem_cons.mp hnote with rfl | hnote
        · exact ⟨hn, hv⟩
        · exact hnotes note hnote
    cases action with
    | value v =>
      obtain ⟨m', hset, h⟩ := bind_eq_ok.mp h
      exact hstored hforeseen hm hset h
    | invoke callee vs =>
      obtain ⟨m', hset, h⟩ := bind_eq_ok.mp h
      have hseen : Machine.Covered a { m with effects := m.effects.push (.call callee vs) } := hm
      exact hstored (.inl hforeseen) hseen hset h
    | nothing => exact ih hrest hinRest hm hexit h
    | leave =>
      refine ih hrest hinRest hm (fun e he => ?_) h
      cases he
      exact hforeseen
    | write address v =>
      have hwritten : (m.store address v).Covered a := hm
      exact ih hrest hinRest hwritten hexit h
    | finish o =>
      cases h
      exact ⟨fun note hnote => (by cases hnote), trivial⟩

/-- What arrives at a phi along a taken edge is covered by the fact about the phi. -/
theorem phi_covers (hs : a.Solves g) (hn : g.Live n) (hx : g.nodes[n]? = some x)
    (hop : x.op = .phi) {b : NodeId} (hb : x.block = some b) (hreach : a.reachable b = true)
    {k : Nat} {edge : NodeId} (hedge : (g.operands b)[k]? = some edge)
    (htaken : a.taken edge = true) (hcover : (a.operand x k).Covers v) :
    (a.value n).Covers v := by
  cases hc : g.computes x with
  | false =>
    refine .inl ((hs.seed n x hn hx hc).trans ?_)
    simp [Node.seed, hop]
  | true =>
    have hin : a.enters x = true := Assignment.enters_eq_true.mpr ⟨b, hb, hreach⟩
    have harrives : a.operand x k ∈ a.arriving (g.operands b) x :=
      Assignment.mem_arriving.mpr ⟨edge, k, hedge, htaken, rfl⟩
    have htransfer : a.transfer g x =
        (a.arriving (g.operands b) x).foldl Fact.meet .unknown := by
      simp [Assignment.transfer, hop, hb]
    have hle := hs.compute n x hn hx hc hin
    rw [htransfer] at hle
    exact hcover.mono ((Fact.foldl_meet_le.mp hle).2 _ harrives)

/-- Values that arrive along a taken edge are covered by the facts about the phis. -/
theorem journalPhis_foreseen (hs : a.Solves g) {phis : Schedule} (hphis : phis.Within g)
    (hkind : ∀ e ∈ phis, e.2.op = .phi) {b : NodeId} (hblock : ∀ e ∈ phis, e.2.block = some b)
    (hreach : a.reachable b = true) {k : Nat} {edge : NodeId}
    (hedge : (g.operands b)[k]? = some edge) (htaken : a.taken edge = true) (hm : m.Covered a)
    {notes : List Note} (h : journalPhis phis k m = .ok (notes, m')) :
    (∀ note ∈ notes, note.Foreseen g a) ∧ m'.Covered a := by
  obtain ⟨incoming, hincoming, h⟩ := bind_eq_ok.mp h
  obtain ⟨m₂, hstore, h⟩ := bind_eq_ok.mp h
  cases h
  have hcovers : ∀ e ∈ incoming, ∀ v, e.2 = some v → g.Live e.1 ∧ (a.value e.1).Covers v := by
    intro e he v hv
    obtain ⟨⟨n, x⟩, hmem, hturn⟩ := exists_of_mem_mapM hincoming he
    obtain ⟨hn, hx⟩ := hphis _ hmem
    have hop : x.op = .phi := hkind _ hmem
    have hb : x.block = some b := hblock _ hmem
    simp only at hturn
    split at hturn
    next =>
      cases hturn
      cases hv
    next o ho =>
      obtain ⟨w, hw, hturn⟩ := bind_eq_ok.mp hturn
      cases hturn
      have hv : w = some v := hv
      refine ⟨hn, phi_covers hs hn hx hop hb hreach hedge htaken ?_⟩
      rw [Assignment.operand, ho]
      exact hm o v (hv ▸ get?_eq_ok hw)
  constructor
  · intro note hnote
    obtain ⟨e, he, hv⟩ := List.mem_filterMap.mp hnote
    obtain ⟨v, hsome, rfl⟩ := Option.map_eq_some_iff.mp hv
    exact hcovers e he v hsome
  · refine foldlM_eq_ok (I := fun _ m => m.Covered a) hstore hm
      fun done e rest m₁ m₂ hsplit hm₁ hturn => ?_
    have he : e ∈ incoming := hsplit ▸ List.mem_append_right _ List.mem_cons_self
    obtain ⟨n, o⟩ := e
    cases o with
    | none => cases hturn
    | some v => exact hm₁.set (hcovers _ he v rfl).2 hturn

/-- A run stands where the assignment says it can. -/
structure Position.Foreseen (g : Graph) (a : Assignment) (p : Position) : Prop where
  reachable : g.Live p.block → a.reachable p.block = true
  via : ∀ k, p.via = some k → ∃ e, (g.operands p.block)[k]? = some e ∧ a.taken e = true

/-- Control goes on in a block that lists the edge, at the edge's place. -/
theorem follow_eq_ok {edge : NodeId} {p : Position} (h : follow g edge = .ok p) :
    p.block ∈ g.users edge ∧ (∃ y, g.nodes[p.block]? = some y ∧ y.op = .block) ∧
      p.via = (g.operands p.block).idxOf? edge := by
  obtain ⟨x, hx, h⟩ := bind_eq_ok.mp h
  obtain ⟨blocks, hblocks, h⟩ := bind_eq_ok.mp h
  split at h
  next => cases h
  next b hb =>
    obtain ⟨y, hy, h⟩ := bind_eq_ok.mp h
    cases h
    obtain ⟨huser, z, hz, hop⟩ := (Graph.mem_select hblocks).mp (List.mem_of_mem_head? hb)
    refine ⟨?_, ⟨z, hz, by simpa using hop⟩, ?_⟩
    · rw [Graph.users_eq (Graph.node_eq_ok hx)]
      exact huser
    · rw [Graph.operands_eq (Graph.node_eq_ok hy)]

theorem follow_foreseen (hs : a.Solves g) (hg : g.Mirrored) {edge : NodeId} {p : Position}
    (hedge : a.taken edge = true) (h : follow g edge = .ok p) : p.Foreseen g a := by
  obtain ⟨huser, ⟨y, hy, hop⟩, hvia⟩ := follow_eq_ok h
  have hmem : edge ∈ y.operands := by
    rw [← Graph.operands_eq hy]
    exact hg.mem_users.mp huser
  refine ⟨fun hlive => hs.enter p.block y hlive hy hop edge hmem hedge, fun k hk => ?_⟩
  rw [hvia] at hk
  obtain ⟨hlt, hget, -⟩ := List.idxOf?_eq_some_iff.mp hk
  exact ⟨edge, List.getElem?_eq_some_iff.mpr ⟨hlt, hget⟩, hedge⟩

theorem block_of_mem_body {b : NodeId} {e : NodeId × Node} (he : e ∈ s.body b) :
    e.2.block = some b := by
  have := (List.mem_filter.mp he).2
  simp only [Bool.and_eq_true, beq_iff_eq] at this
  exact this.1

theorem kind_of_mem_phis {b : NodeId} {e : NodeId × Node} (he : e ∈ s.phis b) :
    e.2.block = some b ∧ e.2.op = .phi := by
  have := (List.mem_filter.mp he).2
  simp only [Bool.and_eq_true, beq_iff_eq] at this
  exact this.1

/-- A block in which something stands is live, so the run came to it along a taken edge. -/
theorem Position.Foreseen.reachable_of_mem {p : Position} (hp : p.Foreseen g a)
    (hinUse : ∀ n m, g.Live n → m ∈ g.inputs n → g.isRetired m = false) (hsched : s.Within g)
    {e : NodeId × Node} (he : e ∈ s.body p.block) : a.reachable p.block = true := by
  obtain ⟨hn, hx⟩ := hsched e (List.mem_filter.mp he).1
  have hinput : p.block ∈ g.inputs e.1 := by
    rw [Graph.inputs_eq hx, Node.inputs, block_of_mem_body he]
    exact List.mem_append_left _ (List.mem_singleton_self _)
  exact hp.reachable (hn.needs ⟨hinput, hinUse _ _ hn hinput⟩)

theorem journalArrive_foreseen (hs : a.Solves g) (hsched : s.Within g) {p : Position}
    (hp : p.Foreseen g a) (hreach : a.reachable p.block = true) (hm : m.Covered a)
    {notes : List Note} (h : journalArrive s p m = .ok (notes, m')) :
    (∀ note ∈ notes, note.Foreseen g a) ∧ m'.Covered a := by
  unfold journalArrive at h
  cases hvia : p.via with
  | none =>
    rw [hvia] at h
    cases h
    exact ⟨fun note hnote => (by cases hnote), hm⟩
  | some k =>
    rw [hvia] at h
    obtain ⟨edge, hedge, htaken⟩ := hp.via k hvia
    exact journalPhis_foreseen hs (fun e he => hsched e (List.mem_filter.mp he).1)
      (fun e he => (kind_of_mem_phis he).2) (fun e he => (kind_of_mem_phis he).1) hreach hedge
      htaken hm h

theorem Ending.Foreseen.notes {ending : Ending} (h : ending.Foreseen a) :
    ∀ note ∈ ending.notes, note.Foreseen g a := by
  intro note hnote
  cases ending with
  | finished m₂ o => cases hnote
  | through m₂ exit =>
    cases exit with
    | none => cases hnote
    | some edge =>
      obtain rfl := List.mem_singleton.mp hnote
      exact h.2 edge rfl

theorem depart_foreseen (hs : a.Solves g) (hg : g.Mirrored) {b : NodeId} {ending : Ending}
    (hending : ending.Foreseen a) {q : Position} (h : depart g b ending = .ok (.inl (q, m'))) :
    q.Foreseen g a ∧ m'.Covered a := by
  cases ending with
  | finished m₂ o => cases h
  | through m₂ exit =>
    cases exit with
    | none => cases h
    | some edge =>
      obtain ⟨q', hfollow, h⟩ := bind_eq_ok.mp h
      cases h
      exact ⟨follow_foreseen hs hg (hending.2 edge rfl) hfollow, hending.1⟩

theorem journalBlock_foreseen (hs : a.Solves g) (hmodes : ResultsAgree g a)
    (hinUse : ∀ n m, g.Live n → m ∈ g.inputs n → g.isRetired m = false) (hg : g.Mirrored)
    (hsched : s.Within g) {p : Position} (hp : p.Foreseen g a) (hm : m.Covered a)
    {notes : List Note} {next : (Position × Machine) ⊕ (Machine × Outcome)}
    (h : journalBlock g s handler args p m = .ok (notes, next)) :
    (∀ note ∈ notes, note.Foreseen g a) ∧
      ∀ q m', next = .inl (q, m') → q.Foreseen g a ∧ m'.Covered a := by
  obtain ⟨⟨first, m₁⟩, harrive, h⟩ := bind_eq_ok.mp h
  obtain ⟨⟨inside, ending⟩, hrun, h⟩ := bind_eq_ok.mp h
  obtain ⟨next', hdepart, h⟩ := bind_eq_ok.mp h
  cases h
  -- an empty block has no exit, so something live stands in this one
  have hreach : a.reachable p.block = true := by
    cases hempty : s.body p.block with
    | nil =>
      rw [hempty] at hrun
      cases hrun
      cases hdepart
    | cons e rest => exact hp.reachable_of_mem hinUse hsched (hempty ▸ List.mem_cons_self)
  obtain ⟨hfirst, hm₁⟩ := journalArrive_foreseen hs hsched hp hreach hm harrive
  obtain ⟨hinside, hending⟩ := journalBody_foreseen hs hmodes hinUse
    (fun e he => hsched e (List.mem_filter.mp he).1)
    (fun e he => Assignment.enters_eq_true.mpr ⟨p.block, block_of_mem_body he, hreach⟩) hm₁
    (fun e he => by cases he) hrun
  refine ⟨fun note hnote => ?_, fun q m' hnext => ?_⟩
  · simp only [List.cons_append, List.mem_cons, List.mem_append] at hnote
    rcases hnote with rfl | (hnote | hnote) | hnote
    · exact hreach
    · exact hfirst note hnote
    · exact hinside note hnote
    · exact hending.notes note hnote
  · subst hnext
    exact depart_foreseen hs hg hending hdepart

/-! ### Whole runs -/

theorem journalFrom_foreseen (hs : a.Solves g) (hmodes : ResultsAgree g a)
    (hinUse : ∀ n m, g.Live n → m ∈ g.inputs n → g.isRetired m = false) (hg : g.Mirrored)
    (hsched : s.Within g) {fuel steps : Nat} {p : Position} (hp : p.Foreseen g a)
    (hm : m.Covered a) {notes : List Note} {e : Execution}
    (h : journalFrom g s handler args fuel steps p m = .ok (notes, e)) :
    ∀ note ∈ notes, note.Foreseen g a := by
  induction fuel generalizing steps p m notes with
  | zero =>
    cases h
    intro note hnote
    cases hnote
  | succ fuel ih =>
    obtain ⟨⟨here, next⟩, hblock, h⟩ := bind_eq_ok.mp h
    obtain ⟨hhere, hnext⟩ := journalBlock_foreseen hs hmodes hinUse hg hsched hp hm hblock
    cases next with
    | inr r =>
      cases h
      exact hhere
    | inl r =>
      obtain ⟨⟨later, e'⟩, hlater, h⟩ := bind_eq_ok.mp h
      cases h
      obtain ⟨hq, hm'⟩ := hnext r.1 r.2 rfl
      intro note hnote
      rcases List.mem_append.mp hnote with hnote | hnote
      · exact hhere note hnote
      · exact ih hq hm' hlater note hnote

end Block

/-- What the analysis found agrees with what happened. -/
def Note.AgreesWith (r : Solution) : Note → Prop
  | .entered b => r.isReachable b = true
  | .followed e => r.mark? e = some .taken
  | .stored n v => r.value? n = some .varying ∨ r.value? n = some (.constant v)

theorem Note.Foreseen.agreesWith {g : Graph} {r : Solution} (hr : r.Describes g) {note : Note}
    (h : note.Foreseen g r.assignment) : note.AgreesWith r := by
  cases note with
  | entered b => exact h
  | followed e => exact beq_iff_eq.mp h
  | stored n v =>
    obtain ⟨hn, hcovers⟩ := h
    show r.value? n = some .varying ∨ r.value? n = some (.constant v)
    rw [hr.value n hn]
    exact hcovers.imp (congrArg some) (congrArg some)

end Execution

/-- Every block a run enters was found reachable, every edge it follows was marked taken, and every
value it stores was allowed for. -/
theorem execute_sound {g : Graph} {r : Solution} (hg : g.Built) (h : g.analyze = .ok r)
    (hmodes : Execution.ResultsAgree g r.assignment) {args : List Literal} {handler : Handler}
    {fuel : Nat} {e : Execution} (hrun : g.execute args handler fuel = .ok e) :
    ∃ notes, g.journal args handler fuel = .ok (notes, e) ∧
      notes.countP Execution.Note.isEntry = e.steps ∧ ∀ note ∈ notes, note.AgreesWith r := by
  have hr := hg.describes h
  rw [Graph.execute_eq_journal] at hrun
  obtain ⟨⟨notes, e'⟩, hjournal, hrun⟩ := bind_eq_ok.mp hrun
  cases hrun
  refine ⟨notes, hjournal, ?_, fun note hnote => ?_⟩
  all_goals obtain ⟨s, hsched, hfrom⟩ := bind_eq_ok.mp hjournal
  · rw [Execution.steps_eq_countP hfrom, Nat.zero_add]
  · have hp : Execution.Position.Foreseen g r.assignment
        { block := Anchor.startBlock, via := none } :=
      ⟨fun _ => hr.solves.entry, fun k hk => by cases hk⟩
    have hm : (Execution.Machine.initial g).Covered r.assignment := by
      intro n v hv
      simp [Execution.Machine.initial, Array.getElem?_replicate] at hv
    exact (Execution.journalFrom_foreseen hr.solves hmodes hr.inUse hg.mirrored
      (Execution.schedule_eq_ok hsched) hp hm hfrom note hnote).agreesWith hr

/-- Calls `emit` with its argument, and again with one less, down to one. The division 19 in the
loop always gives the constant 7. -/
def countdown : List Edit :=
  [.addNode (.proj .memory) .memory (some Anchor.startBlock) [Anchor.start],
    .addNode (.proj (.argument 0)) (.int .i32) (some Anchor.startBlock) [Anchor.start],
    .addNode (.const (.int .i32 1)) (.int .i32) (some Anchor.startBlock) [],
    .addNode (.const (.int .i32 0)) (.int .i32) (some Anchor.startBlock) [],
    .addNode .jump .control (some Anchor.startBlock) [],
    .addNode .block .block none [9],
    .addNode .phi .memory (some 10) [5],
    .addNode .phi (.int .i32) (some 10) [6],
    .addNode .phi (.int .i32) (some 10) [7],
    .addNode (.cmp .equal) .bool (some 10) [12, 8],
    .addNode .cond .tuple (some 10) [14],
    .addNode (.proj (.arm true)) .control (some 10) [15],
    .addNode (.proj (.arm false)) .control (some 10) [15],
    .addNode .block .block none [17],
    .addNode .div .tuple (some 18) [11, 13, 7],
    .addNode (.proj .memory) .memory (some 18) [19],
    .addNode (.proj .result) (.int .i32) (some 18) [19],
    .addNode (.call "emit") .tuple (some 18) [20, 12],
    .addNode (.proj .memory) .memory (some 18) [22],
    .addNode (.binary .sub) (.int .i32) (some 18) [12, 7],
    .addNode .jump .control (some 18) [],
    .addOperand 10 25,
    .addOperand 11 23,
    .addOperand 12 24,
    .addOperand 13 21,
    .addNode .block .block none [16],
    .addNode .ret .control (some 26) [11, 13],
    .addOperand Anchor.endBlock 27]

/-- Whether the modes of results agree, node by node. -/
def Execution.checkResults (g : Graph) (a : Assignment) : Bool :=
  g.nodes.all fun x => x.op != .proj .result || x.operands.head?.all fun t =>
    (a.value t).constant?.all fun c => x.mode == c.mode

theorem Execution.resultsAgree_of_check {g : Graph} {a : Assignment}
    (h : checkResults g a = true) : ResultsAgree g a := by
  intro n x t y c _ hx hop ht _ _ _ hc
  have hall := Array.all_eq_true'.mp h x (Array.mem_of_getElem? hx)
  simpa [hop, ht, hc, Fact.constant?] using hall

/-- The loop is run twice, and both times the division gives 7. -/
theorem execute_sound_countdown :
    ∃ g r notes, countdown.foldlM Graph.apply (.new "f" 1) = .ok g ∧ g.analyze = .ok r ∧
      g.journal [.int .i32 2] Handler.default 100 = .ok (notes,
        { effects := #[.call "emit" [.int .i32 2], .call "emit" [.int .i32 1]]
          outcome := .returned [.int .i32 1]
          steps := 7 }) ∧
      notes.count (Execution.Note.followed 25) = 2 ∧ ∀ note ∈ notes, note.AgreesWith r := by
  have hok : (do
      let g ← countdown.foldlM Graph.apply (.new "f" 1)
      let r ← g.analyze
      let p ← g.journal [.int .i32 2] Handler.default 100
      return (Execution.checkResults g r.assignment, p.1.count (Execution.Note.followed 25), p.2)) =
      .ok (true, 2,
        { effects := #[.call "emit" [.int .i32 2], .call "emit" [.int .i32 1]]
          outcome := .returned [.int .i32 1]
          steps := 7 }) := by
    decide +kernel
  obtain ⟨g, hg, hok⟩ := bind_eq_ok.mp hok
  obtain ⟨r, hr, hok⟩ := bind_eq_ok.mp hok
  obtain ⟨⟨notes, e⟩, hjournal, hok⟩ := bind_eq_ok.mp hok
  obtain ⟨hall, hok⟩ := Prod.mk.inj (Except.ok.inj hok)
  obtain ⟨hcount, he⟩ := Prod.mk.inj hok
  have hbuilt : g.Built := (Graph.Built.new "f" 1).foldlM hg
  have hrun : g.execute [.int .i32 2] Handler.default 100 = .ok e := by
    rw [Graph.execute_eq_journal, hjournal]
    rfl
  obtain ⟨notes', hnotes, -, hagree⟩ :=
    execute_sound hbuilt hr (Execution.resultsAgree_of_check hall) hrun
  rw [hjournal] at hnotes
  cases hnotes
  exact ⟨g, r, notes, hg, hr, he ▸ hjournal, hcount, hagree⟩

end SeaOfNodes
