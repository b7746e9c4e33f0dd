import SeaOfNodes.Proofs.Faults
import SeaOfNodes.Proofs.Precision

/-!
Substituting facts replaces all nodes at once.

The facts about a graph ask for nodes to be replaced (`Substitution.Due`). The pass goes through
them one by one, in an order found before anything changed, and it looks at the graph as the steps
before left it. The result is the same as if every operand had been renamed in one step
(`Substitution.Simultaneous`).

Between two visits the stand-ins rename the operands of every node left (`Substitution.Renames`).
Two facts about the order carry this. The memory state that a division consumed is settled when the
division is visited, unless a phi made it (`Turn.ne_resolve`); and nothing comes to stand for a
division that is still to be visited (`Turn.eq_of_resolve`), so its projections are still those it
began with.
-/

namespace SeaOfNodes

/-- Live nodes stand in blocks, projections have one operand, and arms hang off branches. -/
structure Graph.Plain (g : Graph) : Prop where
  placed : ∀ n x, g.Live n → g.shape? n = some x → x.op ≠ .block → x.block ≠ none
  single : ∀ p x k, g.shape? p = some x → x.op = .proj k → ∃ t, x.operands = [t]
  arm : ∀ p x side t, g.shape? p = some x → x.op = .proj (.arm side) → t ∈ x.operands →
    ∃ c, g.shape? t = some c ∧ c.op = .cond

/-- Live arms hang off branches. -/
def Graph.ArmsHang (g : Graph) : Prop :=
  ∀ n x side, g.Live n → g.shape? n = some x → x.op = .proj (.arm side) →
    ∃ t c, x.operands.head? = some t ∧ g.shape? t = some c ∧ c.op = .cond

theorem Graph.Plain.armsHang {g : Graph} (h : g.Plain) : g.ArmsHang := by
  intro n x side _ hx hop
  obtain ⟨t, ht⟩ := h.single n x _ hx hop
  obtain ⟨c, hc⟩ := h.arm n x side t hx hop (by simp [ht])
  exact ⟨t, c, by rw [ht]; rfl, hc⟩

namespace Substitution

open Rewriting Image

/-- What takes the place of a node. -/
inductive Replacement where
  /-- A constant of the start block. -/
  | constant (value : Literal)
  /-- Whatever takes the place of another node. -/
  | sameAs (node : NodeId)
  /-- A new jump. -/
  | jump (block : Option NodeId)
  /-- Dead control. -/
  | dead

variable (g : Graph) (r : Solution)

/-- The fact about `d` asks for `n` to be replaced. -/
inductive Due : NodeId → NodeId → Replacement → Prop where
  | value {n : NodeId} {x : Shape} {v : Literal} : g.Live n → g.shape? n = some x →
    x.op.isFolded = true → x.mode.isFoldable = true → r.constant? n = some v →
    Due n n (.constant v)
  /-- A division with a constant result hands on the memory state it consumed. -/
  | state {d p m : NodeId} {x : Shape} {v : Literal} : Quotient g r d v →
    (g.operands d).head? = some m → g.shape? p = some x → x.op = .proj .memory →
    d ∈ x.operands → Due d p (.sameAs m)
  | result {d p : NodeId} {x : Shape} {v : Literal} : Quotient g r d v → g.shape? p = some x →
    x.op = .proj .result → d ∈ x.operands → Due d p (.constant ((v.convert? x.mode).getD v))
  | chosen {n t : NodeId} {x : Shape} {side : Bool} {v : Literal} : g.Live n →
    g.shape? n = some x → x.op = .proj (.arm side) → x.operands.head? = some t →
    r.constant? t = some v → v.toBool? = some side → Due n n (.jump x.block)
  | dead {n t : NodeId} {x : Shape} {side : Bool} {v : Literal} : g.Live n →
    g.shape? n = some x → x.op = .proj (.arm side) → x.operands.head? = some t →
    r.constant? t = some v → v.toBool? = some (!side) → Due n n .dead

variable {g r} in
/-- The renaming `ρ` puts the replacement in the place of `n`. -/
def Replacement.Done (g h : Graph) (ρ : NodeId → NodeId) (n : NodeId) : Replacement → Prop
  | .constant v => h.IsConstant (ρ n) v
  | .sameAs m => ρ n = ρ m
  | .jump b => g.size ≤ ρ n ∧ h.shape? (ρ n) = some ⟨.jump, .control, b, []⟩
  | .dead => ρ n = Anchor.bad

/-- `h` is `g` with all replacements made at once: `ρ` does what is due and nothing else, what was
replaced is gone, and what is left has its operands renamed. -/
structure Simultaneous (ρ : NodeId → NodeId) (h : Graph) : Prop where
  done : ∀ d n a, Due g r d n a → a.Done g h ρ n
  gone : ∀ d n a, Due g r d n a → h.Removed n
  other : ∀ n, (∀ d a, ¬ Due g r d n a) → ρ n = n
  /-- Nothing is put in the place of a node and then replaced itself. -/
  idem : ∀ n, ρ (ρ n) = ρ n
  kept : ∀ n x, g.shape? n = some x → ¬ h.Removed n →
    h.shape? n = some { x with operands := x.operands.map ρ }
  /-- Besides what was replaced only branches and divisions go. -/
  lost : ∀ n x, g.Live n → g.shape? n = some x → h.Removed n →
    (∃ d a, Due g r d n a) ∨ x.op = .cond ∨ ∃ v, Quotient g r n v

/-- What is assumed of a graph and of the facts about it. -/
structure Ground : Prop where
  describes : r.Describes g
  bad : ∃ x, g.shape? Anchor.bad = some x ∧ x.op = .bad
  arm : g.ArmsHang

/-- `m` was made for other nodes, or one of the divisions `done` consumed it. -/
def Sourced (done : List NodeId) (m : NodeId) : Prop :=
  Made g m ∨ ∃ t ∈ done, ∃ v, Quotient g r t v ∧ (g.operands t).head? = some m

/-- What holds between two visits, when the nodes `done` were visited. -/
structure Renames (done : List NodeId) (s : State) : Prop where
  mirrored : s.draft.graph.Mirrored
  size_le : g.size ≤ s.draft.graph.size
  slot : ∀ n x, g.shape? n = some x → ∃ y, s.draft.graph.shape? n = some y ∧ x.Keeps y ∧
    (y.op = .retired ∨ y.operands = x.operands.map s.standIns.resolve)
  fresh : ∀ n y, g.size ≤ n → s.draft.graph.shape? n = some y →
    y.operands = [] ∧ ((∃ v, y.op = .const v) ∨ y.op = .jump)
  constant : ∀ v n, (v, n) ∈ s.constants → s.draft.graph.IsConstant n v
  self : ∀ n, ¬ s.draft.graph.Removed n → s.standIns.resolve n = n
  idem : ∀ n, s.standIns.resolve (s.standIns.resolve n) = s.standIns.resolve n
  due : ∀ n, s.standIns.resolve n ≠ n →
    ∃ d a, Due g r d n a ∧ a.Done g s.draft.graph s.standIns.resolve n
  source : ∀ n, s.standIns.resolve n ≠ n → Sourced g r done (s.standIns.resolve n)
  gone : ∀ n x, g.shape? n = some x → x.op ≠ .retired → s.draft.graph.Removed n →
    s.standIns.resolve n ≠ n ∨ x.op = .cond ∨ n ∈ done ∧ ∃ v, Quotient g r n v

variable {g r} {s s' : State} {done : List NodeId}

/-! ### What is due -/

theorem Due.kind {d n : NodeId} {a : Replacement} (h : Due g r d n a) {x : Shape}
    (hx : g.shape? n = some x) : isReplaced x.op = true := by
  cases h with
  | value _ hx' hop =>
    cases hx.symm.trans hx'
    cases hk : x.op <;> simp [hk, Op.isFolded, isReplaced] at hop ⊢
  | state _ _ hx' hop =>
    cases hx.symm.trans hx'
    rw [hop]
    rfl
  | result _ hx' hop =>
    cases hx.symm.trans hx'
    rw [hop]
    rfl
  | chosen _ hx' hop =>
    cases hx.symm.trans hx'
    rw [hop]
    rfl
  | dead _ hx' hop =>
    cases hx.symm.trans hx'
    rw [hop]
    rfl

theorem Due.live {d n : NodeId} {a : Replacement} (h : Due g r d n a) : g.Live d := by
  cases h with
  | value hn => exact hn
  | state hq => exact hq.1
  | result hq => exact hq.1
  | chosen hn => exact hn
  | dead hn => exact hn

theorem Due.exists_shape {d n : NodeId} {a : Replacement} (h : Due g r d n a) :
    ∃ x, g.shape? n = some x := by
  cases h with
  | value _ hx => exact ⟨_, hx⟩
  | state _ _ hx => exact ⟨_, hx⟩
  | result _ hx => exact ⟨_, hx⟩
  | chosen _ hx => exact ⟨_, hx⟩
  | dead _ hx => exact ⟨_, hx⟩

/-- A division whose result is known has a first operand. -/
theorem exists_head_of_quotient (hr : r.Describes g) {d : NodeId} {v : Literal}
    (hq : Quotient g r d v) : ∃ m, (g.operands d).head? = some m := by
  obtain ⟨hlive, ⟨y, hy, hdiv⟩, hv⟩ := hq
  obtain ⟨x, hx, rfl⟩ := Option.map_eq_some_iff.mp hy
  have hdiv : x.op.isDivision = true := hdiv
  have hcomputes : g.computes x = true := by
    cases hop : x.op <;> simp [hop, Op.isDivision, Graph.computes] at hdiv ⊢
  have hvalue := hr.transfer_of_constant hlive hx hcomputes hv
  rw [Graph.operands_eq hx]
  cases hops : x.operands with
  | cons m l => exact ⟨m, rfl⟩
  | nil =>
    have hnone (i : Nat) : r.assignment.operand x i = .varying := by
      rw [Assignment.operand, hops]
      rfl
    cases hop : x.op <;>
      simp [hop, Op.isDivision, Assignment.transfer, hnone, Fact.combine] at hdiv hvalue

/-- A replacement stays when stand-ins are followed up, constants and jumps stay where they are, and
dead control stays dead. -/
theorem Replacement.Done.step {h h' : Graph} {ρ ρ' f : NodeId → NodeId} {n : NodeId}
    {a : Replacement} (hdone : a.Done g h ρ n) (hcongr : ∀ m, ρ n = ρ m → ρ' n = ρ' m)
    (hfirm : ∀ y, h.shape? (ρ n) = some y → (∃ v, y.op = .const v) ∨ y.op = .jump →
      ρ' n = ρ n ∧ h'.shape? (ρ n) = some { y with operands := y.operands.map f })
    (hbad : ρ n = Anchor.bad → ρ' n = Anchor.bad) : a.Done g h' ρ' n := by
  cases a with
  | constant v =>
    obtain ⟨y, hy, hop, hblock⟩ := hdone
    obtain ⟨hstay, hshape⟩ := hfirm y hy (.inl ⟨v, hop⟩)
    rw [← hstay] at hshape
    exact ⟨_, hshape, hop, hblock⟩
  | sameAs m => exact hcongr m hdone
  | jump b =>
    obtain ⟨hsize, hy⟩ := hdone
    obtain ⟨hstay, hshape⟩ := hfirm _ hy (.inr rfl)
    exact ⟨hstay ▸ hsize, hstay ▸ hshape⟩
  | dead => exact hbad hdone

/-! ### Nodes between two visits -/

theorem Ground.not_made (hg : Ground g r) {n : NodeId} {x : Shape} (hx : g.shape? n = some x)
    (hkind : isReplaced x.op = true ∨ x.op.isDivision = true) : ¬ Made g n := by
  intro hmade
  rcases hmade.kind_of_bad hg.bad hx with ⟨v, hop⟩ | hop
  · simp [hop, isReplaced, Op.isDivision] at hkind
  · simp [hop, isReplaced, Op.isDivision] at hkind

/-- A node that is left has its operands renamed. -/
theorem Renames.shape (hs : Renames g r done s) {n : NodeId} {x : Shape}
    (hx : g.shape? n = some x) (hn : ¬ s.draft.graph.Removed n) :
    s.draft.graph.shape? n = some { x with operands := x.operands.map s.standIns.resolve } := by
  obtain ⟨⟨op, mode, block, operands⟩, hy, ⟨hop, hmode, hblock⟩, hoperands⟩ := hs.slot n x hx
  have hused : op ≠ .retired := fun hret => hn ⟨_, hy, hret⟩
  obtain rfl : op = x.op := hop.resolve_right hused
  obtain rfl : mode = x.mode := hmode
  obtain rfl : block = x.block := hblock
  obtain rfl : operands = x.operands.map s.standIns.resolve := hoperands.resolve_left hused
  exact hy

/-- A node that may be exchanged has been there from the beginning. -/
theorem Renames.origin (hs : Renames g r done s) {n : NodeId} {y : Shape}
    (hy : s.draft.graph.shape? n = some y)
    (hkind : isReplaced y.op = true ∨ y.op.isDivision = true) :
    ∃ x, g.shape? n = some x ∧ y = { x with operands := x.operands.map s.standIns.resolve } := by
  have hlt : n < g.size := by
    by_contra hge
    rcases (hs.fresh n y (Nat.le_of_not_lt hge) hy).2 with ⟨v, hop⟩ | hop
    · simp [hop, isReplaced, Op.isDivision] at hkind
    · simp [hop, isReplaced, Op.isDivision] at hkind
  obtain ⟨x, hx⟩ := Graph.exists_node_of_lt hlt
  refine ⟨x.shape, Graph.shape?_eq hx, ?_⟩
  have hused : ¬ s.draft.graph.Removed n := by
    rintro ⟨z, hz, hop⟩
    cases hy.symm.trans hz
    simp [hop, isReplaced, Op.isDivision] at hkind
  exact Option.some.inj (hy.symm.trans (hs.shape (Graph.shape?_eq hx) hused))

theorem Renames.self_of_kind (hs : Renames g r done s) {n : NodeId} {x : Shape}
    (hx : g.shape? n = some x) (hkind : isReplaced x.op = false) : s.standIns.resolve n = n := by
  by_contra hne
  obtain ⟨d, a, hdue, -⟩ := hs.due n hne
  rw [hdue.kind hx] at hkind
  cases hkind

theorem Renames.extend (hs : Renames g r done s) (n : NodeId) : Renames g r (done ++ [n]) s where
  mirrored := hs.mirrored
  size_le := hs.size_le
  slot := hs.slot
  fresh := hs.fresh
  constant := hs.constant
  self := hs.self
  idem := hs.idem
  due := hs.due
  source m hm := (hs.source m hm).imp_right fun ⟨t, ht, hq⟩ => ⟨t, List.mem_append_left _ ht, hq⟩
  gone m x hx hop hm := (hs.gone m x hx hop hm).imp_right
    (.imp_right fun ⟨hd, hq⟩ => ⟨List.mem_append_left _ hd, hq⟩)

theorem Renames.made_of_constant (hs : Renames g r done s) {c : NodeId} {v : Literal}
    (hc : s.draft.graph.IsConstant c v) : Made g c := by
  obtain ⟨y, hy, hop, hblock⟩ := hc
  by_cases hlt : c < g.size
  · obtain ⟨x, hx⟩ := Graph.exists_node_of_lt hlt
    obtain ⟨z, hz, hkeep, -⟩ := hs.slot c _ (Graph.shape?_eq hx)
    cases hy.symm.trans hz
    refine .inr (.inl ⟨v, _, Graph.shape?_eq hx, ?_, hkeep.block.symm.trans hblock⟩)
    exact (hkeep.op.resolve_right (by simp [hop])).symm.trans hop
  · exact .inl (Nat.le_of_not_lt hlt)

/-! ### Exchanging -/

/-- Constants and jumps are not exchanged. -/
theorem Renames.ne_of_firm (hs : Renames g r done s) {n m : NodeId} {x z : Shape}
    (hx : g.shape? n = some x)
    (hkind : isReplaced x.op = true ∨ x.op.isDivision = true ∨ x.op = .cond)
    (hz : s.draft.graph.shape? m = some z) (hop : (∃ v, z.op = .const v) ∨ z.op = .jump) :
    m ≠ n := by
  rintro rfl
  obtain ⟨w, hw, hkeep, -⟩ := hs.slot m x hx
  cases hz.symm.trans hw
  have hxop : z.op = x.op :=
    hkeep.op.resolve_right (by rcases hop with ⟨v, hop⟩ | hop <;> simp [hop])
  rw [hxop] at hop
  rcases hop with ⟨v, hop⟩ | hop <;> simp [hop, isReplaced, Op.isDivision] at hkind

section contraction

variable {n₀ : NodeId} {x : Shape} {f : NodeId → NodeId}

/-- What a node that stands for itself is moved to stands for itself and is not moved again. -/
theorem resolve_move (hc : Contracts s.draft.graph s'.draft.graph (· = n₀) f)
    (hstay : s.standIns.resolve (f n₀) = f n₀) {m : NodeId} (hm : s.standIns.resolve m = m) :
    s.standIns.resolve (f m) = f m ∧ f (f m) = f m := by
  by_cases hmn : m = n₀
  · subst hmn
    refine ⟨hstay, ?_⟩
    by_cases hfm : f m = m
    · rw [hfm, hfm]
    · exact hc.stays _ hfm
  · rw [hc.stays m hmn]
    exact ⟨hm, hc.stays m hmn⟩

/-- What is left has its operands renamed as the stand-ins now say. -/
theorem Renames.slot_contract (hs : Renames g r done s)
    (hc : Contracts s.draft.graph s'.draft.graph (· = n₀) f)
    (hresolve : ∀ n, s'.standIns.resolve n = f (s.standIns.resolve n)) {n : NodeId} {z : Shape}
    (hz : g.shape? n = some z) : ∃ y, s'.draft.graph.shape? n = some y ∧ z.Keeps y ∧
      (y.op = .retired ∨ y.operands = z.operands.map s'.standIns.resolve) := by
  obtain ⟨w, hw, hkeep, hops⟩ := hs.slot n z hz
  by_cases hn : n = n₀
  · exact ⟨w.retire, by rw [hc.retires n hn, hw]; rfl, ⟨.inr rfl, hkeep.mode, hkeep.block⟩,
      .inl rfl⟩
  · refine ⟨_, hc.shape hn hw, ⟨hkeep.op, hkeep.mode, hkeep.block⟩, hops.imp_right fun hops => ?_⟩
    rw [hops, List.map_map]
    exact List.map_congr_left fun o _ => (hresolve o).symm

/-- The retired node is moved as is due, and what was moved before goes along with what it was moved
to. -/
theorem Renames.due_contract (hg : Ground g r) (hs : Renames g r done s)
    (hc : Contracts s.draft.graph s'.draft.graph (· = n₀) f)
    (hresolve : ∀ n, s'.standIns.resolve n = f (s.standIns.resolve n)) (hx : g.shape? n₀ = some x)
    (hkind : isReplaced x.op = true ∨ x.op.isDivision = true ∨ x.op = .cond)
    (hdue : f n₀ ≠ n₀ →
      ∃ d a, Due g r d n₀ a ∧ a.Done g s'.draft.graph s'.standIns.resolve n₀)
    {n : NodeId} (hn : s'.standIns.resolve n ≠ n) :
    ∃ d a, Due g r d n a ∧ a.Done g s'.draft.graph s'.standIns.resolve n := by
  by_cases hid : s.standIns.resolve n = n
  · rw [hresolve, hid] at hn
    obtain rfl : n = n₀ := by
      by_contra hne
      exact hn (hc.stays n hne)
    exact hdue hn
  · have hbad : Anchor.bad ≠ n₀ := by
      rintro rfl
      obtain ⟨z, hz, hop⟩ := hg.bad
      cases hx.symm.trans hz
      simp [hop, isReplaced, Op.isDivision] at hkind
    obtain ⟨d, a, hdue, hdone⟩ := hs.due n hid
    refine ⟨d, a, hdue, hdone.step (fun m hm => ?_)
      (fun z hz hop => ⟨?_, hc.shape (hs.ne_of_firm hx hkind hz hop) hz⟩) fun hb => ?_⟩
    · rw [hresolve, hresolve, hm]
    · rw [hresolve, hc.stays _ (hs.ne_of_firm hx hkind hz hop)]
    · rw [hresolve, hb, hc.stays _ hbad]

/-- What nodes are moved to has a source, if that of the retired node has one. -/
theorem Renames.source_contract (hs : Renames g r done s)
    (hc : Contracts s.draft.graph s'.draft.graph (· = n₀) f)
    (hresolve : ∀ n, s'.standIns.resolve n = f (s.standIns.resolve n))
    (hsource : f n₀ ≠ n₀ → Sourced g r done (f n₀)) {n : NodeId}
    (hn : s'.standIns.resolve n ≠ n) : Sourced g r done (s'.standIns.resolve n) := by
  rw [hresolve] at hn ⊢
  by_cases hto : s.standIns.resolve n = n₀ ∧ f n₀ ≠ n₀
  · rw [hto.1]
    exact hsource hto.2
  · have hfixed : f (s.standIns.resolve n) = s.standIns.resolve n := by
      by_cases hn₀ : s.standIns.resolve n = n₀
      · rw [hn₀]
        exact not_not.mp fun hne => hto ⟨hn₀, hne⟩
      · exact hc.stays _ hn₀
    rw [hfixed] at hn ⊢
    exact hs.source n hn

/-- What is gone was moved, or may go without being moved. -/
theorem Renames.gone_contract (hs : Renames g r done s)
    (hc : Contracts s.draft.graph s'.draft.graph (· = n₀) f)
    (hresolve : ∀ n, s'.standIns.resolve n = f (s.standIns.resolve n)) (hx : g.shape? n₀ = some x)
    (hself : s.standIns.resolve n₀ = n₀) (hstay : s.standIns.resolve (f n₀) = f n₀)
    (hgone : f n₀ ≠ n₀ ∨ x.op = .cond ∨ n₀ ∈ done ∧ ∃ v, Quotient g r n₀ v)
    {n : NodeId} {z : Shape} (hz : g.shape? n = some z) (hop : z.op ≠ .retired)
    (hn : s'.draft.graph.Removed n) :
    s'.standIns.resolve n ≠ n ∨ z.op = .cond ∨ n ∈ done ∧ ∃ v, Quotient g r n v := by
  by_cases hne : n = n₀
  · subst hne
    cases hx.symm.trans hz
    rw [hresolve, hself]
    exact hgone
  · refine (hs.gone n z hz hop (hc.removed_before hne hn)).imp_left fun hmoved hid => hmoved ?_
    rw [hresolve] at hid
    have hfixed := (resolve_move hc hstay (hs.idem n)).1
    rwa [hid] at hfixed

/-- A node is retired and its users are moved on. This keeps the invariant, if the stand-ins follow,
the move is due, and what the users are moved to has a source. -/
theorem Renames.contract (hg : Ground g r) (hs : Renames g r done s)
    (hc : Contracts s.draft.graph s'.draft.graph (· = n₀) f)
    (hsize : s'.draft.graph.size = s.draft.graph.size) (hconstants : s'.constants = s.constants)
    (hresolve : ∀ n, s'.standIns.resolve n = f (s.standIns.resolve n))
    (hx : g.shape? n₀ = some x)
    (hkind : isReplaced x.op = true ∨ x.op.isDivision = true ∨ x.op = .cond)
    (hself : s.standIns.resolve n₀ = n₀) (hstay : s.standIns.resolve (f n₀) = f n₀)
    (hdue : f n₀ ≠ n₀ →
      ∃ d a, Due g r d n₀ a ∧ a.Done g s'.draft.graph s'.standIns.resolve n₀)
    (hsource : f n₀ ≠ n₀ → Sourced g r done (f n₀))
    (hgone : f n₀ ≠ n₀ ∨ x.op = .cond ∨ n₀ ∈ done ∧ ∃ v, Quotient g r n₀ v) :
    Renames g r done s' where
  mirrored := hc.mirrored
  size_le := hsize ▸ hs.size_le
  slot _ _ hz := hs.slot_contract hc hresolve hz
  fresh n z hn hz := by
    have hne : n ≠ n₀ := by
      rintro rfl
      exact absurd (Graph.lt_size_of_shape? hx) (Nat.not_lt_of_le hn)
    rw [hc.moves n hne] at hz
    obtain ⟨w, hw, rfl⟩ := Option.map_eq_some_iff.mp hz
    obtain ⟨hops, hop⟩ := hs.fresh n w hn hw
    exact ⟨by rw [hops]; rfl, hop⟩
  constant v n hmem := by
    have hconst := hs.constant v n (hconstants ▸ hmem)
    obtain ⟨z, hz, hop, -⟩ := id hconst
    exact hc.isConstant (hs.ne_of_firm hx hkind hz (.inl ⟨v, hop⟩)) hconst
  self n hn := by
    have hne : n ≠ n₀ := by
      rintro rfl
      obtain ⟨w, hw, -⟩ := hs.slot n x hx
      exact hn ⟨_, by rw [hc.retires n rfl, hw]; rfl, rfl⟩
    rw [hresolve, hs.self n fun hold => hn (hc.removed hold), hc.stays n hne]
  idem n := by
    obtain ⟨hfixed, hidem⟩ := resolve_move hc hstay (hs.idem n)
    rw [hresolve n, hresolve, hfixed, hidem]
  due _ hn := hs.due_contract hg hc hresolve hx hkind hdue hn
  source _ hn := hs.source_contract hc hresolve hsource hn
  gone _ _ hz hop hn := hs.gone_contract hc hresolve hx hself hstay hgone hz hop hn

end contraction

/-- An exchange keeps the invariant, if it is due and what comes in the place of the old node has a
source. -/
theorem Renames.replace (hg : Ground g r) (hs : Renames g r done s) {old new : NodeId} {y : Shape}
    (hrep : replace s old new = .ok s') (hy : s.draft.graph.shape? old = some y)
    (hkind : isReplaced y.op = true) (hne : old ≠ s.standIns.resolve new)
    (hdue : ∃ d a, Due g r d old a ∧ ∀ ρ : NodeId → NodeId, ρ old = s.standIns.resolve new →
      (∀ o, s.standIns.resolve o = s.standIns.resolve new → ρ o = s.standIns.resolve new) →
      a.Done g s.draft.graph ρ old)
    (hsource : Sourced g r done (s.standIns.resolve new)) :
    Renames g r done s' ∧ Descends s.draft.graph s'.draft.graph ∧ s'.draft.graph.Removed old ∧
      ∀ n, s'.standIns.resolve n =
        if s.standIns.resolve n = old then s.standIns.resolve new else s.standIns.resolve n := by
  obtain ⟨hex, hconstants, hstandIns⟩ := replace_eq_ok hrep
  have hstay : s.standIns.resolve (s.standIns.resolve new) = s.standIns.resolve new := hs.idem new
  generalize s.standIns.resolve new = k at *
  have hself : s.standIns.resolve old = old :=
    hs.self old (Graph.not_removed (used_of_kind hy hkind))
  have hresolve (n : NodeId) : s'.standIns.resolve n =
      if s.standIns.resolve n = old then k else s.standIns.resolve n := by
    rw [hstandIns, Renaming.resolve_replace]
  have hc := Contracts.of_exchange hs.mirrored hne hex
  obtain ⟨x, hx, hyx⟩ := hs.origin hy (.inl hkind)
  rw [hyx] at hkind
  refine ⟨hs.contract hg hc (Graph.size_exchange hs.mirrored hex) hconstants hresolve hx
    (.inl hkind) hself ?_ (fun _ => ?_) (fun _ => ?_) (.inl ?_), hc.descends,
    ⟨_, by rw [hc.retires old rfl, hy]; rfl, rfl⟩, hresolve⟩
  · rw [if_pos rfl, hstay]
  · obtain ⟨d, a, hdue, hdone⟩ := hdue
    have hk : s'.standIns.resolve old = k := by rw [hresolve, if_pos hself]
    refine ⟨d, a, hdue, (hdone s'.standIns.resolve hk fun o ho => ?_).step (fun _ h => h)
      (fun z hz _ => ⟨rfl, hc.shape ?_ hz⟩) id⟩
    · rw [hresolve, ho, if_neg (Ne.symm hne)]
    · rw [hk]
      exact Ne.symm hne
  · rwa [if_pos rfl]
  · rw [if_pos rfl]
    exact Ne.symm hne

/-! ### New nodes and removed ones -/

/-- A constant or a jump is added. -/
theorem Renames.addNode (hs : Renames g r done s) {op : Op} {mode : Mode} {block : Option NodeId}
    {n : NodeId} {graph : Graph} (hadd : s.draft.graph.addNode op mode block [] = .ok (n, graph))
    (hop : (∃ v, op = .const v) ∨ op = .jump) :
    Renames g r done { s with draft := { s.draft with graph } } := by
  have he := Extends.of_addNode hadd
  have hmirrored := hs.mirrored.addNode hadd
  refine
    { mirrored := hmirrored
      size_le := ?_
      slot := fun m x hx => ?_
      fresh := fun m y hm hy => ?_
      constant := fun v m hmem => he.isConstant (hs.constant v m hmem)
      self := fun m hm => hs.self m fun hold => hm (he.removed hold)
      idem := hs.idem
      due := fun m hm => ?_
      source := hs.source
      gone := fun m x hx hused hm => ?_ }
  · show g.size ≤ graph.size
    rw [(Graph.addNode_eq_ok hadd).2.1]
    exact Nat.le_succ_of_le hs.size_le
  · obtain ⟨y, hy, hkeep⟩ := hs.slot m x hx
    exact ⟨y, he m y hy, hkeep⟩
  · have hy : graph.shape? m = some y := hy
    by_cases hnew : m = n
    · rw [hnew, Graph.shape?_addNode_self hadd] at hy
      cases hy
      exact ⟨rfl, hop⟩
    · rw [Graph.shape?_addNode_of_ne hadd hnew] at hy
      exact hs.fresh m y hm hy
  · obtain ⟨d, a, hdue, hdone⟩ := hs.due m hm
    refine ⟨d, a, hdue, hdone.step (f := id) (fun _ h => h) (fun y hy _ => ⟨rfl, ?_⟩) id⟩
    rw [List.map_id]
    exact he _ y hy
  · obtain ⟨y, hy, hret⟩ := hm
    obtain ⟨z, hz, -⟩ := hs.slot m x hx
    have hy : graph.shape? m = some y := hy
    rw [Graph.shape?_addNode_of_ne hadd (Graph.ne_of_addNode hadd hz)] at hy
    exact hs.gone m x hx hused ⟨y, hy, hret⟩

theorem Renames.constantNode (hs : Renames g r done s) {v : Literal} {c : NodeId}
    (h : constantNode s v = .ok (c, s')) :
    Renames g r done s' ∧ s'.draft.graph.IsConstant c v ∧ s'.standIns = s.standIns ∧
      Extends s.draft.graph s'.draft.graph := by
  rcases constantNode_eq_ok h with ⟨rfl, hmem⟩ | ⟨graph, hadd, rfl⟩
  · exact ⟨hs, hs.constant v c hmem, rfl, fun n y hy => hy⟩
  · have hadded := hs.addNode hadd (.inl ⟨v, rfl⟩)
    have hconst : graph.IsConstant c v := isConstant_of_addNode hadd
    refine ⟨{ hadded with constant := fun w n hmem => ?_ }, hconst, rfl, .of_addNode hadd⟩
    rcases List.mem_cons.mp hmem with heq | hmem
    · cases heq
      exact hconst
    · exact hadded.constant w n hmem

theorem descends_of_extends {h h' : Graph} (he : Extends h h') : Descends h h' :=
  fun n y hy => ⟨y, he n y hy, .refl y⟩

/-- A node is exchanged with a constant that its fact asks for. -/
theorem Renames.replaceByConstant (hg : Ground g r) (hs : Renames g r done s) {d n c : NodeId}
    {v : Literal} {s₁ : State} {y : Shape} (hc : Substitution.constantNode s v = .ok (c, s₁))
    (hrep : Substitution.replace s₁ n c = .ok s') (hy : s.draft.graph.shape? n = some y)
    (hkind : isReplaced y.op = true) (hdue : Due g r d n (.constant v)) :
    Renames g r done s' ∧ Descends s.draft.graph s'.draft.graph ∧ s'.draft.graph.Removed n ∧
      ∀ m, s.standIns.resolve m ≠ n → s'.standIns.resolve m = s.standIns.resolve m := by
  obtain ⟨hs₁, hconst, hstandIns, he⟩ := hs.constantNode hc
  have hself : s₁.standIns.resolve c = c := hs₁.self c (Graph.not_removed hconst.inUse)
  have hne : n ≠ c := by
    rintro rfl
    obtain ⟨z, hz, hop, -⟩ := hconst
    cases (he n y hy).symm.trans hz
    rw [hop] at hkind
    cases hkind
  obtain ⟨hs', hdescends, hgone, hresolve⟩ := hs₁.replace hg hrep (he n y hy) hkind
    (by rwa [hself])
    ⟨d, _, hdue, fun ρ hρ _ => by
      show s₁.draft.graph.IsConstant (ρ n) v
      rwa [hρ, hself]⟩
    (.inl (by rw [hself]; exact hs₁.made_of_constant hconst))
  refine ⟨hs', (descends_of_extends he).trans hdescends, hgone, fun m hm => ?_⟩
  rw [hresolve, hstandIns, if_neg hm]

/-- A branch, or a division that was visited, is removed if nothing uses it. -/
theorem Renames.killUnused (hg : Ground g r) (hs : Renames g r done s) {n : NodeId} {x : Shape}
    (hx : g.shape? n = some x)
    (hkind : x.op = .cond ∨ n ∈ done ∧ ∃ v, Quotient g r n v) (h : killUnused s n = .ok s') :
    Renames g r done s' ∧ Descends s.draft.graph s'.draft.graph := by
  obtain ⟨y, hy, h⟩ := bind_eq_ok.mp h
  split at h
  next hempty =>
    obtain ⟨d, hd, h⟩ := bind_eq_ok.mp h
    cases h
    have hk := Draft.edit_eq_ok hd
    have hc := Contracts.of_kill hs.mirrored hk
    have hop : x.op.isDivision = true ∨ x.op = .cond := by
      rcases hkind with hop | ⟨-, v, -, ⟨z, hz, hdiv⟩, -⟩
      · exact .inr hop
      · cases hx.symm.trans hz
        exact .inl hdiv
    have hself : s.standIns.resolve n = n := by
      refine hs.self_of_kind hx ?_
      rcases hop with hop | hop <;> cases hk : x.op <;>
        simp [hk, Op.isDivision, isReplaced] at hop ⊢
    exact ⟨hs.contract hg hc (Graph.kill_eq_ok hk).2.1 rfl (fun _ => rfl) hx (.inr hop) hself hself
      (fun hne => absurd rfl hne) (fun hne => absurd rfl hne) (.inr hkind), hc.descends⟩
  next =>
    cases h
    exact ⟨hs, .refl _⟩

/-! ### The order of the visits -/

/-- It is the turn of the live node `n` after the nodes `done`, which are closed under what they
bind. -/
structure Turn (g : Graph) (done : List NodeId) (n : NodeId) : Prop where
  live : g.Live n
  todo : n ∉ done
  closed : ∀ a ∈ done, ∀ b, g.Binds a b → b ∈ done
  unknotted : ¬ g.Knotted

/-- A walk visits each live node in its turn. -/
theorem turn_of_walk {w : Walk} (hw : Walk.Complete g w) {n : NodeId} {rest : List NodeId}
    (hsplit : w.order = done ++ n :: rest) : Turn g done n := by
  have hnodup := hw.nodup
  rw [hsplit] at hnodup
  have htodo : n ∉ done := fun hn =>
    (List.nodup_append.mp hnodup).2.2 n hn n List.mem_cons_self rfl
  refine ⟨(hw.mem_order n).mp (by rw [hsplit]; simp), htodo, fun a ha b hb => ?_, hw.not_knotted⟩
  have hlive : g.Live a := (hw.mem_order a).mp (by rw [hsplit]; exact List.mem_append_left _ ha)
  have hbefore := (hw.binds hlive hb).2
  rw [hsplit, List.idxOf_append_of_mem ha] at hbefore
  by_contra hnot
  rw [List.idxOf_append_of_notMem hnot] at hbefore
  have := List.idxOf_lt_length_of_mem ha
  omega

theorem binds_of_operand (hg : Ground g r) {n m : NodeId} {x y : Shape} (hx : g.shape? n = some x)
    (hm : m ∈ x.operands) (hlive : g.Live m) (hy : g.shape? m = some y)
    (hop : y.op.isLoopBreaker = false) : g.Binds n m := by
  obtain ⟨z, hz, rfl⟩ := Option.map_eq_some_iff.mp hy
  exact ⟨⟨Graph.mem_inputs.mpr ⟨x, hx, .inr hm⟩, hg.describes.used m hlive⟩, z, hz, hop⟩

theorem isLoopBreaker_of_division {op : Op} (h : op.isDivision = true) :
    op.isLoopBreaker = false := by
  cases op <;> simp [Op.isDivision] at h <;> rfl

theorem isLoopBreaker_of_projection {op : Op} (h : op = .proj .memory ∨ op = .proj .result) :
    op.isLoopBreaker = false := by
  rcases h with rfl | rfl <;> rfl

theorem Ground.operand_live (hg : Ground g r) {n m : NodeId} {x : Shape} (hn : g.Live n)
    (hx : g.shape? n = some x) (hm : m ∈ x.operands) : g.Live m := by
  obtain ⟨z, hz, rfl⟩ := Option.map_eq_some_iff.mp hx
  exact hg.describes.operands_live hn hz m hm

/-- Nothing has come to stand for a division that is still to be visited. -/
theorem Turn.eq_of_resolve (hg : Ground g r) (hs : Renames g r done s) {t o : NodeId}
    (ht : Turn g done t) {x : Shape} (hx : g.shape? t = some x) (hdiv : x.op.isDivision = true)
    (ho : s.standIns.resolve o = t) : o = t := by
  by_contra hne
  have hmoved : s.standIns.resolve o ≠ o := by
    rw [ho]
    exact Ne.symm hne
  rcases hs.source o hmoved with hmade | ⟨t', ht', v, ⟨-, ⟨y, hy, -⟩, -⟩, hhead⟩
  · rw [ho] at hmade
    exact hg.not_made hx (.inr hdiv) hmade
  · -- The division that consumed it would have been visited before it.
    rw [ho, Graph.operands_eq_of_shape hy] at hhead
    exact ht.todo (ht.closed t' ht' t
      (binds_of_operand hg hy (List.mem_of_mem_head? hhead) ht.live hx
        (isLoopBreaker_of_division hdiv)))

/-- No projection of a division stands for the memory state that the division consumes. -/
theorem Turn.ne_resolve (hg : Ground g r) (hs : Renames g r done s) {t p m : NodeId}
    (ht : Turn g done t) {x y : Shape} (hx : g.shape? t = some x) (hdiv : x.op.isDivision = true)
    (hm : x.operands.head? = some m) (hy : g.shape? p = some y)
    (hop : y.op = .proj .memory ∨ y.op = .proj .result) (hmem : t ∈ y.operands) :
    p ≠ s.standIns.resolve m := by
  rintro rfl
  have hpt := binds_of_operand hg hy hmem ht.live hx (isLoopBreaker_of_division hdiv)
  have hbreaker := isLoopBreaker_of_projection hop
  by_cases hmoved : s.standIns.resolve m = m
  · -- The division and its projection would need each other.
    rw [hmoved] at hy hpt
    have hlive := hg.operand_live ht.live hx (List.mem_of_mem_head? hm)
    have htp := binds_of_operand hg hx (List.mem_of_mem_head? hm) hlive hy hbreaker
    exact ht.unknotted ⟨t, ht.live, .tail (.single htp) hpt⟩
  · rcases hs.source m hmoved with hmade | ⟨t', ht', v, ⟨hlive', ⟨z, hz, -⟩, -⟩, hhead⟩
    · exact hg.not_made hy (.inl (by rcases hop with hop | hop <;> rw [hop] <;> rfl)) hmade
    · rw [Graph.operands_eq_of_shape hz] at hhead
      have hmem' := List.mem_of_mem_head? hhead
      have hp := ht.closed t' ht' _
        (binds_of_operand hg hz hmem' (hg.operand_live hlive' hz hmem') hy hbreaker)
      exact ht.todo (ht.closed _ hp t hpt)

/-- A division is there until it is visited. -/
theorem Renames.division_left (hs : Renames g r done s) {t : NodeId} (ht : t ∉ done) {x : Shape}
    (hx : g.shape? t = some x) (hdiv : x.op.isDivision = true) : ¬ s.draft.graph.Removed t := by
  intro hgone
  have hkind (op : Op) (hop : op.isDivision = true) : op ≠ .retired ∧ op ≠ .cond ∧
      isReplaced op = false := by
    cases op <;> simp [Op.isDivision, isReplaced] at hop ⊢
  obtain ⟨hretired, hcond, hreplaced⟩ := hkind x.op hdiv
  rcases hs.gone t x hx hretired hgone with hmoved | hop | ⟨hmem, -⟩
  · exact hmoved (hs.self_of_kind hx hreplaced)
  · exact hcond hop
  · exact ht hmem

/-! ### What a visit achieves -/

/-- If `n` is an arm, it stands in a block. -/
def Housed (g : Graph) (n : NodeId) : Prop :=
  ∀ x side, g.shape? n = some x → x.op = .proj (.arm side) → x.block ≠ none

/-- What a visit of `n` leaves behind. -/
structure Handled (g : Graph) (r : Solution) (done : List NodeId) (n : NodeId) (s s' : State) :
    Prop where
  renames : Renames g r (done ++ [n]) s'
  descends : Descends s.draft.graph s'.draft.graph
  gone : ∀ m a, Due g r n m a → Housed g m → s'.draft.graph.Removed m

/-- A visit that changes nothing is right if nothing is due. -/
theorem Renames.idle (hs : Renames g r done s) {n : NodeId}
    (h : ∀ m a, Due g r n m a → Housed g m → s.draft.graph.Removed m) :
    Handled g r done n s s :=
  ⟨hs.extend n, .refl _, h⟩

/-- Facts that ask for something are about a value, which they concern itself, about a division,
which has its projections concerned, or about the branch of the arm that they concern. -/
theorem Due.fact {d n : NodeId} {a : Replacement} (h : Due g r d n a) {x : Shape}
    (hx : g.shape? d = some x) :
    (x.op.isFolded = true ∧ n = d ∧ x.mode.isFoldable = true ∧ ∃ v, r.constant? d = some v) ∨
    (x.op.isDivision = true ∧ (∃ v, Quotient g r d v) ∧ ∃ y, g.shape? n = some y ∧
      (y.op = .proj .memory ∨ y.op = .proj .result) ∧ d ∈ y.operands) ∨
    ∃ side, x.op = .proj (.arm side) ∧ n = d ∧
      ∃ t v, x.operands.head? = some t ∧ r.constant? t = some v ∧ v.toBool? ≠ none := by
  have hdivision {v : Literal} (hq : Quotient g r d v) : x.op.isDivision = true := by
    obtain ⟨-, ⟨y, hy, hdiv⟩, -⟩ := hq
    cases hx.symm.trans hy
    exact hdiv
  cases h with
  | value _ hx' hop hmode hv =>
    cases hx.symm.trans hx'
    exact .inl ⟨hop, rfl, hmode, _, hv⟩
  | state hq _ hy hop hmem => exact .inr (.inl ⟨hdivision hq, ⟨_, hq⟩, _, hy, .inl hop, hmem⟩)
  | result hq hy hop hmem => exact .inr (.inl ⟨hdivision hq, ⟨_, hq⟩, _, hy, .inr hop, hmem⟩)
  | chosen _ hx' hop ht hv hside =>
    cases hx.symm.trans hx'
    exact .inr (.inr ⟨_, hop, rfl, _, _, ht, hv, by simp [hside]⟩)
  | dead _ hx' hop ht hv hside =>
    cases hx.symm.trans hx'
    exact .inr (.inr ⟨_, hop, rfl, _, _, ht, hv, by simp [hside]⟩)

theorem Due.of_folded {n m : NodeId} {a : Replacement} (h : Due g r n m a) {x : Shape}
    (hx : g.shape? n = some x) (hop : x.op.isFolded = true) :
    m = n ∧ x.mode.isFoldable = true ∧ ∃ v, r.constant? n = some v := by
  rcases h.fact hx with ⟨-, hfact⟩ | ⟨hdiv, -⟩ | ⟨side, harm, -⟩
  · exact hfact
  · cases hk : x.op <;> simp [hk, Op.isFolded, Op.isDivision] at hop hdiv
  · rw [harm] at hop
    cases hop

theorem Due.of_division {t p : NodeId} {a : Replacement} (h : Due g r t p a) {x : Shape}
    (hx : g.shape? t = some x) (hdiv : x.op.isDivision = true) :
    (∃ v, Quotient g r t v) ∧ ∃ y, g.shape? p = some y ∧
      (y.op = .proj .memory ∨ y.op = .proj .result) ∧ t ∈ y.operands := by
  rcases h.fact hx with ⟨hop, -⟩ | ⟨-, hfact⟩ | ⟨side, harm, -⟩
  · cases hk : x.op <;> simp [hk, Op.isFolded, Op.isDivision] at hop hdiv
  · exact hfact
  · rw [harm] at hdiv
    cases hdiv

theorem Due.of_arm {n m : NodeId} {a : Replacement} (h : Due g r n m a) {x : Shape} {side : Bool}
    (hx : g.shape? n = some x) (harm : x.op = .proj (.arm side)) :
    m = n ∧ ∃ t v, x.operands.head? = some t ∧ r.constant? t = some v ∧ v.toBool? ≠ none := by
  rcases h.fact hx with ⟨hop, -⟩ | ⟨hdiv, -⟩ | ⟨-, -, hfact⟩
  · rw [harm] at hop
    cases hop
  · rw [harm] at hdiv
    cases hdiv
  · exact hfact

/-- A value whose fact is a constant is exchanged with it. -/
theorem Renames.fold (hg : Ground g r) (hs : Renames g r done s) {pass : String} {n : NodeId}
    {x : Node} (hn : g.Live n) (h : fold r pass s n x = .ok s')
    (hx : s.draft.graph.nodes[n]? = some x) (hkind : x.op.isFolded = true) :
    Handled g r done n s s' := by
  have hshape := Graph.shape?_eq hx
  have hreplaced : isReplaced x.shape.op = true := by
    show isReplaced x.op = true
    cases hop : x.op <;> simp [hop, Op.isFolded, isReplaced] at hkind ⊢
  obtain ⟨z, hz, hxz⟩ := hs.origin hshape (.inl hreplaced)
  have hop : x.op = z.op := congrArg Shape.op hxz
  have hmode : x.mode = z.mode := congrArg Shape.mode hxz
  rw [hop] at hkind
  unfold Substitution.fold at h
  split at h
  next hfoldable =>
    split at h
    next hnone =>
      cases h
      refine hs.idle fun m a hdue _ => ?_
      obtain ⟨-, -, v, hv⟩ := hdue.of_folded hz hkind
      rw [hnone] at hv
      cases hv
    next v hv =>
      obtain ⟨⟨c, s₁⟩, hc, h⟩ := bind_eq_ok.mp h
      obtain ⟨s₂, hrep, h⟩ := bind_eq_ok.mp h
      cases h
      obtain ⟨hs₂, hdescends, hgone, -⟩ := (hs.extend n).replaceByConstant hg hc hrep hshape
        hreplaced (.value hn hz hkind (hmode ▸ hfoldable) hv)
      refine ⟨{ hs₂ with }, hdescends, fun m a hdue _ => ?_⟩
      obtain ⟨rfl, -⟩ := hdue.of_folded hz hkind
      exact hgone
  next hfoldable =>
    cases h
    refine hs.idle fun m a hdue _ => ?_
    obtain ⟨-, hfoldable', -⟩ := hdue.of_folded hz hkind
    exact absurd (hmode ▸ hfoldable') hfoldable

/-! ### Divisions -/

/-- One user of a division with a constant result is replaced, when `mem` stands for the memory
state `m` that the division consumed. -/
theorem Renames.bypass (hg : Ground g r) (hs : Renames g r done s) {t m mem p : NodeId}
    {v : Literal} (h : bypass v mem s p = .ok s') (ht : t ∈ done) (hq : Quotient g r t v)
    (hhead : (g.operands t).head? = some m) (hm : s.standIns.resolve m = mem)
    (hhangs : ∀ y, g.shape? p = some y → y.op = .proj .memory ∨ y.op = .proj .result →
      ¬ s.draft.graph.Removed p → t ∈ y.operands ∧ p ≠ mem) :
    Renames g r done s' ∧ Descends s.draft.graph s'.draft.graph ∧
      s'.standIns.resolve m = mem ∧
      ∀ y, g.shape? p = some y → y.op = .proj .memory ∨ y.op = .proj .result →
        s'.draft.graph.Removed p := by
  obtain ⟨x, hx, h⟩ := bind_eq_ok.mp h
  have hx := Graph.node_eq_ok hx
  have hshape := Graph.shape?_eq hx
  have hself : s.standIns.resolve mem = mem := hm ▸ hs.idem m
  split at h
  next hop =>
    have hkind : isReplaced x.shape.op = true := by simp [Node.shape, hop, isReplaced]
    obtain ⟨z, hz, hxz⟩ := hs.origin hshape (.inl hkind)
    have hzop : z.op = .proj .memory := (congrArg Shape.op hxz).symm.trans hop
    obtain ⟨hmem, hne⟩ := hhangs z hz (.inl hzop) (Graph.not_removed (used_of_kind hshape hkind))
    obtain ⟨hs', hdescends, hgone, hresolve⟩ := hs.replace hg h hshape hkind (by rwa [hself])
      ⟨t, .sameAs m, .state hq hhead hz hzop hmem, fun ρ hρ hsame => by
        show ρ p = ρ m
        rw [hρ, hsame m (by rw [hm, hself])]⟩ (by
      rw [hself]
      by_cases hmoved : s.standIns.resolve m = m
      · exact .inr ⟨t, ht, v, hq, by rw [hhead, ← hm, hmoved]⟩
      · exact hm ▸ hs.source m hmoved)
    refine ⟨hs', hdescends, ?_, fun _ _ _ => hgone⟩
    rw [hresolve, hm, hself, ite_self]
  next hop =>
    have hkind : isReplaced x.shape.op = true := by simp [Node.shape, hop, isReplaced]
    obtain ⟨z, hz, hxz⟩ := hs.origin hshape (.inl hkind)
    have hzop : z.op = .proj .result := (congrArg Shape.op hxz).symm.trans hop
    have hmode : x.mode = z.mode := congrArg Shape.mode hxz
    obtain ⟨hmem, hne⟩ := hhangs z hz (.inr hzop) (Graph.not_removed (used_of_kind hshape hkind))
    obtain ⟨⟨c, s₁⟩, hc, h⟩ := bind_eq_ok.mp h
    rw [hmode] at hc
    obtain ⟨hs', hdescends, hgone, hkeep⟩ := hs.replaceByConstant hg hc h hshape hkind
      (.result hq hz hzop hmem)
    refine ⟨hs', hdescends, ?_, fun _ _ _ => hgone⟩
    rw [hkeep m (by rw [hm]; exact Ne.symm hne), hm]
  next hmemory hresult =>
    cases h
    refine ⟨hs, .refl _, hm, fun y hy hop => ?_⟩
    by_contra hleft
    have hxop : x.op = y.op :=
      congrArg Shape.op (Option.some.inj (hshape.symm.trans (hs.shape hy hleft)))
    rcases hop with hop | hop
    · exact hmemory (hxop.trans hop)
    · exact hresult (hxop.trans hop)

/-- A division with a constant result is taken out of the memory chain. -/
theorem Renames.splice (hg : Ground g r) (hs : Renames g r done s) {pass : String} {t : NodeId}
    {x : Node} (ht : Turn g done t) (h : splice r pass s t x = .ok s')
    (hx : s.draft.graph.nodes[t]? = some x) (hdiv : x.op.isDivision = true) :
    Handled g r done t s s' := by
  obtain ⟨z, hz, hxz⟩ := hs.origin (Graph.shape?_eq hx) (.inr hdiv)
  have hzdiv : z.op.isDivision = true := congrArg Shape.op hxz ▸ hdiv
  have hoperands : x.operands = z.operands.map s.standIns.resolve := congrArg Shape.operands hxz
  have hleft := hs.division_left ht.todo hz hzdiv
  unfold Substitution.splice at h
  split at h
  next v mem hv hhead =>
    obtain ⟨s₁, hloop, h⟩ := bind_eq_ok.mp h
    obtain ⟨s₂, hkill, h⟩ := bind_eq_ok.mp h
    cases h
    obtain ⟨m, hm, hmem⟩ : ∃ m, z.operands.head? = some m ∧ s.standIns.resolve m = mem := by
      rw [hoperands, List.head?_map] at hhead
      exact Option.map_eq_some_iff.mp hhead
    have hq : Quotient g r t v := ⟨ht.live, ⟨z, hz, hzdiv⟩, hv⟩
    have htail : t ∈ done ++ [t] := by simp
    -- A projection that uses the division now has always been one of its projections.
    have hhangs {p : NodeId} {y : Shape} (hp : p ∈ x.users) (hy : g.shape? p = some y)
        (hop : y.op = .proj .memory ∨ y.op = .proj .result) (hpleft : ¬ s.draft.graph.Removed p) :
        t ∈ y.operands ∧ p ≠ mem := by
      have huse : t ∈ s.draft.graph.operands p := by
        rw [← Graph.users_eq hx] at hp
        exact hs.mirrored.mem_users.mp hp
      rw [Graph.operands_eq_of_shape (hs.shape hy hpleft)] at huse
      obtain ⟨o, ho, heq⟩ := List.mem_map.mp huse
      obtain rfl := ht.eq_of_resolve hg hs hz hzdiv heq
      exact ⟨ho, hmem ▸ ht.ne_resolve hg hs hz hzdiv hm hy hop ho⟩
    have hend := foldlM_eq_ok (I := fun seen u => Renames g r (done ++ [t]) u ∧
        Descends s.draft.graph u.draft.graph ∧ u.standIns.resolve m = mem ∧
        ∀ p ∈ seen, ∀ y, g.shape? p = some y → y.op = .proj .memory ∨ y.op = .proj .result →
          u.draft.graph.Removed p) hloop
      ⟨hs.extend t, .refl _, hmem, by simp⟩ fun seen p rest u u' hsplit hu hturn => by
        obtain ⟨hu, hdescends, hresolved, hseen⟩ := hu
        have hp : p ∈ x.users := by
          rw [hsplit]
          simp
        obtain ⟨hu', hstep, hresolved', hgone⟩ := hu.bypass hg hturn htail hq
          (by rwa [Graph.operands_eq_of_shape hz]) hresolved fun y hy hop hpleft =>
            hhangs hp hy hop fun hold => hpleft (hdescends.removed hold)
        refine ⟨hu', hdescends.trans hstep, hresolved', fun q hq y hy hop => ?_⟩
        rcases List.mem_append.mp hq with hq | hq
        · exact hstep.removed (hseen q hq y hy hop)
        · obtain rfl := List.mem_singleton.mp hq
          exact hgone y hy hop
    obtain ⟨hs₁, hdescends, -, hseen⟩ := hend
    obtain ⟨hs₂, hdescends'⟩ := hs₁.killUnused hg hz (.inr ⟨htail, v, hq⟩) hkill
    refine ⟨{ hs₂ with }, hdescends.trans hdescends', fun p a hdue _ => ?_⟩
    obtain ⟨-, y, hy, hop, hmem'⟩ := hdue.of_division hz hzdiv
    by_cases hpleft : s.draft.graph.Removed p
    · exact (hdescends.trans hdescends').removed hpleft
    · refine hdescends'.removed (hseen p ?_ y hy hop)
      rw [← Graph.users_eq hx]
      refine hs.mirrored.mem_users.mpr ?_
      rw [Graph.operands_eq_of_shape (hs.shape hy hpleft)]
      exact List.mem_map.mpr ⟨t, hmem', hs.self t hleft⟩
  next hnone =>
    cases h
    refine hs.idle fun p a hdue _ => ?_
    obtain ⟨⟨v, hq⟩, -⟩ := hdue.of_division hz hzdiv
    obtain ⟨m, hm⟩ := exists_head_of_quotient hg.describes hq
    rw [Graph.operands_eq_of_shape hz] at hm
    exact absurd (by rw [hoperands, List.head?_map, hm]; rfl) (hnone v _ hq.2.2)

/-! ### Branches -/

/-- The arm that is always chosen becomes a jump. -/
theorem Renames.replaceByJump (hg : Ground g r) (hs : Renames g r done s) {n j t : NodeId}
    {y z : Shape} {side : Bool} {v : Literal} {graph : Graph} (hn : g.Live n)
    (hy : s.draft.graph.shape? n = some y) (hkind : isReplaced y.op = true)
    (hz : g.shape? n = some z) (hzop : z.op = .proj (.arm side))
    (ht : z.operands.head? = some t) (hv : r.constant? t = some v)
    (hbool : v.toBool? = some side)
    (hadd : s.draft.graph.addNode .jump .control z.block [] = .ok (j, graph))
    (hrep : Substitution.replace { s with draft := { s.draft with graph } } n j = .ok s') :
    Renames g r done s' ∧ Descends s.draft.graph s'.draft.graph ∧ s'.draft.graph.Removed n := by
  have hs₀ := hs.addNode hadd (.inr rfl)
  have he := Extends.of_addNode hadd
  have hj := Graph.shape?_addNode_self hadd
  have hsize : g.size ≤ j := (Graph.addNode_eq_ok hadd).1 ▸ hs.size_le
  have hself : s.standIns.resolve j = j :=
    hs₀.self j (Graph.not_removed (Graph.isRetired_eq_false_iff.mpr ⟨_, hj, by simp⟩))
  have hne : n ≠ j := Graph.ne_of_addNode hadd hy
  obtain ⟨hs₁, hdescends, hgone, -⟩ := hs₀.replace hg hrep (he n _ hy) hkind
    (show n ≠ s.standIns.resolve j by rwa [hself])
    ⟨n, _, .chosen hn hz hzop ht hv hbool, fun ρ hρ _ => by
      have hρ : ρ n = j := hρ.trans hself
      show g.size ≤ ρ n ∧ graph.shape? (ρ n) = _
      rw [hρ]
      exact ⟨hsize, hj⟩⟩
    (.inl (show Made g (s.standIns.resolve j) by rw [hself]; exact .inl hsize))
  exact ⟨hs₁, (descends_of_extends he).trans hdescends, hgone⟩

/-- The arm that is never chosen becomes dead control. -/
theorem Renames.replaceByBad (hg : Ground g r) (hs : Renames g r done s) {n t : NodeId}
    {y z : Shape} {side : Bool} {v : Literal} (hn : g.Live n)
    (hy : s.draft.graph.shape? n = some y) (hkind : isReplaced y.op = true)
    (hz : g.shape? n = some z) (hzop : z.op = .proj (.arm side))
    (ht : z.operands.head? = some t) (hv : r.constant? t = some v)
    (hbool : v.toBool? = some (!side))
    (hrep : Substitution.replace s n Anchor.bad = .ok s') :
    Renames g r done s' ∧ Descends s.draft.graph s'.draft.graph ∧ s'.draft.graph.Removed n := by
  obtain ⟨w, hw, hwbad⟩ := hg.bad
  have hself : s.standIns.resolve Anchor.bad = Anchor.bad :=
    hs.self_of_kind hw (by rw [hwbad]; rfl)
  have hne : n ≠ Anchor.bad := by
    rintro rfl
    cases hz.symm.trans hw
    cases hzop.symm.trans hwbad
  obtain ⟨hs₁, hdescends, hgone, -⟩ := hs.replace hg hrep hy hkind (by rwa [hself])
    ⟨n, _, .dead hn hz hzop ht hv hbool, fun ρ hρ _ => hρ.trans hself⟩
    (.inl (by rw [hself]; exact .inr (.inr rfl)))
  exact ⟨hs₁, hdescends, hgone⟩

/-- An arm of a branch on a constant becomes a jump or dead control. -/
theorem Renames.foldArm (hg : Ground g r) (hs : Renames g r done s) {pass : String} {n : NodeId}
    {x : Node} {side : Bool} (hn : g.Live n) (h : foldArm r pass s n x side = .ok s')
    (hx : s.draft.graph.nodes[n]? = some x) (hop : x.op = .proj (.arm side)) :
    Handled g r done n s s' := by
  have hshape := Graph.shape?_eq hx
  have hkind : isReplaced x.shape.op = true := by simp [Node.shape, hop, isReplaced]
  obtain ⟨z, hz, hxz⟩ := hs.origin hshape (.inl hkind)
  have hzop : z.op = .proj (.arm side) := (congrArg Shape.op hxz).symm.trans hop
  have hblock : x.block = z.block := congrArg Shape.block hxz
  -- The arm still hangs off its branch.
  obtain ⟨t, c, ht, hc, hcond⟩ := hg.arm n z side hn hz hzop
  have hhead : x.operands.head? = some t := by
    rw [show x.operands = z.operands.map s.standIns.resolve from congrArg Shape.operands hxz,
      List.head?_map, ht, Option.map_some, hs.self_of_kind hc (by rw [hcond]; rfl)]
  have hfinish {s₁ : State} (hkill : Substitution.killUnused s₁ t = .ok s')
      (hs₁ : Renames g r (done ++ [n]) s₁) (hdescends : Descends s.draft.graph s₁.draft.graph)
      (hgone : s₁.draft.graph.Removed n) : Handled g r done n s s' := by
    obtain ⟨hs₂, hdescends'⟩ := hs₁.killUnused hg hc (.inl hcond) hkill
    refine ⟨hs₂, hdescends.trans hdescends', fun m a hdue _ => hdescends'.removed ?_⟩
    obtain ⟨rfl, -⟩ := hdue.of_arm hz hzop
    exact hgone
  have hs := hs.extend n
  unfold Substitution.foldArm at h
  rw [hhead] at h
  dsimp only at h
  split at h
  next selected b hsel hxb =>
    obtain ⟨v, hv, hbool⟩ := Option.bind_eq_some_iff.mp hsel
    split at h
    next hside =>
      subst hside
      obtain ⟨⟨j, graph⟩, hadd, h⟩ := bind_eq_ok.mp h
      obtain ⟨s₁, hrep, h⟩ := bind_eq_ok.mp h
      rw [← hxb, hblock] at hadd
      obtain ⟨hs₁, hdescends, hgone⟩ :=
        hs.replaceByJump hg hn hshape hkind hz hzop ht hv hbool hadd hrep
      exact hfinish h { hs₁ with } hdescends hgone
    next hside =>
      obtain ⟨s₁, hrep, h⟩ := bind_eq_ok.mp h
      have hbool : v.toBool? = some (!side) := by
        rw [hbool]
        cases selected <;> cases side <;> simp at hside ⊢
      obtain ⟨hs₁, hdescends, hgone⟩ :=
        hs.replaceByBad hg hn hshape hkind hz hzop ht hv hbool hrep
      exact hfinish h hs₁ hdescends hgone
  next hnone =>
    cases h
    refine ⟨hs, .refl _, fun m a hdue hhoused => ?_⟩
    obtain ⟨rfl, t', v, ht', hv, hbool⟩ := hdue.of_arm hz hzop
    obtain rfl := Option.some.inj (ht.symm.trans ht')
    obtain ⟨selected, hselected⟩ := Option.ne_none_iff_exists'.mp hbool
    obtain ⟨b, hb⟩ := Option.ne_none_iff_exists'.mp (hhoused z side hz hzop)
    exact absurd (hblock.trans hb) (hnone selected b (by rw [hv]; exact hselected))

/-! ### The pass -/

/-- One visit keeps the invariant and does what is due. -/
theorem Renames.visit (hg : Ground g r) (hs : Renames g r done s) {pass : String} {n : NodeId}
    (hn : Turn g done n) (h : visit r pass s n = .ok s') : Handled g r done n s s' := by
  obtain ⟨x, hx, h⟩ := bind_eq_ok.mp h
  have hx := Graph.node_eq_ok hx
  obtain ⟨z, hz, -⟩ := Graph.exists_shape (hg.describes.used n hn.live)
  by_cases hgone : s.draft.graph.Removed n
  · have hop : x.op = .retired := by
      obtain ⟨y, hy, hop⟩ := hgone
      cases (Graph.shape?_eq hx).symm.trans hy
      exact hop
    simp only [hop] at h
    cases h
    refine hs.idle fun m a hdue _ => ?_
    rcases hdue.fact hz with ⟨-, rfl, -⟩ | ⟨hdiv, -⟩ | ⟨side, -, rfl, -⟩
    · exact hgone
    · exact absurd hgone (hs.division_left hn.todo hz hdiv)
    · exact hgone
  have hop : x.op = z.op :=
    congrArg Shape.op (Option.some.inj ((Graph.shape?_eq hx).symm.trans (hs.shape hz hgone)))
  have hidle (hfolded : x.op.isFolded = false) (hdiv : x.op.isDivision = false)
      (harm : ∀ side, x.op ≠ .proj (.arm side)) : Handled g r done n s s := by
    refine hs.idle fun m a hdue _ => ?_
    rw [hop] at hfolded hdiv harm
    rcases hdue.fact hz with ⟨h, -⟩ | ⟨h, -⟩ | ⟨side, h, -⟩
    · rw [hfolded] at h
      cases h
    · rw [hdiv] at h
      cases h
    · exact absurd h (harm side)
  cases hxop : x.op with
  | proj k =>
    cases k with
    | arm side =>
      simp only [hxop] at h
      exact hs.foldArm hg hn.live h hx hxop
    | _ =>
      simp only [hxop] at h
      cases h
      exact hidle (by rw [hxop]; rfl) (by rw [hxop]; rfl) (by simp [hxop])
  | div | mod =>
    simp only [hxop] at h
    exact hs.splice hg hn h hx (by rw [hxop]; rfl)
  | phi | binary | cmp | minus | not | conv =>
    simp only [hxop] at h
    exact hs.fold hg hn.live h hx (by rw [hxop]; rfl)
  | _ =>
    simp only [hxop] at h
    cases h
    exact hidle (by rw [hxop]; rfl) (by rw [hxop]; rfl) (by simp [hxop])

/-- The pass begins with the graph it was given. -/
theorem Renames.ofDraft (hm : g.Mirrored) {d : Draft} (hd : d.graph = g) :
    Renames g r [] (.ofDraft d) := by
  subst hd
  have hself (n : NodeId) : (State.ofDraft d).standIns.resolve n = n := rfl
  refine
    { mirrored := hm
      size_le := Nat.le_refl _
      slot := fun n x hx => ⟨x, hx, .refl x, .inr ?_⟩
      fresh := fun n y hn hy => absurd (Graph.lt_size_of_shape? hy) (Nat.not_lt_of_le hn)
      constant := fun v n hmem => mem_knownConstants hmem
      self := fun n _ => hself n
      idem := fun n => hself n
      due := fun n hn => absurd (hself n) hn
      source := fun n hn => absurd (hself n) hn
      gone := fun n x hx hop hn => ?_ }
  · rw [show (State.ofDraft d).standIns.resolve = id from funext hself, List.map_id]
  · obtain ⟨y, hy, hret⟩ := hn
    cases hx.symm.trans hy
    exact absurd hret hop

/-- The pass ends with the operands renamed and with all that was due done. -/
theorem renames_of_run (hm : g.Mirrored) (hg : Ground g r) {pass : String} {d d' : Draft}
    {c : Counts} (hd : d.graph = g) (h : run r pass d = .ok c d') :
    ∃ s : State, s.draft.graph = d'.graph ∧ (∃ visited, Renames g r visited s) ∧
      ∀ d n a, Due g r d n a → Housed g n → s.draft.graph.Removed n := by
  have h := Editing.change_eq_ok h
  obtain ⟨walk, hwalk, h⟩ := bind_eq_ok.mp h
  obtain ⟨s, hloop, h⟩ := bind_eq_ok.mp h
  cases h
  have hcomplete := Walk.complete_of_run hwalk
  rw [hd] at hcomplete
  have hend := foldlM_eq_ok (I := fun visited s => Renames g r visited s ∧
      ∀ d ∈ visited, ∀ n a, Due g r d n a → Housed g n → s.draft.graph.Removed n) hloop
    ⟨.ofDraft hm hd, by simp⟩ fun visited n rest u u' hsplit hu hturn => by
      obtain ⟨hu, hgone⟩ := hu
      have hvisit := hu.visit hg (turn_of_walk hcomplete hsplit) hturn
      refine ⟨hvisit.renames, fun e he m a hdue hhoused => ?_⟩
      rcases List.mem_append.mp he with he | he
      · exact hvisit.descends.removed (hgone e he m a hdue hhoused)
      · obtain rfl := List.mem_singleton.mp he
        exact hvisit.gone m a hdue hhoused
  exact ⟨s, rfl, ⟨_, hend.1⟩, fun e n a hdue =>
    hend.2 e ((hcomplete.mem_order e).mpr hdue.live) n a hdue⟩

/-- On a graph without a knot the pass gives a result. -/
theorem exists_run {d : Draft} (hm : d.graph.Mirrored) (hsize : Anchor.bad < d.graph.size)
    {w : Walk} (hwalk : Walk.run d.graph = .ok w) (r : Solution) (pass : String) :
    ∃ c d', run r pass d = .ok c d' := by
  have hends := run_ends_of_walk (P := fun _ => False) hm hsize
    (.of_ok hwalk (Walk.complete_of_run hwalk)) r pass
  cases hrun : run r pass d with
  | ok c d' => exact ⟨c, d', rfl⟩
  | error e d' => exact (hends.fails hrun).elim

theorem Ground.of_built (hg : g.Built) (hr : g.analyze = .ok r) (harm : g.ArmsHang) :
    Ground g r := by
  have hdescribes := hg.describes hr
  refine ⟨hdescribes, ?_, harm⟩
  obtain ⟨y, hy, hkeep⟩ := hg.keeps_anchor (i := Anchor.bad) rfl
  refine ⟨y, hy, hkeep.op.resolve_right fun hop => ?_⟩
  exact Graph.not_removed (hdescribes.used _ ⟨_, by simp, .refl⟩) ⟨y, hy, hop⟩

/-- The pass gives a result, in which operands are renamed and all that was due is done. -/
theorem exists_renames (hg : g.Built) (hr : g.analyze = .ok r) (harm : g.ArmsHang)
    (pass : String) (log : EventLog) :
    ∃ c d' s, run r pass { graph := g, log } = .ok c d' ∧ s.draft.graph = d'.graph ∧
      (∃ visited, Renames g r visited s) ∧
      ∀ d n a, Due g r d n a → Housed g n → s.draft.graph.Removed n := by
  obtain ⟨w, hwalk, -⟩ := bind_eq_ok.mp hr
  obtain ⟨c, d', hrun⟩ := exists_run (d := { graph := g, log }) hg.mirrored hg.bad_lt_size hwalk r
    pass
  obtain ⟨s, hs⟩ := renames_of_run hg.mirrored (.of_built hg hr harm) rfl hrun
  exact ⟨c, d', s, hrun, hs⟩

theorem Due.housed (hplain : g.Plain) {d n : NodeId} {a : Replacement} (h : Due g r d n a) :
    Housed g n := by
  intro x side hx hop
  suffices hlive : g.Live n from hplain.placed n x hlive hx (by simp [hop])
  cases h with
  | value hn => exact hn
  | state _ _ hx' hop' =>
    cases hx.symm.trans hx'
    cases hop.symm.trans hop'
  | result _ hx' hop' =>
    cases hx.symm.trans hx'
    cases hop.symm.trans hop'
  | chosen hn => exact hn
  | dead hn => exact hn

/-- If `n` is a projection, it hangs off no more than one division with a constant result. -/
def ProjectsOnce (g : Graph) (r : Solution) (n : NodeId) : Prop :=
  ∀ x k, g.shape? n = some x → x.op = .proj k → ∀ d ∈ x.operands, ∀ d' ∈ x.operands, ∀ v v',
    Quotient g r d v → Quotient g r d' v' → d = d'

/-- No more than one replacement is due for a node. -/
theorem Due.unique {d d' n : NodeId} {a a' : Replacement} (hone : ProjectsOnce g r n)
    (h : Due g r d n a) (h' : Due g r d' n a') : a = a' := by
  cases h with
  | state hq hm hx hop hmem =>
    cases h' with
    | state hq' hm' hx' _ hmem' =>
      cases hx.symm.trans hx'
      obtain rfl := hone _ _ hx hop _ hmem _ hmem' _ _ hq hq'
      cases hm.symm.trans hm'
      rfl
    | _ => simp_all [Op.isFolded]
  | result hq hx hop hmem =>
    cases h' with
    | result hq' hx' _ hmem' =>
      cases hx.symm.trans hx'
      obtain rfl := hone _ _ hx hop _ hmem _ hmem' _ _ hq hq'
      cases hq.2.2.symm.trans hq'.2.2
      rfl
    | _ => simp_all [Op.isFolded]
  | _ => cases h' <;> simp_all [Op.isFolded]

/-- What was due for a node that is gone was done. -/
theorem Renames.done_of_due (hs : Renames g r done s) {d n : NodeId} {a : Replacement}
    (hone : ProjectsOnce g r n) (hdue : Due g r d n a) (hgone : s.draft.graph.Removed n) :
    a.Done g s.draft.graph s.standIns.resolve n := by
  obtain ⟨x, hx⟩ := hdue.exists_shape
  have hkind := hdue.kind hx
  have hused : x.op ≠ .retired := by
    intro hop
    rw [hop] at hkind
    cases hkind
  have hmoved : s.standIns.resolve n ≠ n := by
    rcases hs.gone n x hx hused hgone with hmoved | hop | ⟨-, v, -, ⟨y, hy, hdiv⟩, -⟩
    · exact hmoved
    · rw [hop] at hkind
      cases hkind
    · cases hx.symm.trans hy
      cases hop : x.op <;> simp [hop, isReplaced, Op.isDivision] at hkind hdiv
  obtain ⟨d', a', hdue', hdone⟩ := hs.due n hmoved
  rwa [hdue.unique hone hdue']

/-- Substituting the facts about a graph replaces all nodes at once: the pass gives a result, and
that is the graph with every operand renamed in one step. -/
theorem run_simultaneous {g : Graph} {r : Solution} (hg : g.Built) (hplain : g.Plain)
    (hr : g.analyze = .ok r) (pass : String) (log : EventLog) :
    ∃ c d' ρ, run r pass { graph := g, log } = .ok c d' ∧ Simultaneous g r ρ d'.graph := by
  obtain ⟨c, d', s, hrun, hgraph, ⟨visited, hs⟩, hgone⟩ :=
    exists_renames hg hr hplain.armsHang pass log
  have hgone (d n : NodeId) (a : Replacement) (hdue : Due g r d n a) :
      s.draft.graph.Removed n := hgone d n a hdue (hdue.housed hplain)
  have hone (n : NodeId) : ProjectsOnce g r n := by
    intro x k hx hop d hd d' hd' v v' _ _
    obtain ⟨t, ht⟩ := hplain.single n x k hx hop
    rw [ht, List.mem_singleton] at hd hd'
    rw [hd, hd']
  refine ⟨c, d', s.standIns.resolve, hrun, hgraph ▸ ?_⟩
  refine
    { done := fun d n a hdue => hs.done_of_due (hone n) hdue (hgone d n a hdue)
      gone := hgone
      other := fun n hnone => ?_
      idem := hs.idem
      kept := fun n x hx hleft => hs.shape hx hleft
      lost := fun n x hn hx hremoved => ?_ }
  · by_contra hmoved
    obtain ⟨d, a, hdue, -⟩ := hs.due n hmoved
    exact hnone d a hdue
  · obtain ⟨y, hy, hused⟩ := Graph.exists_shape ((hg.describes hr).used n hn)
    cases hx.symm.trans hy
    rcases hs.gone n x hx hused hremoved with hmoved | hop | ⟨-, hq⟩
    · obtain ⟨d, a, hdue, -⟩ := hs.due n hmoved
      exact .inl ⟨d, a, hdue⟩
    · exact .inr (.inl hop)
    · exact .inr (.inr hq)

/-- Whether a node stands in a block, and is a projection from one node only, from a branch if it is
an arm. -/
def checkPlain (g : Graph) (x : Node) : Bool :=
  (x.op == .block || x.block.isSome) &&
  match x.op with
  | .proj k => x.operands.length == 1 &&
    (!k.isArm || x.operands.all fun t => g.nodes[t]?.any fun y => y.op == .cond)
  | _ => true

theorem plain_of_check {g : Graph} (hcheck : g.nodes.all (checkPlain g) = true) : g.Plain := by
  have hnode {n : NodeId} {x : Shape} (hx : g.shape? n = some x) :
      ∃ y, x = y.shape ∧ checkPlain g y = true := by
    obtain ⟨y, hy, rfl⟩ := Option.map_eq_some_iff.mp hx
    exact ⟨y, rfl, Array.all_eq_true'.mp hcheck y (Array.mem_of_getElem? hy)⟩
  have hproj {n : NodeId} {x : Shape} {k : Projection} (hx : g.shape? n = some x)
      (hop : x.op = .proj k) : (∃ t, x.operands = [t]) ∧ (k.isArm = true → ∀ t ∈ x.operands,
        ∃ y, g.nodes[t]? = some y ∧ y.op = .cond) := by
    obtain ⟨y, rfl, hy⟩ := hnode hx
    have hop : y.op = .proj k := hop
    simp only [checkPlain, hop, Bool.and_eq_true, Bool.or_eq_true, Bool.not_eq_true'] at hy
    obtain ⟨-, hlength, harm⟩ := hy
    have hlength : y.operands.length = 1 := by simpa using hlength
    refine ⟨List.length_eq_one_iff.mp hlength, fun hk t ht => ?_⟩
    have hall := List.all_eq_true.mp (harm.resolve_left (by simp [hk])) t ht
    obtain ⟨c, hc, hcond⟩ := (Option.any_eq_true _ _).mp hall
    exact ⟨c, hc, by simpa using hcond⟩
  refine ⟨fun n x _ hx hop hnone => ?_, fun p x k hx hop => (hproj hx hop).1,
    fun p x side t hx hop ht => ?_⟩
  · obtain ⟨y, rfl, hy⟩ := hnode hx
    have hop : y.op ≠ .block := hop
    have hnone : y.block = none := hnone
    simp [checkPlain, hop, hnone] at hy
  · obtain ⟨c, hc, hcond⟩ := (hproj hx hop).2 rfl t ht
    exact ⟨c.shape, Graph.shape?_eq hc, hcond⟩

/-- Two divisions in a row, and one in a loop whose memory state comes around through a phi; the
branch that enters the loop is decided. -/
def dividedLoop : List Edit :=
  [.addNode (.proj .memory) .memory (some Anchor.startBlock) [Anchor.start],
    .addNode (.const (.ofInt .i32 10)) (.int .i32) (some Anchor.startBlock) [],
    .addNode (.const (.ofInt .i32 5)) (.int .i32) (some Anchor.startBlock) [],
    .addNode .div .tuple (some Anchor.startBlock) [5, 6, 7],
    .addNode (.proj .memory) .memory (some Anchor.startBlock) [8],
    .addNode (.proj .result) (.int .i32) (some Anchor.startBlock) [8],
    .addNode .mod .tuple (some Anchor.startBlock) [9, 7, 10],
    .addNode (.proj .memory) .memory (some Anchor.startBlock) [11],
    .addNode (.proj .result) (.int .i64) (some Anchor.startBlock) [11],
    .addNode (.cmp .less) .bool (some Anchor.startBlock) [10, 6],
    .addNode .cond .tuple (some Anchor.startBlock) [14],
    .addNode (.proj (.arm true)) .control (some Anchor.startBlock) [15],
    .addNode (.proj (.arm false)) .control (some Anchor.startBlock) [15],
    .addNode .block .block none [16],
    .addNode .phi .memory (some 18) [12],
    .addNode .div .tuple (some 18) [19, 6, 7],
    .addNode (.proj .memory) .memory (some 18) [20],
    .addNode .jump .control (some 18) [],
    .addOperand 18 22,
    .addOperand 19 21,
    .addNode .block .block none [17],
    .addNode .ret .control (some 23) [12, 13],
    .addOperand Anchor.endBlock 24,
    .keepAlive 19]

/-- The phi takes the state the pass began with, and itself. -/
theorem run_simultaneous_dividedLoop :
    ∃ g r c d' ρ, dividedLoop.foldlM Graph.apply (.new "f" 0) = .ok g ∧ g.Plain ∧
      g.analyze = .ok r ∧ run r "fold" { graph := g } = .ok c d' ∧
      d'.graph.operands 19 = [5, 19] ∧ d'.graph.operands 24 = [5, 27] ∧
      Simultaneous g r ρ d'.graph := by
  have hok : (do
      let g ← dividedLoop.foldlM Graph.apply (.new "f" 0)
      let r ← g.analyze
      return (g.nodes.all (checkPlain g), match run r "fold" { graph := g } with
        | .ok _ d' => (d'.graph.operands 19, d'.graph.operands 24)
        | .error _ _ => ([], []))) = Except.ok (true, [5, 19], [5, 27]) := by
    decide +kernel
  obtain ⟨g, hg, hok⟩ := bind_eq_ok.mp hok
  obtain ⟨r, hr, hok⟩ := bind_eq_ok.mp hok
  obtain ⟨hcheck, hend⟩ := Prod.mk.inj (Except.ok.inj hok)
  have hplain := plain_of_check hcheck
  obtain ⟨c, d', ρ, hrun, hρ⟩ :=
    run_simultaneous ((Graph.Built.new "f" 0).foldlM hg) hplain hr "fold" {}
  rw [hrun] at hend
  obtain ⟨hphi, hret⟩ := Prod.mk.inj hend
  exact ⟨g, r, c, d', ρ, hg, hplain, hr, hrun, hphi, hret, hρ⟩

end Substitution

end SeaOfNodes
