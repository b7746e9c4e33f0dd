import SeaOfNodes.Proofs.Ordering

/-!
A block and what folding has left of it.

Both blocks act, each in its own order. What is left acts as it did before (`Remains.same_choice`):
its operands have the values they had, and memory is what it was, since as many members have touched
it (`Remains.touching_before`). So the members that are left act one after the other without fault,
and leave the values and the memory that the whole block left (`Remains.keeps`).
-/

namespace SeaOfNodes

namespace Execution

open Image

variable {g h : Graph} {r : Solution} {s t : Schedule} {σ : NodeId → NodeId}
  {K : NodeId → List Nat} {handler : Handler} {args : List Literal} {m m' m₀ m₁ : Machine}
  {p : Position} {rest : List Position} {exit : Option NodeId} {b : NodeId} {l l' : Schedule}

/-! ### The members that act -/

/-- The members `l` of the last block of a route act, the first of them first. -/
structure Turn (g : Graph) (r : Solution) (s : Schedule) (handler : Handler) (args : List Literal)
    (p : Position) (rest : List Position) (l : Schedule) (m₀ m₁ : Machine)
    (exit : Option NodeId) : Prop where
  route : Route g r.Taken (p :: rest)
  inner : p.block ≠ Anchor.endBlock
  first : ∃ l₂, s.body p.block = l ++ l₂
  sound : Sound g r (p :: rest) m₀
  passes : Passes handler args l m₀ none m₁ exit

/-- The members `l'` of what is left of the block `b` are the members `l` of the block, but for some
that are missing or act in any case. -/
structure Aligned (s t : Schedule) (b : NodeId) (l l' : Schedule) : Prop where
  first : ∃ l₂, t.body b = l' ++ l₂
  drawn : ∀ n y, (n, y) ∈ l' → (∃ x, (n, x) ∈ l) ∨ Idle y.op
  touched : ∀ n x, (n, x) ∈ l → touches x.op = true → n ∈ l'.map Prod.fst

theorem touches_kind {op : Op} (h : touches op = true) :
    op.usesMemory = true ∧ op.isDivision = false ∧ ¬ Idle op := by
  cases op with
  | load | store | call => exact ⟨rfl, rfl, by rintro (⟨v, hop⟩ | hop | hop) <;> cases hop⟩
  | _ => cases h

theorem not_quotient {n : NodeId} {x : Node} (hx : g.nodes[n]? = some x)
    (hop : touches x.op = true) (v : Literal) : ¬ Quotient g r n v := by
  rintro ⟨-, ⟨y, hy, hdiv⟩, -⟩
  rw [Graph.shape?_eq hx] at hy
  cases hy
  have hdiv : x.op.isDivision = true := hdiv
  rw [(touches_kind hop).2.1] at hdiv
  cases hdiv

/-- Lists of which the same members touch memory have as many such members. -/
theorem touching_eq {l l' : Schedule} (hl : (l.map Prod.fst).Nodup) (hl' : (l'.map Prod.fst).Nodup)
    (hsame : ∀ n, (∃ y, (n, y) ∈ l' ∧ touches y.op = true) ↔
      ∃ x, (n, x) ∈ l ∧ touches x.op = true) : l'.touching = l.touching := by
  let ids (l : Schedule) : List NodeId := (l.filter fun e => touches e.2.op).map Prod.fst
  have hmem (l : Schedule) (n : NodeId) :
      n ∈ ids l ↔ ∃ x, (n, x) ∈ l ∧ touches x.op = true := by
    simp [ids]
  have hlength (l : Schedule) : l.touching = (ids l).length := by
    rw [Schedule.touching, List.countP_eq_length_filter, List.length_map]
  have hnodup {l : Schedule} (h : (l.map Prod.fst).Nodup) : (ids l).Nodup :=
    h.sublist (List.filter_sublist.map _)
  have hperm := (List.perm_ext_iff_of_nodup (hnodup hl') (hnodup hl)).mpr fun n => by
    rw [hmem, hmem, hsame]
  rw [hlength, hlength, hperm.length_eq]

section Turn

variable (hturn : Turn g r s handler args p rest l m₀ m₁ exit)

include hturn

theorem Turn.member (hset : Setting g r s) {n : NodeId} {x : Node} (hn : (n, x) ∈ l) :
    g.Live n ∧ g.nodes[n]? = some x ∧ x.block = some p.block ∧ x.op.isLoopBreaker = false := by
  obtain ⟨l₂, hl⟩ := hturn.first
  obtain ⟨⟨hlive, hx⟩, hb, hphi⟩ := hset.lists.mem_body.mp (hl ▸ List.mem_append_left _ hn)
  refine ⟨hlive, hx, hb, breaker_eq_false (fun hop => ?_) hphi⟩
  rw [hset.proper.block n x hlive hx hop] at hb
  cases hb

theorem Turn.nodup (hset : Setting g r s) : (l.map Prod.fst).Nodup := by
  obtain ⟨l₂, hl⟩ := hturn.first
  have hnodup := hset.lists.nodup_body (b := p.block)
  rw [hl, List.map_append] at hnodup
  exact (List.nodup_append.mp hnodup).1

/-- What a member does, and what it leaves for the end. -/
theorem Turn.at (hset : Setting g r s) {l₁ l₃ : Schedule} {n : NodeId} {x : Node}
    (hl : l = l₁ ++ (n, x) :: l₃) :
    ∃ m exit action m', Passes handler args l₁ m₀ none m exit ∧ Sound g r (p :: rest) m ∧
      choose args m n x = .ok action ∧ action.ends = false ∧
      action.perform handler n m = .ok m' ∧
      (∀ k v, Present g r p l₁ m k v → m₁.value k = some v) ∧
      ∀ v, m₁.value n = some v → action.gives handler m = some v := by
  obtain ⟨l₂, hbody⟩ := hturn.first
  have hmember (e : NodeId × Node) (he : e ∈ l) : e ∈ s.body p.block :=
    hbody ▸ List.mem_append_left _ he
  have hnodup := hturn.nodup hset
  obtain ⟨-, hx, -, hbreaker⟩ := hturn.member hset (hl ▸ List.mem_append_right _ List.mem_cons_self)
  subst hl
  obtain ⟨m, exit₁, action, m', hfirst, hchoose, hends, hperform, hlast⟩ := hturn.passes.at
  have hsound := hturn.sound.passes hset hturn.route hfirst
    fun e he => hmember e (List.mem_append_left _ he)
  rw [List.map_append, List.map_cons] at hnodup
  obtain ⟨-, hlater, hapart⟩ := List.nodup_append.mp hnodup
  have hn₃ := (List.nodup_cons.mp hlater).1
  refine ⟨m, exit₁, action, m', hfirst, hsound, hchoose, hends, hperform, fun k v hk => ?_,
    fun v hv => ?_⟩
  · -- A member that has its value already is not among those that act later.
    have hnot : k ∉ ((n, x) :: l₃).map Prod.fst := by
      intro hmem
      obtain ⟨⟨k, z⟩, hz, rfl⟩ := List.mem_map.mp hmem
      obtain ⟨⟨-, hznode⟩, hzb, hzphi⟩ :=
        hset.lists.mem_body.mp (hmember _ (List.mem_append_right _ hz))
      exact hapart k (List.mem_map_of_mem (hk.current z hznode hzb hzphi)) k hmem rfl
    rw [List.map_cons, List.mem_cons, not_or] at hnot
    rw [hlast.value_of_not_mem hnot.2, value_perform hperform, if_neg hnot.1]
    exact hk.value
  · rw [hlast.value_of_not_mem hn₃, value_perform hperform, if_pos rfl] at hv
    cases hgives : action.gives handler m with
    | some w =>
      rw [hgives] at hv
      exact hv
    | none =>
      -- Only members that give themselves a value have one.
      rw [hgives, Option.none_or] at hv
      obtain ⟨y, hy, hkind⟩ := (hsound.explained n v hv).kind
      cases hx.symm.trans hy
      rcases hkind with hkind | ⟨hphi, -⟩
      · exfalso
        have hfits := choose_fits hchoose
        cases action with
        | value | invoke => cases hgives
        | nothing =>
          rw [hfits.1] at hkind
          cases hkind
        | leave =>
          rcases hfits with hop | ⟨side, hop⟩ <;> rw [hop] at hkind <;> cases hkind
        | write =>
          rw [show x.op = .store from hfits] at hkind
          cases hkind
        | finish => cases hends
      · exact absurd hphi (ne_of_not_breaker hbreaker).2

/-- Control left through the member `n`. -/
def Left (handler : Handler) (args : List Literal) (l : Schedule) (m₀ : Machine) (n : NodeId)
    (x : Node) : Prop :=
  ∃ l₁ l₃ m exit, l = l₁ ++ (n, x) :: l₃ ∧ Passes handler args l₁ m₀ none m exit ∧
    choose args m n x = .ok .leave

theorem Turn.leaves (hset : Setting g r s) {n : NodeId} {x : Node}
    (hn : Left handler args l m₀ n x) : g.Leaves p.block n x ∧ x.op ≠ .cond := by
  obtain ⟨l₁, l₃, m, exit', hl, -, hleave⟩ := hn
  obtain ⟨hlive, hx, hb, -⟩ := hturn.member hset (hl ▸ List.mem_append_right _ List.mem_cons_self)
  rcases choose_fits hleave with hop | ⟨side, hop⟩
  · exact ⟨⟨hlive, hx, hb, .inr (by rw [hop]; rfl)⟩, by simp [hop]⟩
  · exact ⟨⟨hlive, hx, hb, .inr (by rw [hop]; rfl)⟩, by simp [hop]⟩

/-- Control left through an arm: its branch has decided for it. -/
theorem Turn.arm_decided (hset : Setting g r s) {n c : NodeId} {x z : Node} {side : Bool}
    (hn : Left handler args l m₀ n x) (hop : x.op = .proj (.arm side)) (hops : x.operands = [c])
    (hc : g.Leaves p.block c z) (hz : z.op = .cond) :
    ∃ v, m₁.value c = some v ∧ v.toBool? = some side := by
  obtain ⟨l₁, l₃, m, exit', hl, hfirst, hleave⟩ := hn
  obtain ⟨l₂, hbody⟩ := hturn.first
  obtain ⟨m', exit₁, action, -, hfirst', -, -, -, -, hkept, -⟩ := hturn.at hset hl
  obtain ⟨rfl, -⟩ := hfirst.unique hfirst'
  obtain ⟨c', v, decision, hc', hv, hdecision, heq⟩ := choose_arm hop hleave
  rw [hops] at hc'
  cases hc'
  refine ⟨v, hkept c v ⟨hc.live, hv, fun d hd => ?_, fun w hw hwb hwphi => ?_⟩, ?_⟩
  · rw [Graph.blockOf_eq hc.slot, hc.block] at hd
    cases hd
    exact fun q older hroute hq => hq ▸ List.mem_cons_self
  · have hsplit : s.body p.block = l₁ ++ (n, x) :: (l₃ ++ l₂) := by rw [hbody, hl]; simp
    obtain ⟨hnlive, hx, -⟩ := hturn.member hset (hl ▸ List.mem_append_right _ List.mem_cons_self)
    have hinput : c ∈ g.inputs n := by
      rw [Graph.inputs_eq hx, Node.inputs, hops]
      exact List.mem_append_right _ (List.mem_singleton_self c)
    cases hc.slot.symm.trans hw
    exact hset.lists.before_body hsplit ⟨hinput, hset.verified.inUse n c hnlive hinput⟩ hw hwb
      (by rw [hz]; rfl)
  · split at heq
    next hside => rw [hdecision, hside]
    next => cases heq

/-- Control leaves a block through one member only. -/
theorem Turn.left_unique (hset : Setting g r s) (hleft : g.LeftOnce p.block) {n e : NodeId}
    {x y : Node} (hn : Left handler args l m₀ n x) (he : Left handler args l m₀ e y) : n = e := by
  obtain ⟨hnleaves, hncond⟩ := hturn.leaves hset hn
  obtain ⟨heleaves, hecond⟩ := hturn.leaves hset he
  rcases hleft with ⟨e', -, -, -, hsole⟩ | ⟨c, z, arm, hc, hz, harm, hall⟩
  · rw [hsole n x hnleaves, hsole e y heleaves]
  · have harms {k : NodeId} {w : Node} (hk : Left handler args l m₀ k w)
        (hleaves : g.Leaves p.block k w) (hcond : w.op ≠ .cond) :
        ∃ side v, k = arm side ∧ m₁.value c = some v ∧ v.toBool? = some side := by
      rcases hall k w hleaves with rfl | ⟨side, rfl⟩
      · cases hleaves.slot.symm.trans hc.slot
        exact absurd hz hcond
      · obtain ⟨w', hw', hop, hops⟩ := harm side
        cases hleaves.slot.symm.trans hw'.slot
        obtain ⟨v, hv⟩ := hturn.arm_decided hset hk hop hops hc hz
        exact ⟨side, v, rfl, hv⟩
    obtain ⟨side, v, rfl, hv, hside⟩ := harms hn hnleaves hncond
    obtain ⟨side', v', rfl, hv', hside'⟩ := harms he heleaves hecond
    cases hv.symm.trans hv'
    cases hside.symm.trans hside'
    rfl

/-- Control leaves through an arm that is always chosen. -/
theorem Turn.chosen_left (hset : Setting g r s) {e : NodeId} (hchosen : Chosen g r e p.block)
    (hmem : ∀ x, g.nodes[e]? = some x → (e, x) ∈ l) : ∃ x, Left handler args l m₀ e x := by
  obtain ⟨x, side, c, v, -, hx, hop, hc, hv, hside, -⟩ := hchosen
  obtain ⟨l₁, l₃, hl⟩ := List.append_of_mem (hmem x hx)
  obtain ⟨m, exit', action, -, hfirst, hsound, hchoose, -⟩ := hturn.at hset hl
  obtain ⟨c', w, decision, hc', hw, hdecision, rfl⟩ := choose_arm hop hchoose
  rw [List.head?_eq_getElem?, hc'] at hc
  cases hc
  obtain rfl := eq_of_covers (hsound.explained _ w hw).covers (Solution.value_of_constant? hv)
  cases hside.symm.trans hdecision
  rw [if_pos rfl] at hchoose
  exact ⟨x, l₁, l₃, m, exit', hl, hfirst, hchoose⟩

theorem Turn.sound_end (hset : Setting g r s) : Sound g r (p :: rest) m₁ := by
  obtain ⟨l₂, hl⟩ := hturn.first
  exact hturn.sound.passes hset hturn.route hturn.passes fun e he => hl ▸ List.mem_append_left _ he

end Turn

/-- `v` is what `n` is worth: the value that it has, or the constant that it carries. -/
def Worth (g h : Graph) (m : Machine) (n : NodeId) (v : Literal) : Prop :=
  g.Live n ∧ m.value n = some v ∨ Carries g h n v

/-- The members `a` of what is left of the block `b` have acted, and nodes are worth what they are
in `m`, but for the members still to act. -/
structure Keeps (g h : Graph) (t : Schedule) (b : NodeId) (m : Machine)
    (state : Nat → List (BitVec 64 × Literal) × Array Effect) (a : Schedule) (m' : Machine) :
    Prop where
  values : ∀ n v, h.Live n → (n ∈ (t.body b).map Prod.fst → n ∈ a.map Prod.fst) →
    Worth g h m n v → m'.value n = some v
  size : m'.env.size = h.size
  state : m'.state = state a.touching

/-- The member `n` acts after the members `a`, and what comes of it is as it should be. -/
structure Acts (handler : Handler) (args : List Literal) (g h : Graph) (m : Machine)
    (state : Nat → List (BitVec 64 × Literal) × Array Effect) (a : Schedule) (n : NodeId) (y : Node)
    (m' : Machine) (action : Action) : Prop where
  choose : choose args m' n y = .ok action
  goesOn : action.ends = false
  gives : ∀ v, Worth g h m n v → action.gives handler m' = some v
  state : ∀ m'', action.perform handler n m' = .ok m'' → m''.state = state (a ++ [(n, y)]).touching

theorem touching_append (l : Schedule) (n : NodeId) (x : Node) :
    (l ++ [(n, x)]).touching = l.touching + if touches x.op then 1 else 0 := by
  rw [Schedule.touching, Schedule.touching, List.countP_append, List.countP_singleton]

theorem Keeps.step {state : Nat → List (BitVec 64 × Literal) × Array Effect} {a : Schedule}
    {n : NodeId} {y : Node} {action : Action} (hk : Keeps g h t b m state a m')
    (hacts : Acts handler args g h m state a n y m' action) (hn : n < h.size) :
    ∃ m'', action.perform handler n m' = .ok m'' ∧ Keeps g h t b m state (a ++ [(n, y)]) m'' := by
  have hexists : ∃ m'', action.perform handler n m' = .ok m'' := exists_perform (hk.size.symm ▸ hn)
  obtain ⟨m'', hperform⟩ := hexists
  refine ⟨m'', hperform, fun k v hlive hdone hv => ?_, ?_, hacts.state m'' hperform⟩
  · rw [value_perform hperform]
    split
    next heq =>
      subst heq
      rw [hacts.gives v hv]
      rfl
    next hne =>
      refine hk.values k v hlive (fun hin => ?_) hv
      have hmem := hdone hin
      rw [List.map_append, List.mem_append] at hmem
      exact hmem.resolve_right fun hmem => hne (List.mem_singleton.mp hmem)
  · rw [size_perform hperform, hk.size]

/-! ### What is left of the members -/

section Remains

variable (hrem : Remains g r s σ K h t)

include hrem

theorem Remains.lists : t.Lists h := schedule_lists hrem.scheduled

/-- A member of a block that is left is a member of what is left of the block. -/
theorem Remains.mem_body {n : NodeId} {x : Node} (hn : (n, x) ∈ s.body b) (hh : h.Live n) :
    ∃ y, (n, y) ∈ t.body b ∧ y.op = x.op := by
  obtain ⟨⟨hg, hx⟩, hb, hphi⟩ := hrem.setting.lists.mem_body.mp hn
  obtain ⟨y, hy, hop, -, hblock, -⟩ := hrem.image.exists_renamed hg hh hx
  exact ⟨y, hrem.lists.mem_body.mpr ⟨⟨hh, hy⟩, hblock.trans hb, hop ▸ hphi⟩, hop⟩

/-- A member of what is left of a block that was live was a member of the block. -/
theorem Remains.mem_body_of_live {n : NodeId} {y : Node} (hn : (n, y) ∈ t.body b)
    (hg : g.Live n) : ∃ x, (n, x) ∈ s.body b ∧ y.op = x.op := by
  obtain ⟨⟨hh, hy⟩, hb, hphi⟩ := hrem.lists.mem_body.mp hn
  obtain ⟨x, hx, -⟩ := Graph.isRetired_eq_false.mp (hrem.setting.describes.used n hg)
  obtain ⟨y', hy', hop, -, hblock, -⟩ := hrem.image.exists_renamed hg hh hx
  cases hy.symm.trans hy'
  exact ⟨x, hrem.setting.lists.mem_body.mpr ⟨⟨hg, hx⟩, hblock ▸ hb, hop ▸ hphi⟩, hop⟩

theorem Remains.not_breaker {n : NodeId} {y : Node} (hn : (n, y) ∈ t.body b) :
    y.op.isLoopBreaker = false := by
  obtain ⟨⟨hh, hy⟩, hb, hphi⟩ := hrem.lists.mem_body.mp hn
  refine breaker_eq_false (fun hop => ?_) hphi
  obtain ⟨hg, -⟩ := hrem.image.block_live hh (Graph.shape?_eq hy) hop
  obtain ⟨x, hx, hop'⟩ := hrem.mem_body_of_live hn hg
  obtain ⟨⟨-, hx⟩, hxb, -⟩ := hrem.setting.lists.mem_body.mp hx
  rw [hrem.setting.proper.block n x hg hx (hop' ▸ hop)] at hxb
  cases hxb

theorem Remains.ne_stop (hne : b ≠ Anchor.endBlock) {n : NodeId} {x : Node}
    (hx : g.nodes[n]? = some x) (hb : x.block = some b) : n ≠ Anchor.stop := by
  rintro rfl
  obtain ⟨y, hy, -, hyb⟩ := hrem.anchored_before.stop
  cases hx.symm.trans hy
  exact hne (Option.some.inj (hb.symm.trans hyb))

/-- What is left does what it did before, if what its operands are worth is known and memory is what
it was. -/
theorem Remains.same_choice (hroute : Route g r.Taken (p :: rest)) (hne : p.block ≠ Anchor.endBlock)
    {l₁ l₂ a a' : Schedule} {n : NodeId} {x y : Node} {action : Action}
    (hsplit : s.body p.block = l₁ ++ (n, x) :: l₂) (hsplit' : t.body p.block = a ++ (n, y) :: a')
    (hsound : Sound g r (p :: rest) m)
    (hknown : ∀ k v, h.Live k → (k ∈ (t.body p.block).map Prod.fst → k ∈ a.map Prod.fst) →
      Present g r p l₁ m k v ∨ Carries g h k v → m'.value k = some v)
    (hmemory : touches x.op = true → m'.state = m.state)
    (hchoose : choose args m n x = .ok action) : choose args m' n y = .ok action := by
  have hset := hrem.setting
  obtain ⟨⟨hn, hx⟩, hb, hphi⟩ := hset.lists.mem_body.mp
    (hsplit ▸ List.mem_append_right _ List.mem_cons_self)
  obtain ⟨⟨hh, hy⟩, -, -⟩ := hrem.lists.mem_body.mp
    (hsplit' ▸ List.mem_append_right _ List.mem_cons_self)
  obtain ⟨y', hy', hop, hmode, -, -⟩ := hrem.image.exists_renamed hn hh hx
  cases hy.symm.trans hy'
  have hbreaker : x.op.isLoopBreaker = false :=
    hop ▸ hrem.not_breaker (hsplit' ▸ List.mem_append_right _ List.mem_cons_self)
  have hstop := hrem.ne_stop hne hx hb
  have hops := hrem.image.operands_of_whole hn hh hx hy hstop (ne_of_not_breaker hbreaker).1 hphi
  refine choose_congr hop hmode (by rw [hops, List.length_map]) (fun i o v ho hv => ?_) hmemory
    hchoose
  have hmem := List.mem_of_getElem? ho
  have hav := hrem.available hn hx hstop hbreaker hb hmem
  have hinput : o ∈ g.inputs n :=
    Graph.mem_inputs.mpr ⟨x.shape, Graph.shape?_eq hx, .inr hmem⟩
  have hpresent : Present g r p l₁ m o v := by
    refine ⟨hav.live, get_eq_ok_iff.mp hv, hav.dominates, fun z hz hzb hzphi => ?_⟩
    refine hset.lists.before_body hsplit ⟨hinput, hset.verified.inUse n o hn hinput⟩ hz hzb
      (breaker_eq_false (fun hzop => ?_) hzphi)
    rw [hset.proper.block o z hav.live hz hzop] at hzb
    cases hzb
  have hstands := hrem.mem_operands hn hh hx hstop hbreaker hmem
  refine ⟨σ o, by rw [hops, List.getElem?_map, ho]; rfl, get_eq_ok_iff.mpr ?_⟩
  refine hknown (σ o) v (hrem.operand_live hh hstands) (fun hin => ?_)
    (hpresent.stands hrem hroute hsound)
  obtain ⟨⟨k, w⟩, hw, hk⟩ := List.mem_map.mp hin
  obtain rfl : k = σ o := hk
  obtain ⟨⟨-, hwnode⟩, hwb, -⟩ := hrem.lists.mem_body.mp hw
  obtain ⟨u, hu, hin⟩ := Graph.mem_operands_of_shape hstands
  exact List.mem_map_of_mem (hrem.lists.before_body hsplit'
    (hrem.needs hh (Graph.mem_inputs.mpr ⟨u, hu, .inr hin⟩)) hwnode hwb (hrem.not_breaker hw))

/-- What is left of a member is of the same kind. -/
theorem Remains.same_op {n : NodeId} {x y : Node} (hx : (n, x) ∈ s.body b)
    (hy : (n, y) ∈ t.body b) : y.op = x.op := by
  obtain ⟨⟨hg, hnode⟩, -, -⟩ := hrem.setting.lists.mem_body.mp hx
  obtain ⟨x', hx', hop⟩ := hrem.mem_body_of_live hy hg
  obtain ⟨⟨-, hnode'⟩, -, -⟩ := hrem.setting.lists.mem_body.mp hx'
  cases hnode.symm.trans hnode'
  exact hop

theorem Aligned.nodup (hal : Aligned s t b l l') : (l'.map Prod.fst).Nodup := by
  obtain ⟨l₂', hbody'⟩ := hal.first
  have hnodup := hrem.lists.nodup_body (b := b)
  rw [hbody', List.map_append] at hnodup
  exact (List.nodup_append.mp hnodup).1

/-- As many members have touched memory when what is left of a member acts as when it acted itself,
if it touches memory. -/
theorem Remains.touching_before (hturn : Turn g r s handler args p rest l m₀ m₁ exit)
    (hal : Aligned s t p.block l l') {l₁ l₃ a a' : Schedule} {n : NodeId} {x y : Node}
    (hl : l = l₁ ++ (n, x) :: l₃) (hl' : l' = a ++ (n, y) :: a') (hop : touches x.op = true) :
    a.touching = l₁.touching := by
  have hset := hrem.setting
  obtain ⟨l₂, hbody⟩ := hturn.first
  obtain ⟨l₂', hbody'⟩ := hal.first
  have hnodup := hturn.nodup hset
  have hnodup' := hal.nodup hrem
  obtain ⟨-, hx, -, -⟩ := hturn.member hset (hl ▸ List.mem_append_right _ List.mem_cons_self)
  subst hl hl'
  rw [List.map_append, List.map_cons] at hnodup hnodup'
  obtain ⟨hnodup₁, -, hapart⟩ := List.nodup_append.mp hnodup
  obtain ⟨hnodupa, -, hapart'⟩ := List.nodup_append.mp hnodup'
  have huses := (touches_kind hop).1
  have hsame {k : NodeId} {w z : Node} (hw : (k, w) ∈ l₁ ++ (n, x) :: l₃)
      (hz : (k, z) ∈ a ++ (n, y) :: a') : z.op = w.op :=
    hrem.same_op (hbody ▸ List.mem_append_left _ hw) (hbody' ▸ List.mem_append_left _ hz)
  refine touching_eq hnodup₁ hnodupa fun k => ⟨?_, ?_⟩
  · rintro ⟨z, hz, hzop⟩
    have hz' := List.mem_append_left ((n, y) :: a') hz
    obtain ⟨w, hw⟩ := (hal.drawn k z hz').resolve_right (touches_kind hzop).2.2
    have hwop : touches w.op = true := hsame hw hz' ▸ hzop
    have hne : k ≠ n := hapart' k (List.mem_map_of_mem hz) n List.mem_cons_self
    rcases List.mem_append.mp hw with hw | hw
    · exact ⟨w, hw, hwop⟩
    · -- What acts later would need the member itself to act before.
      exfalso
      have hw := (List.mem_cons.mp hw).resolve_left fun heq => hne (Prod.mk.inj heq).1
      obtain ⟨u₁, u₂, rfl⟩ := List.append_of_mem hw
      have hsplit : s.body p.block = (l₁ ++ (n, x) :: u₁) ++ (k, w) :: (u₂ ++ l₂) := by
        rw [hbody]
        simp
      have hmem := hrem.acts_before hturn.route hsplit (touches_kind hwop).1
        (List.mem_append_right _ List.mem_cons_self) huses (not_quotient hx hop)
        (hbody'.trans (List.append_assoc _ _ _)) (List.mem_map_of_mem hz)
      exact hapart' n hmem n List.mem_cons_self rfl
  · rintro ⟨w, hw, hwop⟩
    obtain ⟨-, hwnode, -⟩ := hturn.member hset (List.mem_append_left _ hw)
    have hne : k ≠ n := hapart k (List.mem_map_of_mem hw) n List.mem_cons_self
    have hsplit' : t.body p.block = (a ++ [(n, y)]) ++ (a' ++ l₂') := by
      rw [hbody']
      simp
    have hmem := hrem.acts_before hturn.route (hbody.trans (List.append_assoc _ _ _)) huses hw
      (touches_kind hwop).1 (not_quotient hwnode hwop) hsplit' (by simp)
    obtain ⟨⟨k, z⟩, hz, rfl⟩ := List.mem_map.mp hmem
    have hz := (List.mem_append.mp hz).resolve_right fun hin =>
      hne (Prod.mk.inj (List.mem_singleton.mp hin)).1
    exact ⟨z, hz, hsame (List.mem_append_left _ hw) (List.mem_append_left _ hz) ▸ hwop⟩

/-- As many members touch memory in the end. -/
theorem Remains.touching_end (hturn : Turn g r s handler args p rest l m₀ m₁ exit)
    (hal : Aligned s t p.block l l') : l'.touching = l.touching := by
  obtain ⟨l₂, hbody⟩ := hturn.first
  obtain ⟨l₂', hbody'⟩ := hal.first
  have hsame {k : NodeId} {w z : Node} (hw : (k, w) ∈ l) (hz : (k, z) ∈ l') : z.op = w.op :=
    hrem.same_op (hbody ▸ List.mem_append_left _ hw) (hbody' ▸ List.mem_append_left _ hz)
  refine touching_eq (hturn.nodup hrem.setting) (hal.nodup hrem) fun k => ⟨?_, ?_⟩
  · rintro ⟨z, hz, hop⟩
    obtain ⟨w, hw⟩ := (hal.drawn k z hz).resolve_right (touches_kind hop).2.2
    exact ⟨w, hw, hsame hw hz ▸ hop⟩
  · rintro ⟨w, hw, hop⟩
    obtain ⟨⟨k, z⟩, hz, rfl⟩ := List.mem_map.mp (hal.touched k w hw hop)
    exact ⟨z, hz, hsame hw hz ▸ hop⟩

/-- What is left of a member acts as the member did. -/
theorem Remains.acts_again (hturn : Turn g r s handler args p rest l m₀ m₁ exit)
    (hal : Aligned s t p.block l l')
    {state : Nat → List (BitVec 64 × Literal) × Array Effect}
    (hstate : ∀ l₁ l₂ m exit, l = l₁ ++ l₂ → Passes handler args l₁ m₀ none m exit →
      m.state = state l₁.touching)
    {l₁ l₃ a a' : Schedule} {n : NodeId} {x y : Node} (hl : l = l₁ ++ (n, x) :: l₃)
    (hl' : l' = a ++ (n, y) :: a') (hk : Keeps g h t p.block m₁ state a m') :
    ∃ m exit action, Passes handler args l₁ m₀ none m exit ∧ choose args m n x = .ok action ∧
      Acts handler args g h m₁ state a n y m' action := by
  have hset := hrem.setting
  obtain ⟨l₂, hbody⟩ := hturn.first
  obtain ⟨l₂', hbody'⟩ := hal.first
  obtain ⟨m, exit₁, action, m₂, hfirst, hsound, hchoose, hends, hperform, hkept, hgives⟩ :=
    hturn.at hset hl
  have hsplit : s.body p.block = l₁ ++ (n, x) :: (l₃ ++ l₂) := by rw [hbody, hl]; simp
  have hsplit' : t.body p.block = a ++ (n, y) :: (a' ++ l₂') := by rw [hbody', hl']; simp
  obtain ⟨⟨hg, hx⟩, -, -⟩ := hset.lists.mem_body.mp
    (hsplit ▸ List.mem_append_right _ List.mem_cons_self)
  obtain ⟨⟨hh, hy⟩, -, -⟩ := hrem.lists.mem_body.mp
    (hsplit' ▸ List.mem_append_right _ List.mem_cons_self)
  obtain ⟨y', hy', hop, -⟩ := hrem.image.exists_renamed hg hh hx
  cases hy.symm.trans hy'
  have hmemory (htouch : touches x.op = true) : m'.state = m.state := by
    rw [hk.state, hstate l₁ _ m exit₁ hl hfirst, hrem.touching_before hturn hal hl hl' htouch]
  have hchoose' : choose args m' n y = .ok action := by
    refine hrem.same_choice hturn.route hturn.inner hsplit hsplit' hsound
      (fun k v hlive hdone hv => ?_) hmemory hchoose
    refine hk.values k v hlive hdone (hv.imp (fun hv => ?_) id)
    exact ⟨hv.live, hkept k v hv⟩
  refine ⟨m, exit₁, action, hfirst, hchoose, hchoose', hends, fun v hv => ?_,
    fun m'' hperform' => ?_⟩
  · rw [gives_congr hchoose hmemory]
    rcases hv with ⟨-, hv⟩ | hc
    · exact hgives v hv
    · obtain ⟨z, hz, -, hzop⟩ := hc.now
      obtain ⟨w, hw, hwop⟩ := Graph.isRetired_eq_false.mp (hrem.image.of_live hh).2
      rw [Graph.shape?_eq hy] at hz
      cases hz
      cases hy.symm.trans hw
      have hxop : x.op = .const v := hop ▸ hzop.resolve_right hwop
      rw [choose, hxop] at hchoose
      cases hchoose
      rfl
  · rw [touching_append, hop]
    cases htouch : touches x.op with
    | true =>
      have hnext := hstate (l₁ ++ [(n, x)]) l₃ m₂ _ (by rw [hl]; simp)
        (hfirst.append (.cons hchoose hends hperform .nil))
      rw [touching_append, htouch] at hnext
      rw [state_perform hperform hperform' (hmemory htouch), hnext,
        hrem.touching_before hturn hal hl hl' htouch]
    | false =>
      rw [choose_touches hchoose' (hop ▸ htouch) hperform', hk.state]
      rfl

/-- Members that act in any case. -/
theorem Remains.acts_idle (hturn : Turn g r s handler args p rest l m₀ m₁ exit)
    {state : Nat → List (BitVec 64 × Literal) × Array Effect} {a : Schedule} {n : NodeId} {y : Node}
    (hn : (n, y) ∈ t.body p.block) (hidle : Idle y.op)
    (hk : Keeps g h t p.block m₁ state a m') :
    ∃ action, Acts handler args g h m₁ state a n y m' action := by
  have hset := hrem.setting
  obtain ⟨⟨hh, hy⟩, -, -⟩ := hrem.lists.mem_body.mp hn
  -- Only constants are worth something.
  have hworth (v : Literal) (hv : Worth g h m₁ n v) : y.op = .const v := by
    rcases hv with ⟨hg, hv⟩ | hc
    · obtain ⟨x, hmem, hop⟩ := hrem.mem_body_of_live hn hg
      obtain ⟨⟨-, hx⟩, -, hphi⟩ := hset.lists.mem_body.mp hmem
      obtain ⟨-, ⟨x', hx', hkind⟩, -, hcovers⟩ := (hturn.sound_end hset).explained n v hv
      cases hx.symm.trans hx'
      rw [hop] at hidle ⊢
      rcases hidle with ⟨c, hc⟩ | hop' | hop'
      · have hseed : r.assignment.value n = .constant c := by
          rw [hset.describes.solves.seed n x hg hx (by rw [Graph.computes, hc]), Node.seed, hc]
        rw [hc, eq_of_covers hcovers hseed]
      · rcases hkind with hkind | ⟨hkind, -⟩
        · rw [hop'] at hkind
          cases hkind
        · exact absurd hkind hphi
      · rcases hkind with hkind | ⟨hkind, -⟩
        · rw [hop'] at hkind
          cases hkind
        · exact absurd hkind hphi
    · obtain ⟨z, hz, -, hop⟩ := hc.now
      obtain ⟨w, hw, hused⟩ := Graph.isRetired_eq_false.mp (hrem.image.of_live hh).2
      rw [Graph.shape?_eq hy] at hz
      cases hz
      cases hy.symm.trans hw
      exact hop.resolve_right hused
  have htouch : touches y.op = false := by
    cases htouch : touches y.op with
    | false => rfl
    | true => exact absurd hidle (touches_kind htouch).2.2
  have hstate {action : Action} (hchoose : choose args m' n y = .ok action) (m'' : Machine)
      (hperform : action.perform handler n m' = .ok m'') :
      m''.state = state (a ++ [(n, y)]).touching := by
    rw [touching_append, htouch, choose_touches hchoose htouch hperform, hk.state]
    rfl
  rcases hidle with ⟨c, hop⟩ | hop | hop
  · have hchoose : choose args m' n y = .ok (.value c) := by rw [choose, hop]
    refine ⟨_, hchoose, rfl, fun v hv => ?_, hstate hchoose⟩
    cases hop.symm.trans (hworth v hv)
    rfl
  · have hchoose : choose args m' n y = .ok .leave := by rw [choose, hop]
    refine ⟨_, hchoose, rfl, fun v hv => ?_, hstate hchoose⟩
    cases hop.symm.trans (hworth v hv)
  · have hchoose : choose args m' n y = .ok .nothing := by rw [choose, hop]
    refine ⟨_, hchoose, rfl, fun v hv => ?_, hstate hchoose⟩
    cases hop.symm.trans (hworth v hv)

/-- What is left of a block acts like the block. -/
theorem Remains.keeps (hturn : Turn g r s handler args p rest l m₀ m₁ exit)
    (hal : Aligned s t p.block l l')
    {state : Nat → List (BitVec 64 × Literal) × Array Effect}
    (hstate : ∀ l₁ l₂ m exit, l = l₁ ++ l₂ → Passes handler args l₁ m₀ none m exit →
      m.state = state l₁.touching)
    (hentry : Keeps g h t p.block m₁ state [] m) {a a' : Schedule} (hl' : l' = a ++ a') :
    ∃ m' exit', Passes handler args a m none m' exit' ∧ Keeps g h t p.block m₁ state a m' := by
  induction a using List.reverseRecOn generalizing a' with
  | nil => exact ⟨m, none, .nil, hentry⟩
  | append_singleton a e ih =>
    obtain ⟨n, y⟩ := e
    rw [List.append_assoc, List.singleton_append] at hl'
    obtain ⟨m', exit', hpass, hk⟩ := ih hl'
    have hmem : (n, y) ∈ l' := hl' ▸ List.mem_append_right _ List.mem_cons_self
    have hbody : (n, y) ∈ t.body p.block := by
      obtain ⟨l₂', hbody'⟩ := hal.first
      exact hbody' ▸ List.mem_append_left _ hmem
    obtain ⟨⟨-, hy⟩, -, -⟩ := hrem.lists.mem_body.mp hbody
    have hacts : ∃ action, Acts handler args g h m₁ state a n y m' action := by
      rcases hal.drawn n y hmem with ⟨x, hx⟩ | hidle
      · obtain ⟨l₁, l₃, hl⟩ := List.append_of_mem hx
        obtain ⟨-, -, action, -, -, hacts⟩ := hrem.acts_again hturn hal hstate hl hl' hk
        exact ⟨action, hacts⟩
      · exact hrem.acts_idle hturn hbody hidle hk
    obtain ⟨action, hacts⟩ := hacts
    obtain ⟨m'', hperform, hk'⟩ := hk.step hacts (Graph.lt_size_of_shape? (Graph.shape?_eq hy))
    exact ⟨m'', _, hpass.append (.cons hacts.choose hacts.goesOn hperform .nil), hk'⟩

/-- When a block is entered, nodes are worth what they will be worth in the end, but for its
members. -/
theorem Remains.keeps_entry (hturn : Turn g r s handler args p rest l m₀ m₁ exit)
    {state : Nat → List (BitVec 64 × Literal) × Array Effect} (hzero : state 0 = m₀.state)
    (hvalues : ∀ n v, h.Live n → n ∉ (t.body p.block).map Prod.fst → Worth g h m₀ n v →
      m.value n = some v)
    (hsize : m.env.size = h.size) (hstate : m.state = m₀.state) :
    Keeps g h t p.block m₁ state [] m := by
  obtain ⟨l₂, hbody⟩ := hturn.first
  refine ⟨fun n v hlive hdone hv => ?_, hsize, hstate.trans hzero.symm⟩
  have hnot : n ∉ (t.body p.block).map Prod.fst := fun hin => by cases hdone hin
  refine hvalues n v hlive hnot (hv.imp (fun ⟨hg, hv⟩ => ⟨hg, ?_⟩) id)
  rwa [hturn.passes.value_of_not_mem fun hin => ?_] at hv
  obtain ⟨⟨n, x⟩, hmem, rfl⟩ := List.mem_map.mp hin
  obtain ⟨y, hy, -⟩ := hrem.mem_body (hbody ▸ List.mem_append_left _ hmem) hlive
  exact hnot (List.mem_map.mpr ⟨_, hy, rfl⟩)

section Exit

variable {e : NodeId} {state : Nat → List (BitVec 64 × Literal) × Array Effect}
  (hturn : Turn g r s handler args p rest (s.body p.block) m₀ m₁ (some e))
  (hal : Aligned s t p.block (s.body p.block) (t.body p.block))
  (hstate : ∀ l₁ l₂ m exit, s.body p.block = l₁ ++ l₂ → Passes handler args l₁ m₀ none m exit →
    m.state = state l₁.touching)
  (hentry : Keeps g h t p.block m₁ state [] m)

include hturn

omit hrem in
theorem Turn.exit_left : ∃ x, Left handler args (s.body p.block) m₀ e x := by
  obtain ⟨l₁, x, l₂, m', exit₁, hsplit, hfirst, hleave⟩ := hturn.passes.leaves
  exact ⟨x, l₁, l₂, m', exit₁, hsplit, hfirst, hleave⟩

omit hrem in
theorem Turn.leftOnce (hset : Setting g r s) : g.LeftOnce p.block := by
  obtain ⟨x, he⟩ := hturn.exit_left
  obtain ⟨⟨hlive, hx, hb, hkind⟩, hcond⟩ := hturn.leaves hset he
  have hexit := hkind.resolve_left hcond
  obtain ⟨c, y, hc, hy, hop⟩ := hset.proper.member e x hlive hx
    (fun hop => by rw [hop] at hexit; cases hexit)
  cases hb.symm.trans hc
  exact hset.proper.exit _ y (hset.describes.block_live hlive hx hb) hy hop hturn.inner

include hal hstate hentry

/-- Whatever control leaves through stands in for the edge that it left by. -/
theorem Remains.leaver_stands {a a' : Schedule} {n : NodeId} {y : Node} {exit' : Option NodeId}
    (hsplit : t.body p.block = a ++ (n, y) :: a') (hpass : Passes handler args a m none m' exit')
    (hleave : choose args m' n y = .ok .leave) : n = σ e := by
  have hset := hrem.setting
  obtain ⟨x, he⟩ := hturn.exit_left
  have hmem : (n, y) ∈ t.body p.block := hsplit ▸ List.mem_append_right _ List.mem_cons_self
  obtain ⟨⟨hh, hy⟩, hb, -⟩ := hrem.lists.mem_body.mp hmem
  by_cases hg : g.Live n
  · obtain ⟨z, hz, -⟩ := hrem.mem_body_of_live hmem hg
    obtain ⟨l₁, l₂, hl⟩ := List.append_of_mem hz
    obtain ⟨m'', exit'', hpass', hk⟩ := hrem.keeps hturn hal hstate hentry hsplit
    obtain ⟨rfl, -⟩ := hpass.unique hpass'
    obtain ⟨m₂, exit₂, action, hfirst, hchoose, hacts⟩ :=
      hrem.acts_again hturn hal hstate hl hsplit hk
    cases hleave.symm.trans hacts.choose
    obtain rfl := hturn.left_unique hset (hturn.leftOnce hset)
      ⟨l₁, l₂, m₂, exit₂, hl, hfirst, hchoose⟩ he
    exact (hrem.image.self_of_live hh).symm
  · -- What was added can only be a jump, which stands in for an arm that is always chosen.
    have hidle : Idle y.op := by
      refine (hal.drawn n y hmem).resolve_left ?_
      rintro ⟨z, hz⟩
      exact hg (hset.lists.mem_body.mp hz).1.1
    have hop : y.op = .jump := by
      rcases hidle with ⟨c, hop⟩ | hop | hop
      · rw [choose, hop] at hleave
        cases hleave
      · exact hop
      · rw [choose, hop] at hleave
        cases hleave
    have hsize : g.size ≤ n := by
      rcases hrem.image.scope n hh with hlive | hsize | ⟨v, z, hz, hzop, -⟩
      · exact absurd hlive hg
      · exact hsize
      · obtain ⟨w, hw, hwop, -⟩ := hrem.image.exists_same hz (hrem.image.of_live hh).2
        rw [Graph.shape?_eq hy] at hw
        cases hw
        cases hop.symm.trans (hwop.trans hzop)
    obtain ⟨e', hchosen, rfl⟩ := hrem.jump_stands hh hy hop hb hsize
    have hmember (z : Node) (hz : g.nodes[e']? = some z) : (e', z) ∈ s.body p.block := by
      obtain ⟨z', side, -, -, helive, hz', hzop, -, -, -, hzb⟩ := hchosen
      cases hz.symm.trans hz'
      exact hset.lists.mem_body.mpr ⟨⟨helive, hz⟩, hzb, by simp [hzop]⟩
    obtain ⟨z, hleft⟩ := hturn.chosen_left hset hchosen hmember
    rw [hturn.left_unique hset (hturn.leftOnce hset) hleft he]

/-- What stands in for the edge lets control leave. -/
theorem Remains.stand_in_leaves {a a' : Schedule} {y : Node} {exit' : Option NodeId}
    (hsplit : t.body p.block = a ++ (σ e, y) :: a')
    (hpass : Passes handler args a m none m' exit') : choose args m' (σ e) y = .ok .leave := by
  have hset := hrem.setting
  obtain ⟨x, l₁, l₂, m₂, exit₂, hl, hfirst, hleave⟩ := hturn.exit_left
  obtain ⟨helive, -⟩ := hturn.member hset (hl ▸ List.mem_append_right _ List.mem_cons_self)
  have hmem : (σ e, y) ∈ t.body p.block := hsplit ▸ List.mem_append_right _ List.mem_cons_self
  obtain ⟨⟨hh, hy⟩, -, -⟩ := hrem.lists.mem_body.mp hmem
  obtain ⟨htaken, -⟩ := hturn.sound.leave hset hturn.route hturn.passes
  rcases (hrem.image.taken_stands hrem.basis helive htaken).2 with hself | ⟨b, -, -, z, hz, -, hop⟩
  · rw [hself] at hsplit ⊢
    obtain ⟨m'', exit'', hpass', hk⟩ := hrem.keeps hturn hal hstate hentry hsplit
    obtain ⟨rfl, -⟩ := hpass.unique hpass'
    obtain ⟨m₃, exit₃, action, hfirst', hchoose, hacts⟩ :=
      hrem.acts_again hturn hal hstate hl hsplit hk
    obtain ⟨rfl, -⟩ := hfirst.unique hfirst'
    cases hleave.symm.trans hchoose
    exact hacts.choose
  · obtain ⟨w, hw, hwop⟩ := Graph.isRetired_eq_false.mp (hrem.image.of_live hh).2
    rw [Graph.shape?_eq hy] at hz
    cases hz
    cases hy.symm.trans hw
    rw [choose, show y.op = .jump from hop.resolve_right hwop]

/-- Control leaves what is left of a block through what stands in for the edge that it left the
block by. -/
theorem Remains.exit_stands (hlive : h.Live (σ e)) :
    ∃ m', Passes handler args (t.body p.block) m none m' (some (σ e)) ∧
      Keeps g h t p.block m₁ state (t.body p.block) m' := by
  have hset := hrem.setting
  obtain ⟨m', exit', hpass, hk⟩ := hrem.keeps hturn hal hstate hentry (List.append_nil _).symm
  refine ⟨m', ?_, hk⟩
  obtain ⟨x, he⟩ := hturn.exit_left
  obtain ⟨⟨helive, hx, hb, hkind⟩, hcond⟩ := hturn.leaves hset he
  obtain ⟨htaken, -⟩ := hturn.sound.leave hset hturn.route hturn.passes
  have hblock := hrem.blockOf_edge helive htaken hlive
  rw [Graph.blockOf_eq hx, hb] at hblock
  obtain ⟨y, hy, hyb⟩ := Option.bind_eq_some_iff.mp hblock
  have hphi : y.op ≠ .phi := by
    rcases (hrem.image.taken_stands hrem.basis helive htaken).2 with
      hself | ⟨b, -, -, z, hz, -, hop⟩
    · rw [hself] at hy hlive
      obtain ⟨y', hy', hop, -⟩ := hrem.image.exists_renamed helive hlive hx
      cases hy.symm.trans hy'
      have hexit := hkind.resolve_left hcond
      intro hphi
      rw [← hop, hphi] at hexit
      cases hexit
    · rw [Graph.shape?_eq hy] at hz
      cases hz
      intro hphi
      rcases hop with hop | hop <;> cases hphi.symm.trans hop
  obtain ⟨a, a', hsplit⟩ := List.append_of_mem (hrem.lists.mem_body.mpr ⟨⟨hlive, hy⟩, hyb, hphi⟩)
  have hsome : exit' ≠ none := by
    rw [hsplit] at hpass
    obtain ⟨m₂, exit₂, action, m₃, hfirst, hchoose, -, -, hlast⟩ := hpass.at
    cases (hrem.stand_in_leaves hturn hal hstate hentry hsplit hfirst).symm.trans hchoose
    exact hlast.exit_ne_none nofun
  rcases hpass.exit with hnone | ⟨l₁, n, z, l₂, m₂, exit₂, hsplit', hfirst, hleave, rfl⟩
  · exact absurd hnone hsome
  · rwa [hrem.leaver_stands hturn hal hstate hentry hsplit' hfirst hleave] at hpass

end Exit

end Remains

end Execution

end SeaOfNodes
