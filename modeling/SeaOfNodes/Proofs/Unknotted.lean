import SeaOfNodes.Proofs.Simultaneous

/-!
Substituting facts ends, and ties no knot.

Whatever the facts say, even facts about another graph, the pass fails only where the walk fails.
Following the exchanges it made never leads back to where one began, and no node is exchanged with
itself, so it is always known what stands in for a node. And what the pass leaves can be walked
again, if no block of a live node lies outside the arena (`Substitution.run_ties_no_knot`). A block
out there could be the very jump that the pass adds next (`Substitution.run_ties_knot`).

The reason is a rank for each node that the pass may put to use (`Substitution.Ranked`). It goes
down along every dependency that could be on a knot. A walk gives the first rank. An exchange moves
the users of a node to one that ranks below them: a constant or dead control ranks lowest, a jump
ranks as the arm it replaces, and the memory state that a division consumed ranks below the division
and so below its projections.
-/

namespace SeaOfNodes

/-! ### Following exchanges -/

namespace Renaming

/-- `b` was put in the place of `a`. -/
def Next (m : Renaming) (a b : NodeId) : Prop := m.lookup a = some b

/-- Following the exchanges never leads back. -/
def Acyclic (m : Renaming) : Prop := ∀ n, ¬ Relation.TransGen m.Next n n

/-- Following the exchanges from `n` ends at `k`, in whose place nothing was put. -/
def LeadsTo (m : Renaming) (n k : NodeId) : Prop :=
  Relation.ReflTransGen m.Next n k ∧ m.lookup k = none

/-- Each exchange was of two nodes that were still in their places. -/
inductive Direct : Renaming → Prop where
  | nil : Direct []
  | cons {m : Renaming} {old new : NodeId} : Direct m → m.lookup old = none →
    m.lookup new = none → old ≠ new → Direct ((old, new) :: m)

variable {m : Renaming} {old new : NodeId}

theorem next_cons {a b : NodeId} :
    Next ((old, new) :: m) a b ↔ a = old ∧ b = new ∨ a ≠ old ∧ m.Next a b := by
  by_cases ha : a = old
  · subst ha
    simp [Next, eq_comm]
  · simp [Next, List.lookup_cons, beq_eq_false_iff_ne.mpr ha, ha]

theorem lookup_cons_eq_none {a : NodeId} :
    List.lookup a ((old, new) :: m) = none ↔ a ≠ old ∧ m.lookup a = none := by
  by_cases ha : a = old
  · simp [ha]
  · simp [List.lookup_cons, beq_eq_false_iff_ne.mpr ha, ha]

theorem Direct.suffix {m m' : Renaming} (h : m.Direct) (hs : m' <:+ m) : m'.Direct := by
  induction h with
  | nil => rw [List.suffix_nil.mp hs]; exact .nil
  | cons hm hold hnew hne ih =>
    rcases List.suffix_cons_iff.mp hs with rfl | hs
    · exact .cons hm hold hnew hne
    · exact ih hs

theorem Direct.ne (h : m.Direct) (hmem : (old, new) ∈ m) : old ≠ new := by
  induction h with
  | nil => cases hmem
  | cons _ _ _ hne ih =>
    rcases List.mem_cons.mp hmem with heq | hmem
    · cases heq
      exact hne
    · exact ih hmem

/-- One more exchange closes no cycle: nothing leads on from the new node. -/
theorem Direct.acyclic (h : m.Direct) : m.Acyclic := by
  induction h with
  | nil =>
    intro n hcycle
    obtain ⟨b, hb, -⟩ := Relation.TransGen.head'_iff.mp hcycle
    cases hb
  | @cons m old new _ _ hnew hne ih =>
    have hstop (b : NodeId) : ¬ Next ((old, new) :: m) new b := by
      rw [next_cons]
      rintro (⟨heq, -⟩ | ⟨-, hb⟩)
      · exact hne heq.symm
      · rw [Next, hnew] at hb
        cases hb
    have hpath {a b : NodeId} (hab : Relation.TransGen (Next ((old, new) :: m)) a b) :
        Relation.TransGen m.Next a b ∨ b = new := by
      induction hab with
      | single hb => exact (next_cons.mp hb).symm.imp (fun h => .single h.2) And.right
      | tail _ hc ih =>
        rcases ih with hab | rfl
        · exact (next_cons.mp hc).symm.imp (fun h => hab.tail h.2) And.right
        · exact absurd hc (hstop _)
    intro n hcycle
    rcases hpath hcycle with hold | rfl
    · exact ih n hold
    · obtain ⟨b, hb, -⟩ := Relation.TransGen.head'_iff.mp hcycle
      exact hstop b hb

/-- Replaying the exchanges gives the node that following them ends at. -/
theorem Direct.leadsTo (h : m.Direct) (n : NodeId) : m.LeadsTo n (m.resolve n) := by
  induction h with
  | nil => exact ⟨.refl, rfl⟩
  | @cons m old new _ hold hnew hne ih =>
    obtain ⟨hpath, hend⟩ := ih
    -- The old node was in its place, so a path to another node did not pass it.
    have hkeep {k : NodeId} (hk : Relation.ReflTransGen m.Next n k) :
        Relation.ReflTransGen (Next ((old, new) :: m)) n k := by
      refine Relation.ReflTransGen.mono (fun a b hab => next_cons.mpr (.inr ⟨?_, hab⟩)) _ _ hk
      intro heq
      rw [Next, heq, hold] at hab
      cases hab
    rw [resolve]
    split
    next heq =>
      rw [heq] at hpath
      exact ⟨(hkeep hpath).tail (next_cons.mpr (.inl ⟨rfl, rfl⟩)),
        lookup_cons_eq_none.mpr ⟨hne.symm, hnew⟩⟩
    next hother => exact ⟨hkeep hpath, lookup_cons_eq_none.mpr ⟨hother, hend⟩⟩

/-- A node that was not exchanged stands in for itself. -/
theorem Direct.resolve_eq (h : m.Direct) {n : NodeId} (hn : m.lookup n = none) :
    m.resolve n = n := by
  rcases (h.leadsTo n).1.cases_head with heq | ⟨b, hb, -⟩
  · exact heq.symm
  · rw [Next, hn] at hb
    cases hb

end Renaming

/-! ### Ranks -/

namespace Graph

/-- `n` is in use and no place where cycles are legal. -/
def Solid (g : Graph) (n : NodeId) : Prop :=
  ∃ y, g.shape? n = some y ∧ y.op ≠ .retired ∧ y.op.isLoopBreaker = false

/-- Constants and dead control have no operands. -/
def LeavesBare (g : Graph) : Prop :=
  ∀ n x, g.shape? n = some x → (∃ v, x.op = .const v) ∨ x.op = .bad → x.operands = []

/-- The blocks of live nodes have slots. -/
def Enclosed (g : Graph) : Prop :=
  ∀ n x b, g.Live n → g.shape? n = some x → x.block = some b → b < g.size

theorem Solid.inUse {g : Graph} {n : NodeId} (h : g.Solid n) : g.isRetired n = false := by
  obtain ⟨y, hy, hop, -⟩ := h
  exact isRetired_eq_false_iff.mpr ⟨y, hy, hop⟩

theorem mem_inputs_iff {g : Graph} {n m : NodeId} :
    m ∈ g.inputs n ↔ g.blockOf n = some m ∨ m ∈ g.operands n := by
  unfold inputs blockOf operands
  cases g.nodes[n]? with
  | none => simp
  | some x =>
    show m ∈ x.inputs ↔ x.block = some m ∨ m ∈ x.operands
    simp [Node.inputs]

theorem binds_iff {g : Graph} {n m : NodeId} :
    g.Binds n m ↔ (g.blockOf n = some m ∨ m ∈ g.operands n) ∧ g.Solid m := by
  constructor
  · rintro ⟨⟨hmem, hused⟩, z, hz, hbreaker⟩
    obtain ⟨y, hy, hop⟩ := exists_shape hused
    cases (shape?_eq hz).symm.trans hy
    exact ⟨mem_inputs_iff.mp hmem, _, shape?_eq hz, hop, hbreaker⟩
  · rintro ⟨hmem, hsolid⟩
    obtain ⟨y, hy, -, hbreaker⟩ := id hsolid
    obtain ⟨z, hz, rfl⟩ := Option.map_eq_some_iff.mp hy
    exact ⟨⟨mem_inputs_iff.mpr hmem, hsolid.inUse⟩, z, hz, hbreaker⟩

end Graph

namespace Substitution

open Rewriting Image

variable (g : Graph) (rank : NodeId → Nat)

/-- `rank` goes down along the dependencies of the nodes of `h` that may be in use. Blocks that `g`
has no slot for are left out. -/
structure Layered (h : Graph) : Prop where
  mirrored : h.Mirrored
  size_le : g.size ≤ h.size
  closed : ∀ n m, Scope g n → h.Needs n m → Scope g m
  operand : ∀ n m, Scope g n → m ∈ h.operands n → h.Solid m → rank m < rank n
  block : ∀ n b, Scope g n → h.blockOf n = some b → b < g.size → h.Solid b → rank b < rank n
  /-- Only a node without operands ranks lowest. -/
  above : ∀ n, Scope g n → h.operands n ≠ [] → 0 < rank n
  fresh : ∀ n, h.size ≤ n → rank n = 0
  enclosed : g.Enclosed → ∀ n b, Scope g n → h.blockOf n = some b → b < g.size

/-- `n` may be put in the place of any node of `h`, after the exchanges `m`. -/
structure Spare (h : Graph) (m : Renaming) (n : NodeId) : Prop where
  scope : Scope g n
  kind : ∃ y, h.shape? n = some y ∧ isReplaced y.op = false
  lowest : h.isRetired n = false → rank n = 0
  inPlace : m.lookup n = none

/-- What holds between two visits. -/
structure Ranked (s : State) : Prop where
  layered : Layered g rank s.draft.graph
  constant : ∀ v c, (v, c) ∈ s.constants → Spare g rank s.draft.graph s.standIns c
  bad : Spare g rank s.draft.graph s.standIns Anchor.bad
  entry : Anchor.startBlock < g.size ∧ ∃ y, s.draft.graph.shape? Anchor.startBlock = some y ∧
    (y.op = .block ∧ Scope g Anchor.startBlock ∨ y.op = .retired)
  direct : s.standIns.Direct
  gone : ∀ n, s.standIns.lookup n ≠ none → s.draft.graph.Removed n
  /-- What was exchanged is no operand any more. -/
  moved : ∀ n m, m ∈ s.draft.graph.operands n → s.standIns.lookup m = none

variable {g rank} {h h' : Graph} {s s' : State}

/-- A rank excludes a knot, if every block has a slot. -/
theorem Layered.not_knotted (hl : Layered g rank h) (hg : g.Enclosed) : ¬ h.Knotted := by
  have hstep {n m : NodeId} (hn : Scope g n) (hb : h.Binds n m) : Scope g m ∧ rank m < rank n := by
    refine ⟨hl.closed n m hn hb.1, ?_⟩
    obtain ⟨hblock | hoperand, hm⟩ := Graph.binds_iff.mp hb
    · exact hl.block n m hn hblock (hl.enclosed hg n m hn hblock) hm
    · exact hl.operand n m hn hoperand hm
  have hpath {n m : NodeId} (hn : Scope g n) (hb : Relation.TransGen h.Binds n m) :
      Scope g m ∧ rank m < rank n := by
    induction hb with
    | single hb => exact hstep hn hb
    | tail _ hb ih =>
      obtain ⟨hm, hlt⟩ := hstep ih.1 hb
      exact ⟨hm, hlt.trans ih.2⟩
  have hlive {n : NodeId} (hn : h.Live n) : Scope g n := by
    obtain ⟨root, hroot, hneeds⟩ := hn
    induction hneeds with
    | refl => exact .inl ⟨root, hroot, .refl⟩
    | tail _ hneeds ih => exact hl.closed _ _ ih hneeds
  rintro ⟨n, hn, hcycle⟩
  exact Nat.lt_irrefl _ (hpath (hlive hn) hcycle).2

section contracts

variable {gone : NodeId → Prop} {move : NodeId → NodeId}

/-- What is in use now was in use before. -/
theorem used_of_contracts (hc : Contracts h h' gone move) {n : NodeId}
    (hn : h'.isRetired n = false) : h.isRetired n = false := by
  obtain ⟨z, hz, hop⟩ := Graph.exists_shape hn
  obtain ⟨-, y, hy, rfl⟩ := hc.back hz hop
  exact Graph.isRetired_eq_false_iff.mpr ⟨y, hy, hop⟩

theorem solid_of_contracts (hc : Contracts h h' gone move) {n : NodeId} (hn : h'.Solid n) :
    h.Solid n := by
  obtain ⟨z, hz, hop, hbreaker⟩ := hn
  obtain ⟨-, y, hy, rfl⟩ := hc.back hz hop
  exact ⟨y, hy, hop, hbreaker⟩

theorem blockOf_of_contracts (hc : Contracts h h' gone move) {n b : NodeId}
    (hb : h'.blockOf n = some b) : h.blockOf n = some b := by
  obtain ⟨x, hx, hblock⟩ := Option.bind_eq_some_iff.mp hb
  obtain ⟨y, hy⟩ : ∃ y, h.shape? n = some y := by
    by_cases hn : gone n
    · have hz := hc.retires n hn
      rw [Graph.shape?_eq hx] at hz
      exact (Option.map_eq_some_iff.mp hz.symm).imp fun _ h => h.1
    · have hz := hc.moves n hn
      rw [Graph.shape?_eq hx] at hz
      exact (Option.map_eq_some_iff.mp hz.symm).imp fun _ h => h.1
  obtain ⟨z, hz, hkeep⟩ := hc.keeps hy
  rw [Graph.blockOf_of_shape hy, ← hkeep.block, ← Graph.blockOf_of_shape hz, hb]

theorem operand_of_contracts (hc : Contracts h h' gone move) {n m : NodeId}
    (hm : m ∈ h'.operands n) : ∃ o ∈ h.operands n, m = move o := by
  rw [hc.operands_eq (List.ne_nil_of_mem hm)] at hm
  obtain ⟨o, ho, rfl⟩ := List.mem_map.mp hm
  exact ⟨o, ho, rfl⟩

end contracts

/-- A node is retired and its users are moved on. The rank stays, if what they are moved to ranks
below them. -/
theorem Layered.contract (hl : Layered g rank h) {old : NodeId} {move : NodeId → NodeId}
    (hc : Contracts h h' (· = old) move) (hsize : h'.size = h.size)
    (hscope : h'.isRetired (move old) = false → Scope g (move old))
    (hrank : ∀ n, Scope g n → old ∈ h.operands n → h'.Solid (move old) →
      rank (move old) < rank n) : Layered g rank h' := by
  refine
    { mirrored := hc.mirrored
      size_le := hsize ▸ hl.size_le
      closed := fun n m hn hm => ?_
      operand := fun n m hn hm hsolid => ?_
      block := fun n b hn hb hlt hsolid =>
        hl.block n b hn (blockOf_of_contracts hc hb) hlt (solid_of_contracts hc hsolid)
      above := fun n hn hne => ?_
      fresh := fun n hn => hl.fresh n (hsize ▸ hn)
      enclosed := fun hg n b hn hb => hl.enclosed hg n b hn (blockOf_of_contracts hc hb) }
  · obtain ⟨hmem, hused⟩ := hm
    rcases Graph.mem_inputs_iff.mp hmem with hb | hmem
    · exact hl.closed n m hn
        ⟨Graph.mem_inputs_iff.mpr (.inl (blockOf_of_contracts hc hb)), used_of_contracts hc hused⟩
    · obtain ⟨o, ho, rfl⟩ := operand_of_contracts hc hmem
      by_cases hold : o = old
      · subst hold
        exact hscope hused
      · rw [hc.stays o hold] at hused ⊢
        exact hl.closed n o hn
          ⟨Graph.mem_inputs_iff.mpr (.inr ho), used_of_contracts hc hused⟩
  · obtain ⟨o, ho, rfl⟩ := operand_of_contracts hc hm
    by_cases hold : o = old
    · subst hold
      exact hrank n hn ho hsolid
    · rw [hc.stays o hold] at hsolid ⊢
      exact hl.operand n o hn ho (solid_of_contracts hc hsolid)
  · obtain ⟨m, hm⟩ := List.exists_mem_of_ne_nil _ hne
    obtain ⟨o, ho, -⟩ := operand_of_contracts hc hm
    exact hl.above n hn (List.ne_nil_of_mem ho)

section added

variable {op : Op} {mode : Mode} {b n : NodeId}
  (hadd : h.addNode op mode (some b) [] = .ok (n, h'))

include hadd

/-- A new node has no operands, and those of other nodes were there before. -/
theorem operand_of_addNode {m i : NodeId} (hi : i ∈ h'.operands m) :
    m ≠ n ∧ i ∈ h.operands m := by
  rw [Graph.operands_addNode hadd] at hi
  obtain ⟨y, hy, -⟩ := Graph.mem_operands_of_shape hi
  exact ⟨Graph.ne_of_addNode hadd hy, hi⟩

theorem blockOf_of_addNode {m i : NodeId} (hi : h'.blockOf m = some i) :
    m = n ∧ i = b ∨ m ≠ n ∧ h.blockOf m = some i := by
  by_cases hm : m = n
  · rw [hm, Graph.blockOf_of_shape (Graph.shape?_addNode_self hadd)] at hi
    cases hi
    exact .inl ⟨hm, rfl⟩
  · exact .inr ⟨hm, by rwa [Graph.blockOf_congr (Graph.shape?_addNode_of_ne hadd hm)] at hi⟩

theorem solid_of_addNode {m : NodeId} (hm : m ≠ n) (hs : h'.Solid m) : h.Solid m := by
  rwa [Graph.Solid, Graph.shape?_addNode_of_ne hadd hm] at hs

end added

/-- A new node without operands gets a rank above its block. -/
theorem Layered.addNode (hl : Layered g rank h) {op : Op} {mode : Mode} {b n : NodeId} {k : Nat}
    (hadd : h.addNode op mode (some b) [] = .ok (n, h'))
    (hscope : h.isRetired b = false → Scope g b)
    (hrank : b < g.size → h.Solid b → rank b < k) (henclosed : g.Enclosed → b < g.size) :
    Layered g (Function.update rank n k) h' := by
  obtain ⟨hn, hsize, -⟩ := Graph.addNode_eq_ok hadd
  have hlt {m : NodeId} (hm : m < g.size) : m ≠ n :=
    hn ▸ Nat.ne_of_lt (Nat.lt_of_lt_of_le hm hl.size_le)
  refine
    { mirrored := hl.mirrored.addNode hadd
      size_le := hsize ▸ Nat.le_succ_of_le hl.size_le
      closed := fun m i hm hi => ?_
      operand := fun m i hm hi hs => ?_
      block := fun m i hm hi hslot hs => ?_
      above := fun m hm hne => ?_
      fresh := fun m hm => ?_
      enclosed := fun hg m i hm hi => ?_ }
  · obtain ⟨hmem, hret⟩ := hi
    by_cases hi : i = n
    · exact .inr (.inl (by rw [hi, hn]; exact hl.size_le))
    · rw [Graph.isRetired_congr (Graph.shape?_addNode_of_ne hadd hi)] at hret
      rcases Graph.mem_inputs_iff.mp hmem with hmem | hmem
      · rcases blockOf_of_addNode hadd hmem with ⟨-, rfl⟩ | ⟨-, hmem⟩
        · exact hscope hret
        · exact hl.closed m i hm ⟨Graph.mem_inputs_iff.mpr (.inl hmem), hret⟩
      · exact hl.closed m i hm
          ⟨Graph.mem_inputs_iff.mpr (.inr (operand_of_addNode hadd hmem).2), hret⟩
  · obtain ⟨hm', hi⟩ := operand_of_addNode hadd hi
    have hi' : i ≠ n := hn ▸ Nat.ne_of_lt (hl.mirrored.lt_size hi)
    rw [Function.update_of_ne hi', Function.update_of_ne hm']
    exact hl.operand m i hm hi (solid_of_addNode hadd hi' hs)
  · rw [Function.update_of_ne (hlt hslot)]
    have hs := solid_of_addNode hadd (hlt hslot) hs
    rcases blockOf_of_addNode hadd hi with ⟨rfl, rfl⟩ | ⟨hm', hi⟩
    · rw [Function.update_self]
      exact hrank hslot hs
    · rw [Function.update_of_ne hm']
      exact hl.block m i hm hi hslot hs
  · obtain ⟨i, hi⟩ := List.exists_mem_of_ne_nil _ hne
    obtain ⟨hm', hi⟩ := operand_of_addNode hadd hi
    rw [Function.update_of_ne hm']
    exact hl.above m hm (List.ne_nil_of_mem hi)
  · have hm' : h.size < m := by omega
    rw [hn, Function.update_of_ne (Nat.ne_of_gt hm')]
    exact hl.fresh m (Nat.le_of_lt hm')
  · rcases blockOf_of_addNode hadd hi with ⟨-, rfl⟩ | ⟨-, hi⟩
    · exact henclosed hg
    · exact hl.enclosed hg m i hm hi

/-! ### Exchanges -/

theorem Spare.descend {m m' : Renaming} {n : NodeId} {rank' : NodeId → Nat}
    (hn : Spare g rank h m n) (hd : Descends h h') (hin : m'.lookup n = none)
    (hrank : rank' n = rank n) : Spare g rank' h' m' n := by
  obtain ⟨y, hy, hkind⟩ := hn.kind
  obtain ⟨z, hz, hkeep⟩ := hd n y hy
  have hop : z.op ≠ .retired → z.op = y.op := fun h => hkeep.op.resolve_right h
  refine ⟨hn.scope, ⟨z, hz, ?_⟩, fun hused => hrank.trans (hn.lowest ?_), hin⟩
  · rcases hkeep.op with heq | heq
    · rw [heq]
      exact hkind
    · rw [heq]
      rfl
  · obtain ⟨z', hz', hused⟩ := Graph.exists_shape hused
    cases hz.symm.trans hz'
    exact Graph.isRetired_eq_false_iff.mpr ⟨y, hy, hop hused ▸ hused⟩

/-- What may be put anywhere is of no kind that is replaced. -/
theorem Spare.ne {m : Renaming} {n old : NodeId} {y : Shape} (hn : Spare g rank h m n)
    (hy : h.shape? old = some y) (hkind : isReplaced y.op = true) : old ≠ n := by
  rintro rfl
  obtain ⟨z, hz, hfalse⟩ := hn.kind
  cases hy.symm.trans hz
  rw [hkind] at hfalse
  cases hfalse

theorem Ranked.entry_of_descends (hs : Ranked g rank s) {h' : Graph}
    (hd : Descends s.draft.graph h') :
    Anchor.startBlock < g.size ∧ ∃ y, h'.shape? Anchor.startBlock = some y ∧
      (y.op = .block ∧ Scope g Anchor.startBlock ∨ y.op = .retired) := by
  obtain ⟨hlt, y, hy, hkind⟩ := hs.entry
  obtain ⟨z, hz, hkeep⟩ := hd _ y hy
  refine ⟨hlt, z, hz, ?_⟩
  rcases hkeep.op with hop | hop
  · rw [hop]
    exact hkind
  · exact .inr hop

/-- An exchange with a node that is in its place and ranks below all users of the old one. -/
theorem Ranked.replace (hs : Ranked g rank s) {old new : NodeId} {y : Shape}
    (hrep : replace s old new = .ok s') (hy : s.draft.graph.shape? old = some y)
    (hkind : isReplaced y.op = true) (hne : old ≠ new) (hin : s.standIns.lookup new = none)
    (hscope : s.draft.graph.isRetired new = false → Scope g new)
    (hrank : ∀ n, Scope g n → old ∈ s.draft.graph.operands n → s.draft.graph.Solid new →
      rank new < rank n) :
    Ranked g rank s' ∧ Descends s.draft.graph s'.draft.graph ∧
      s'.standIns = (old, new) :: s.standIns := by
  obtain ⟨hex, hconstants, hstandIns⟩ := replace_eq_ok hrep
  rw [hs.direct.resolve_eq hin] at hex hstandIns
  have hstandIns : s'.standIns = (old, new) :: s.standIns := hstandIns
  have hc := Contracts.of_exchange hs.layered.mirrored hne hex
  have hold : s.standIns.lookup old = none := by
    by_contra hgone
    exact Graph.not_removed (used_of_kind hy hkind) (hs.gone old hgone)
  have hspare {n : NodeId} (hn : Spare g rank s.draft.graph s.standIns n) :
      Spare g rank s'.draft.graph s'.standIns n := by
    refine hn.descend hc.descends ?_ rfl
    rw [hstandIns]
    exact Renaming.lookup_cons_eq_none.mpr ⟨(hn.ne hy hkind).symm, hn.inPlace⟩
  have hmove : (if old = old then new else old) = new := if_pos rfl
  refine ⟨⟨?_, fun v c hmem => hspare (hs.constant v c (hconstants ▸ hmem)), hspare hs.bad,
    hs.entry_of_descends hc.descends, ?_, ?_, ?_⟩, hc.descends, hstandIns⟩
  · refine hs.layered.contract hc (Graph.size_exchange hs.layered.mirrored hex) ?_ ?_
    · rw [hmove]
      exact fun hused => hscope (used_of_contracts hc hused)
    · rw [hmove]
      exact fun n hn hmem hsolid => hrank n hn hmem (solid_of_contracts hc hsolid)
  · rw [hstandIns]
    exact .cons hs.direct hold hin hne
  · intro n hn
    rw [hstandIns] at hn
    by_cases heq : n = old
    · subst heq
      exact ⟨_, by rw [hc.retires n rfl, hy]; rfl, rfl⟩
    · refine hc.removed (hs.gone n fun hnone => hn ?_)
      exact Renaming.lookup_cons_eq_none.mpr ⟨heq, hnone⟩
  · intro n m hm
    rw [hstandIns]
    obtain ⟨o, ho, rfl⟩ := operand_of_contracts hc hm
    split
    next => exact Renaming.lookup_cons_eq_none.mpr ⟨Ne.symm hne, hin⟩
    next hother => exact Renaming.lookup_cons_eq_none.mpr ⟨hother, hs.moved n o ho⟩

/-- An exchange with a node that may be put anywhere. -/
theorem Ranked.replaceBySpare (hs : Ranked g rank s) {old new : NodeId} {y : Shape}
    (hrep : Substitution.replace s old new = .ok s') (hy : s.draft.graph.shape? old = some y)
    (hkind : isReplaced y.op = true) (hnew : Spare g rank s.draft.graph s.standIns new) :
    Ranked g rank s' ∧ Descends s.draft.graph s'.draft.graph ∧
      s'.standIns = (old, new) :: s.standIns := by
  refine hs.replace hrep hy hkind (hnew.ne hy hkind) hnew.inPlace (fun _ => hnew.scope) ?_
  intro n hn hmem hsolid
  rw [hnew.lowest hsolid.inUse]
  exact hs.layered.above n hn (List.ne_nil_of_mem hmem)

/-- A node that nothing uses is removed. -/
theorem Ranked.killUnused {n : NodeId} (h : killUnused s n = .ok s') (hs : Ranked g rank s) :
    Ranked g rank s' := by
  obtain ⟨y, hy, h⟩ := bind_eq_ok.mp h
  split at h
  next hempty =>
    obtain ⟨d, hd, h⟩ := bind_eq_ok.mp h
    cases h
    have hk := Draft.edit_eq_ok hd
    have hc := Contracts.of_kill hs.layered.mirrored hk
    have hgone : d.graph.Removed n :=
      ⟨_, by rw [hc.retires n rfl, Graph.shape?_eq (Graph.node_eq_ok hy)]; rfl, rfl⟩
    have hspare {m : NodeId} (hm : Spare g rank s.draft.graph s.standIns m) :
        Spare g rank d.graph s.standIns m :=
      hm.descend hc.descends hm.inPlace rfl
    refine ⟨hs.layered.contract hc (Graph.kill_eq_ok hk).2.1 (fun hused => ?_)
        (fun _ _ _ hsolid => ?_),
      fun v c hmem => hspare (hs.constant v c hmem), hspare hs.bad,
      hs.entry_of_descends hc.descends, hs.direct,
      fun m hm => hc.removed (hs.gone m hm), fun m o ho => ?_⟩
    · exact absurd hgone (Graph.not_removed hused)
    · exact absurd hgone (Graph.not_removed hsolid.inUse)
    · obtain ⟨o, ho, rfl⟩ := operand_of_contracts hc ho
      exact hs.moved m o ho
  next =>
    cases h
    exact hs

/-- A new node without operands gets a rank above its block. -/
theorem Ranked.addNode (hs : Ranked g rank s) {op : Op} {mode : Mode} {b n : NodeId} {k : Nat}
    {graph : Graph} (hadd : s.draft.graph.addNode op mode (some b) [] = .ok (n, graph))
    (hscope : s.draft.graph.isRetired b = false → Scope g b)
    (hrank : b < g.size → s.draft.graph.Solid b → rank b < k)
    (henclosed : g.Enclosed → b < g.size) :
    Ranked g (Function.update rank n k) { s with draft := { s.draft with graph } } ∧
      Scope g n ∧ s.standIns.lookup n = none := by
  have hlayered := hs.layered.addNode hadd hscope hrank henclosed
  have he := Extends.of_addNode hadd
  have hd : Descends s.draft.graph graph := descends_of_extends he
  obtain ⟨rfl, -⟩ := Graph.addNode_eq_ok hadd
  have hspare {m : NodeId} (hm : Spare g rank s.draft.graph s.standIns m) :
      Spare g (Function.update rank s.draft.graph.size k) graph s.standIns m := by
    obtain ⟨y, hy, -⟩ := hm.kind
    exact hm.descend hd hm.inPlace
      (Function.update_of_ne (Nat.ne_of_lt (Graph.lt_size_of_shape? hy)) _ _)
  refine ⟨⟨hlayered, fun v c hmem => hspare (hs.constant v c hmem), hspare hs.bad,
    hs.entry_of_descends hd, hs.direct, fun m hm => he.removed (hs.gone m hm), fun m i hi => ?_⟩,
    .inr (.inl hs.layered.size_le), ?_⟩
  · exact hs.moved m i (operand_of_addNode hadd hi).2
  · by_contra hgone
    obtain ⟨y, hy, -⟩ := hs.gone _ hgone
    exact Nat.lt_irrefl _ (Graph.lt_size_of_shape? hy)

theorem Ranked.constantNode (hs : Ranked g rank s) {v : Literal} {c : NodeId}
    (h : constantNode s v = .ok (c, s')) :
    Ranked g rank s' ∧ Spare g rank s'.draft.graph s'.standIns c ∧ s'.standIns = s.standIns ∧
      Extends s.draft.graph s'.draft.graph := by
  rcases constantNode_eq_ok h with ⟨rfl, hmem⟩ | ⟨graph, hadd, rfl⟩
  · exact ⟨hs, hs.constant v c hmem, rfl, fun n y hy => hy⟩
  · obtain ⟨hlt, y, hy, hentry⟩ := hs.entry
    -- The start block is a block, which needs no rank.
    have hadded := hs.addNode (k := 0) hadd
      (fun hused => by
        rcases hentry with ⟨-, hscope⟩ | hop
        · exact hscope
        · exact absurd ⟨y, hy, hop⟩ (Graph.not_removed hused))
      (fun _ ⟨z, hz, hop, hbreaker⟩ => by
        cases hy.symm.trans hz
        rcases hentry with ⟨hblock, -⟩ | hret
        · rw [hblock] at hbreaker
          cases hbreaker
        · exact absurd hret hop)
      (fun _ => hlt)
    obtain ⟨hn, -⟩ := Graph.addNode_eq_ok hadd
    have hrank : rank c = 0 := hs.layered.fresh c (Nat.le_of_eq hn.symm)
    rw [show Function.update rank c 0 = rank from Function.update_eq_self_iff.mpr hrank.symm]
      at hadded
    obtain ⟨hs', hscope, hin⟩ := hadded
    have hspare : Spare g rank graph s.standIns c :=
      ⟨hscope, ⟨_, Graph.shape?_addNode_self hadd, rfl⟩, fun _ => hrank, hin⟩
    refine ⟨{ hs' with constant := fun w m hmem => ?_ }, hspare, rfl, .of_addNode hadd⟩
    rcases List.mem_cons.mp hmem with heq | hmem
    · cases heq
      exact hspare
    · exact hs'.constant w m hmem

/-- A node is exchanged with a constant. -/
theorem Ranked.replaceByConstant (hs : Ranked g rank s) {n c : NodeId} {v : Literal} {s₁ : State}
    {y : Shape} (hc : Substitution.constantNode s v = .ok (c, s₁))
    (hrep : Substitution.replace s₁ n c = .ok s') (hy : s.draft.graph.shape? n = some y)
    (hkind : isReplaced y.op = true) :
    Ranked g rank s' ∧ Descends s.draft.graph s'.draft.graph ∧
      s'.standIns = (n, c) :: s.standIns := by
  obtain ⟨hs₁, hspare, hstandIns, he⟩ := hs.constantNode hc
  obtain ⟨hs', hd, hnext⟩ := hs₁.replaceBySpare hrep (he n y hy) hkind hspare
  exact ⟨hs', (descends_of_extends he).trans hd, hstandIns ▸ hnext⟩

/-! ### Visits -/

theorem Ranked.fold (hs : Ranked g rank s) {r : Solution} {pass : String} {n : NodeId} {x : Node}
    (h : fold r pass s n x = .ok s') (hx : s.draft.graph.nodes[n]? = some x)
    (hkind : isReplaced x.op = true) : Ranked g rank s' := by
  unfold Substitution.fold at h
  split at h
  next =>
    split at h
    next =>
      cases h
      exact hs
    next v _ =>
      obtain ⟨⟨c, s₁⟩, hc, h⟩ := bind_eq_ok.mp h
      obtain ⟨s₂, hrep, h⟩ := bind_eq_ok.mp h
      cases h
      exact { (hs.replaceByConstant hc hrep (Graph.shape?_eq hx) hkind).1 with }
  next =>
    cases h
    exact hs

/-- One user of a division is replaced, when the memory state `mem` that the division consumed is
in its place. -/
theorem Ranked.bypass (hs : Ranked g rank s) {v : Literal} {mem p : NodeId}
    (h : bypass v mem s p = .ok s') (hin : s.standIns.lookup mem = none)
    (hscope : s.draft.graph.isRetired mem = false → Scope g mem)
    (hproj : s.draft.graph.Solid p →
      p ≠ mem ∧ (Scope g p → s.draft.graph.Solid mem → rank mem < rank p)) :
    Ranked g rank s' ∧ Descends s.draft.graph s'.draft.graph ∧ s'.standIns.lookup mem = none := by
  obtain ⟨x, hx, h⟩ := bind_eq_ok.mp h
  have hshape := Graph.shape?_eq (Graph.node_eq_ok hx)
  split at h
  next hop =>
    have hsolid : s.draft.graph.Solid p :=
      ⟨_, hshape, by simp [Node.shape, hop], by rw [Node.shape, hop]; rfl⟩
    obtain ⟨hne, hbelow⟩ := hproj hsolid
    obtain ⟨hs', hd, hstandIns⟩ := hs.replace h hshape (by simp [Node.shape, hop, isReplaced]) hne
      hin hscope fun n hn hmem hsolid' => by
        have hp := hs.layered.closed n p hn ⟨Graph.mem_inputs_iff.mpr (.inr hmem), hsolid.inUse⟩
        exact (hbelow hp hsolid').trans (hs.layered.operand n p hn hmem hsolid)
    refine ⟨hs', hd, ?_⟩
    rw [hstandIns]
    exact Renaming.lookup_cons_eq_none.mpr ⟨hne.symm, hin⟩
  next hop =>
    have hsolid : s.draft.graph.Solid p :=
      ⟨_, hshape, by simp [Node.shape, hop], by rw [Node.shape, hop]; rfl⟩
    obtain ⟨⟨c, s₁⟩, hc, h⟩ := bind_eq_ok.mp h
    obtain ⟨hs', hd, hstandIns⟩ := hs.replaceByConstant hc h hshape
      (by simp [Node.shape, hop, isReplaced])
    refine ⟨hs', hd, ?_⟩
    rw [hstandIns]
    exact Renaming.lookup_cons_eq_none.mpr ⟨(hproj hsolid).1.symm, hin⟩
  next =>
    cases h
    exact ⟨hs, .refl _, hin⟩

theorem solid_of_descends (hd : Descends h h') {n : NodeId} (hn : n < h.size)
    (hsolid : h'.Solid n) : h.Solid n := by
  obtain ⟨z, hz, hop, hbreaker⟩ := hsolid
  obtain ⟨x, hx⟩ := Graph.exists_node_of_lt hn
  obtain ⟨z', hz', hkeep⟩ := hd n _ (Graph.shape?_eq hx)
  cases hz.symm.trans hz'
  have hop' := hkeep.op.resolve_right hop
  exact ⟨_, Graph.shape?_eq hx, hop' ▸ hop, hop' ▸ hbreaker⟩

/-- A division is taken out of the memory chain. -/
theorem Ranked.splice (hs : Ranked g rank s) {r : Solution} {pass : String} {t : NodeId} {x : Node}
    (ht : Scope g t) (h : splice r pass s t x = .ok s') (hx : s.draft.graph.nodes[t]? = some x)
    (hdiv : x.op.isDivision = true) : Ranked g rank s' := by
  have hl := hs.layered
  have htsolid : s.draft.graph.Solid t := by
    refine ⟨_, Graph.shape?_eq hx, fun hop => ?_, isLoopBreaker_of_division hdiv⟩
    rw [show x.op = .retired from hop] at hdiv
    cases hdiv
  unfold Substitution.splice at h
  split at h
  next v mem _ hhead =>
    obtain ⟨s₁, hloop, h⟩ := bind_eq_ok.mp h
    obtain ⟨s₂, hkill, h⟩ := bind_eq_ok.mp h
    cases h
    have hmem : mem ∈ s.draft.graph.operands t := by
      rw [Graph.operands_eq hx]
      exact List.mem_of_mem_head? hhead
    have hmemlt := hl.mirrored.lt_size hmem
    -- A projection ranks above the division, and that above the memory state it consumes.
    have habove {p : NodeId} (hp : p ∈ x.users) (hscope : Scope g p)
        (hsolid : s.draft.graph.Solid mem) : rank mem < rank p := by
      rw [← Graph.users_eq hx] at hp
      exact (hl.operand t mem ht hmem hsolid).trans
        (hl.operand p t hscope (hl.mirrored.mem_users.mp hp) htsolid)
    have hscope (hused : s.draft.graph.isRetired mem = false) : Scope g mem :=
      hl.closed t mem ht ⟨Graph.mem_inputs_iff.mpr (.inr hmem), hused⟩
    have hend := foldlM_eq_ok (I := fun _ u => Ranked g rank u ∧
        Descends s.draft.graph u.draft.graph ∧ u.standIns.lookup mem = none) hloop
      ⟨hs, .refl _, hs.moved t mem hmem⟩ fun seen p rest u u' hsplit hu hturn => by
        obtain ⟨hu, hd, hin⟩ := hu
        have hp : p ∈ x.users := by
          rw [hsplit]
          simp
        have hplt : p < s.draft.graph.size := hl.mirrored.user_lt hx p hp
        have hne (hsolid : u.draft.graph.Solid p) : p ≠ mem := by
          rintro rfl
          have hsolid := solid_of_descends hd hplt hsolid
          exact Nat.lt_irrefl _ (habove hp (hscope hsolid.inUse) hsolid)
        obtain ⟨hu', hd', hin'⟩ := hu.bypass hturn hin
          (fun hused => hscope (Cleanup.used_of_descends hd hmemlt hused))
          fun hsolid => ⟨hne hsolid, fun hpscope hmsolid =>
            habove hp hpscope (solid_of_descends hd hmemlt hmsolid)⟩
        exact ⟨hu', hd.trans hd', hin'⟩
    exact { hend.1.killUnused hkill with }
  next =>
    cases h
    exact hs

/-- An arm becomes a jump, which ranks as the arm did, or dead control. -/
theorem Ranked.foldArm (hs : Ranked g rank s) {r : Solution} {pass : String} {n : NodeId} {x : Node}
    {side : Bool} (hn : Scope g n) (h : foldArm r pass s n x side = .ok s')
    (hx : s.draft.graph.nodes[n]? = some x) (hop : x.op = .proj (.arm side)) :
    ∃ rank', Ranked g rank' s' := by
  have hshape := Graph.shape?_eq hx
  have hkind : isReplaced x.shape.op = true := by simp [Node.shape, hop, isReplaced]
  have hsolid : s.draft.graph.Solid n :=
    ⟨_, hshape, by simp [Node.shape, hop], by rw [Node.shape, hop]; rfl⟩
  unfold Substitution.foldArm at h
  split at h
  next =>
    cases h
    exact ⟨rank, hs⟩
  next branch _ =>
    split at h
    next selected b _ hxb =>
      split at h
      next =>
        obtain ⟨⟨j, graph⟩, hadd, h⟩ := bind_eq_ok.mp h
        obtain ⟨s₁, hrep, h⟩ := bind_eq_ok.mp h
        have hb : s.draft.graph.blockOf n = some b := by rw [Graph.blockOf_eq hx, hxb]
        obtain ⟨hs₀, hscope, hin⟩ := hs.addNode (k := rank n) hadd
          (fun hused => hs.layered.closed n b hn ⟨Graph.mem_inputs_iff.mpr (.inl hb), hused⟩)
          (fun hlt hbsolid => hs.layered.block n b hn hb hlt hbsolid)
          (fun hg => hs.layered.enclosed hg n b hn hb)
        have hne : n ≠ j := by
          rw [(Graph.addNode_eq_ok hadd).1]
          exact Nat.ne_of_lt (Graph.lt_size_of_shape? hshape)
        have he := Extends.of_addNode hadd
        obtain ⟨hs₁, -⟩ := hs₀.replace hrep (he n _ hshape) hkind hne hin (fun _ => hscope)
          fun m hm hmem _ => by
            have hlt := hs₀.layered.operand m n hm hmem
              ⟨_, he n _ hshape, by simp [Node.shape, hop], by rw [Node.shape, hop]; rfl⟩
            rw [Function.update_of_ne hne] at hlt
            rwa [Function.update_self]
        exact ⟨_, .killUnused h { hs₁ with }⟩
      next =>
        obtain ⟨s₁, hrep, h⟩ := bind_eq_ok.mp h
        obtain ⟨hs₁, -⟩ := hs.replaceBySpare hrep hshape hkind hs.bad
        exact ⟨rank, hs₁.killUnused h⟩
    next =>
      cases h
      exact ⟨rank, hs⟩

/-- One visit keeps the graph free of knots. -/
theorem Ranked.visit (hs : Ranked g rank s) {r : Solution} {pass : String} {n : NodeId}
    (hn : Scope g n) (h : visit r pass s n = .ok s') : ∃ rank', Ranked g rank' s' := by
  obtain ⟨x, hx, h⟩ := bind_eq_ok.mp h
  have hx := Graph.node_eq_ok hx
  cases hop : x.op with
  | proj k =>
    cases k with
    | arm side =>
      simp only [hop] at h
      exact hs.foldArm hn h hx hop
    | _ =>
      simp only [hop] at h
      cases h
      exact ⟨rank, hs⟩
  | div | mod =>
    simp only [hop] at h
    exact ⟨rank, hs.splice hn h hx (by rw [hop]; rfl)⟩
  | phi | binary | cmp | minus | not | conv =>
    simp only [hop] at h
    exact ⟨rank, hs.fold h hx (by rw [hop]; rfl)⟩
  | _ =>
    simp only [hop] at h
    cases h
    exact ⟨rank, hs⟩

/-! ### The pass -/

/-- Nodes to come, and constants and dead control of the start block. -/
def Lowest (g : Graph) (n : NodeId) : Prop :=
  g.size ≤ n ∨ ∃ x, g.shape? n = some x ∧ ((∃ v, x.op = .const v) ∨ x.op = .bad) ∧
    x.block = some Anchor.startBlock

theorem Lowest.operands_eq {n : NodeId} (hn : Lowest g n) (hleaf : g.LeavesBare) :
    g.operands n = [] := by
  rcases hn with hsize | ⟨x, hx, hop, -⟩
  · exact Graph.operands_of_size_le hsize
  · rw [Graph.operands_eq_of_shape hx]
    exact hleaf n x hx hop

theorem Lowest.blockOf_eq {n b : NodeId} (hn : Lowest g n) (hb : g.blockOf n = some b) :
    b = Anchor.startBlock := by
  rcases hn with hsize | ⟨x, hx, -, hblock⟩
  · rw [Graph.blockOf, Graph.getElem?_eq_none_of_size_le hsize] at hb
    cases hb
  · rw [Graph.blockOf_of_shape hx, hblock] at hb
    exact (Option.some.inj hb).symm

theorem live_of_scope {n : NodeId} (hn : Scope g n) (hlow : ¬ Lowest g n) : g.Live n := by
  rcases hn with hlive | hsize | ⟨v, x, hx, hop, hblock⟩
  · exact hlive
  · exact absurd (.inl hsize) hlow
  · exact absurd (.inr ⟨x, hx, .inl ⟨v, hop⟩, hblock⟩) hlow

open Classical in
/-- The rank before the pass begins: what ranks lowest apart, the place in the order of the walk. -/
noncomputable def firstRank (g : Graph) (w : Walk) (n : NodeId) : Nat :=
  if Lowest g n then 0 else w.order.idxOf n + 1

section first

variable {w : Walk}

theorem firstRank_eq_zero {n : NodeId} (hn : Lowest g n) : firstRank g w n = 0 := if_pos hn

theorem firstRank_pos {n : NodeId} (hn : ¬ Lowest g n) : 0 < firstRank g w n := by
  rw [firstRank, if_neg hn]
  exact Nat.succ_pos _

theorem firstRank_lt (hw : Walk.Complete g w) {n m : NodeId} (hn : Scope g n)
    (hnot : ¬ Lowest g n) (hb : g.Binds n m) : firstRank g w m < firstRank g w n := by
  have hlt := (hw.binds (live_of_scope hn hnot) hb).2
  rw [firstRank, firstRank, if_neg hnot]
  split <;> omega

theorem not_lowest_of_operand (hleaf : g.LeavesBare) {n m : NodeId} (hm : m ∈ g.operands n) :
    ¬ Lowest g n := by
  intro hn
  rw [hn.operands_eq hleaf] at hm
  cases hm

theorem live_startBlock (hg : g.Built) (hused : g.isRetired Anchor.startBlock = false) :
    g.Live Anchor.startBlock := by
  obtain ⟨x, hx, hkeep⟩ := hg.keeps_anchor (i := Anchor.start) rfl
  have hstart : g.Live Anchor.start := ⟨Anchor.start, by simp, .refl⟩
  refine hstart.needs ⟨Graph.mem_inputs_iff.mpr (.inl ?_), hused⟩
  exact (Graph.blockOf_of_shape hx).trans hkeep.block

theorem not_solid_startBlock (hg : g.Built) : ¬ g.Solid Anchor.startBlock := by
  obtain ⟨y, hy, hkeep⟩ := hg.keeps_anchor (i := Anchor.startBlock) rfl
  rintro ⟨x, hx, hop, hbreaker⟩
  cases hy.symm.trans hx
  rw [hkeep.op.resolve_right hop] at hbreaker
  cases hbreaker

theorem layered_firstRank (hg : g.Built) (hleaf : g.LeavesBare) (hw : Walk.Complete g w) :
    Layered g (firstRank g w) g := by
  refine
    { mirrored := hg.mirrored
      size_le := Nat.le_refl _
      closed := fun n m hn hm => ?_
      operand := fun n m hn hm hs =>
        firstRank_lt hw hn (not_lowest_of_operand hleaf hm) (Graph.binds_iff.mpr ⟨.inr hm, hs⟩)
      block := fun n b hn hb _ hs => firstRank_lt hw hn
        (fun hlow => not_solid_startBlock hg (hlow.blockOf_eq hb ▸ hs))
        (Graph.binds_iff.mpr ⟨.inl hb, hs⟩)
      above := fun n hn hne => ?_
      fresh := fun n hn => firstRank_eq_zero (.inl hn)
      enclosed := fun he n b hn hb => ?_ }
  · by_cases hlow : Lowest g n
    · obtain ⟨hmem, hret⟩ := hm
      rcases Graph.mem_inputs_iff.mp hmem with hb | hmem
      · obtain rfl := hlow.blockOf_eq hb
        exact .inl (live_startBlock hg hret)
      · exact absurd hlow (not_lowest_of_operand hleaf hmem)
    · exact .inl ((live_of_scope hn hlow).needs hm)
  · obtain ⟨m, hm⟩ := List.exists_mem_of_ne_nil _ hne
    exact firstRank_pos (not_lowest_of_operand hleaf hm)
  · by_cases hlow : Lowest g n
    · obtain ⟨y, hy, -⟩ := hg.keeps_anchor (i := Anchor.startBlock) rfl
      rw [hlow.blockOf_eq hb]
      exact Graph.lt_size_of_shape? hy
    · obtain ⟨x, hx, hblock⟩ := Option.bind_eq_some_iff.mp hb
      exact he n _ b (live_of_scope hn hlow) (Graph.shape?_eq hx) hblock

/-- Before the pass begins, the order of the walk ranks the nodes. -/
theorem ranked_firstRank (hg : g.Built) (hleaf : g.LeavesBare) (hw : Walk.Complete g w)
    {d : Draft} (hd : d.graph = g) : Ranked g (firstRank g w) (.ofDraft d) := by
  subst hd
  obtain ⟨y, hy, hkeep⟩ := hg.keeps_anchor (i := Anchor.startBlock) rfl
  obtain ⟨u, hu, hukeep⟩ := hg.keeps_anchor (i := Anchor.bad) rfl
  refine ⟨layered_firstRank hg hleaf hw, fun v c hmem => ?_, ?_, ⟨?_, y, hy, ?_⟩, .nil,
    fun n hn => absurd rfl hn, fun _ _ _ => rfl⟩
  · obtain ⟨x, hx, hop, hblock⟩ := mem_knownConstants hmem
    exact ⟨.inr (.inr ⟨v, x, hx, hop, hblock⟩), ⟨x, hx, by rw [hop]; rfl⟩,
      fun _ => firstRank_eq_zero (.inr ⟨x, hx, .inl ⟨v, hop⟩, hblock⟩), rfl⟩
  · refine ⟨.inl ⟨Anchor.bad, by simp, .refl⟩, ⟨u, hu, ?_⟩,
      fun hret => firstRank_eq_zero (.inr ⟨u, hu, ?_⟩), rfl⟩
    · rcases hukeep.op with hop | hop <;> rw [hop] <;> rfl
    · refine ⟨.inr (hukeep.op.resolve_right fun hop => ?_), hukeep.block⟩
      exact Graph.not_removed hret ⟨u, hu, hop⟩
  · exact Graph.lt_size_of_shape? hy
  · refine hkeep.op.imp (fun hop => ⟨hop, .inl (live_startBlock hg ?_)⟩) id
    refine Graph.isRetired_eq_false_iff.mpr ⟨y, hy, ?_⟩
    rw [hop]
    decide

end first

/-- A pass keeps the graph free of knots. -/
theorem exists_ranked_of_foldlM (hg : g.Built) (hleaf : g.LeavesBare) {w : Walk}
    (hw : Walk.Complete g w) {r : Solution} {pass : String} {log : EventLog}
    (h : w.order.foldlM (visit r pass) (.ofDraft { graph := g, log }) = .ok s) :
    ∃ rank, Ranked g rank s :=
  foldlM_eq_ok (I := fun _ s => ∃ rank, Ranked g rank s) h ⟨_, ranked_firstRank hg hleaf hw rfl⟩
    fun done n rest u u' hsplit ⟨_, hu⟩ hturn => by
      have hn : n ∈ w.order := by
        rw [hsplit]
        simp
      exact hu.visit (.inl ((hw.mem_order n).mp hn)) hturn

/-- The pass fails exactly if the walk fails. -/
theorem run_fails_iff (hg : g.Built) (r : Solution) (pass : String) (log : EventLog) :
    (∃ e d, run r pass { graph := g, log } = .error e d) ↔ ∃ e, Walk.run g = .error e := by
  constructor
  · rintro ⟨e, d, hrun⟩
    cases hwalk : Walk.run g with
    | error e => exact ⟨e, rfl⟩
    | ok w =>
      obtain ⟨c, d', hok⟩ := exists_run (d := { graph := g, log }) hg.mirrored hg.bad_lt_size hwalk
        r pass
      cases hrun.symm.trans hok
  · rintro ⟨e, hwalk⟩
    refine ⟨e, { graph := g, log }, ?_⟩
    rw [run, Editing.change, bind_of_error hwalk]

/-- Whatever facts it is given, substituting them fails only where the walk fails. The exchanges
that it has made at any time lead from every node to the one that stands in for it, which was not
exchanged, and never back; no node is exchanged with itself. If the blocks of live nodes have slots,
what it leaves can be walked again. -/
theorem run_ties_no_knot (hg : g.Built) (hleaf : g.LeavesBare) (r : Solution) (pass : String)
    (log : EventLog) :
    ((∃ e d, run r pass { graph := g, log } = .error e d) ↔ ∃ e, Walk.run g = .error e) ∧
      ∀ c d, run r pass { graph := g, log } = .ok c d →
        ∃ w s, Walk.run g = .ok w ∧
          w.order.foldlM (visit r pass) (.ofDraft { graph := g, log }) = .ok s ∧
          s.counts = c ∧ s.draft = d ∧
          (∀ m : Renaming, m <:+ s.standIns → m.Acyclic ∧ ∀ n, m.LeadsTo n (m.resolve n)) ∧
          (∀ old new, (old, new) ∈ s.standIns → old ≠ new) ∧
          (g.Enclosed → ∃ w', Walk.run d.graph = .ok w') := by
  refine ⟨run_fails_iff hg r pass log, fun c d h => ?_⟩
  obtain ⟨w, hw, h⟩ := bind_eq_ok.mp (Editing.change_eq_ok h)
  obtain ⟨s, hs, h⟩ := bind_eq_ok.mp h
  cases h
  obtain ⟨rank, hr⟩ := exists_ranked_of_foldlM hg hleaf (Walk.complete_of_run hw) hs
  refine ⟨w, s, hw, hs, rfl, rfl, fun m hm => ?_, fun old new => hr.direct.ne, fun he => ?_⟩
  · exact ⟨(hr.direct.suffix hm).acyclic, (hr.direct.suffix hm).leadsTo⟩
  · exact Walk.exists_run (Nat.lt_of_lt_of_le hg.bad_lt_size hr.layered.size_le)
      (hr.layered.not_knotted he)

/-! ### Facts about an earlier graph -/

def checkLeaf (x : Node) : Bool :=
  match x.op with
  | .const _ | .bad => x.operands.isEmpty
  | _ => true

theorem leavesBare_of_check (h : g.nodes.all checkLeaf = true) : g.LeavesBare := by
  intro n x hx hop
  obtain ⟨y, hy, rfl⟩ := Option.map_eq_some_iff.mp hx
  have hy := Array.all_eq_true'.mp h y (Array.mem_of_getElem? hy)
  rcases hop with ⟨v, hop⟩ | hop
  · have hop : y.op = .const v := hop
    simpa [checkLeaf, Node.shape, hop] using hy
  · have hop : y.op = .bad := hop
    simpa [checkLeaf, Node.shape, hop] using hy

theorem enclosed_of_check (h : (g.nodes.all fun x => x.block.all (· < g.size)) = true) :
    g.Enclosed := by
  intro n x b _ hx hb
  obtain ⟨y, hy, rfl⟩ := Option.map_eq_some_iff.mp hx
  have hb : y.block = some b := hb
  simpa [hb] using Array.all_eq_true'.mp h y (Array.mem_of_getElem? hy)

/-- A division by 5 in the block 8, with the phi 9 for the memory state it consumes. -/
def countedDivision : List Edit :=
  [.addNode (.const (.ofInt .i32 10)) (.int .i32) (some Anchor.startBlock) [],
    .addNode (.const (.ofInt .i32 5)) (.int .i32) (some Anchor.startBlock) [],
    .addNode .jump .control (some Anchor.startBlock) [],
    .addNode .block .block none [7],
    .addNode .phi (.int .i32) (some 8) [5],
    .addNode .div .tuple (some 8) [9, 5, 6],
    .addNode (.proj .memory) .memory (some 8) [10],
    .keepAlive 9,
    .keepAlive 11]

/-- The block becomes a loop, in which the state 11 that the division makes comes around. -/
def closedLoop : List Edit :=
  [.addNode .jump .control (some 8) [],
    .addOperand 8 12,
    .addOperand 9 11]

/-- Facts from before the loop was closed: the phi stands in for the state, and a constant for the
phi. -/
theorem run_ties_no_knot_closedLoop :
    ∃ (g₀ : Graph) (r : Solution) (g : Graph) (c : Counts) (d : Draft) (s : State) (w' : Walk),
      countedDivision.foldlM Graph.apply (.new "f" 0) = .ok g₀ ∧
      g₀.analyze = .ok r ∧ closedLoop.foldlM Graph.apply g₀ = .ok g ∧ g.LeavesBare ∧
      g.Enclosed ∧ run r "fold" { graph := g } = .ok c d ∧ s.draft = d ∧
      s.standIns = [(9, 5), (11, 9)] ∧ s.standIns.LeadsTo 11 5 ∧ s.standIns.Acyclic ∧
      Walk.run d.graph = .ok w' := by
  have hok : (do
      let g₀ ← countedDivision.foldlM Graph.apply (.new "f" 0)
      let r ← g₀.analyze
      let g ← closedLoop.foldlM Graph.apply g₀
      let w ← Walk.run g
      let s ← w.order.foldlM (visit r "fold") (.ofDraft { graph := g })
      return (g.nodes.all checkLeaf, (g.nodes.all fun x => x.block.all (· < g.size)),
        s.standIns)) = Except.ok (true, true, [(9, 5), (11, 9)]) := by
    decide +kernel
  obtain ⟨g₀, hg₀, hok⟩ := bind_eq_ok.mp hok
  obtain ⟨r, hr, hok⟩ := bind_eq_ok.mp hok
  obtain ⟨g, hg, hok⟩ := bind_eq_ok.mp hok
  obtain ⟨w, hw, hok⟩ := bind_eq_ok.mp hok
  obtain ⟨s, hs, hok⟩ := bind_eq_ok.mp hok
  obtain ⟨hleaf, hok⟩ := Prod.mk.inj (Except.ok.inj hok)
  obtain ⟨henclosed, hstandIns⟩ := Prod.mk.inj hok
  have hbuilt : g.Built := ((Graph.Built.new "f" 0).foldlM hg₀).foldlM hg
  obtain ⟨c, d, hrun⟩ := exists_run (d := { graph := g }) hbuilt.mirrored hbuilt.bad_lt_size hw r
    "fold"
  obtain ⟨w₁, s₁, hw₁, hs₁, -, hd, hstand, -, hagain⟩ :=
    (run_ties_no_knot hbuilt (leavesBare_of_check hleaf) r "fold" {}).2 c d hrun
  cases hw.symm.trans hw₁
  cases hs.symm.trans hs₁
  obtain ⟨w', hw'⟩ := hagain (enclosed_of_check henclosed)
  obtain ⟨hacyclic, hleads⟩ := hstand s.standIns List.suffix_rfl
  refine ⟨g₀, r, g, c, d, s, w', hg₀, hr, hg, leavesBare_of_check hleaf,
    enclosed_of_check henclosed, hrun, hd, hstandIns, ?_, hacyclic, hw'⟩
  have h := hleads 11
  rw [hstandIns] at h ⊢
  exact h

/-- A branch on a constant. -/
def keptBranch : List Edit :=
  [.addNode (.const (.bool true)) .bool (some Anchor.startBlock) [],
    .addNode .cond .tuple (some Anchor.startBlock) [5],
    .keepAlive 6]

/-- An arm of it whose block, 8, has no slot yet. -/
def strayArm : List Edit :=
  [.addNode (.proj (.arm true)) .control (some 8) [6],
    .keepAlive 7]

/-- The jump that takes the place of an arm is the next node. If the block of the arm is the slot
after the last, the jump stands in itself, and that is a knot. -/
theorem run_ties_knot :
    ∃ g₀ r g w c d e, keptBranch.foldlM Graph.apply (.new "f" 0) = .ok g₀ ∧
      g₀.analyze = .ok r ∧ strayArm.foldlM Graph.apply g₀ = .ok g ∧ g.Built ∧ g.LeavesBare ∧
      Walk.run g = .ok w ∧ run r "fold" { graph := g } = .ok c d ∧
      Walk.run d.graph = .error e := by
  have hok : (do
      let g₀ ← keptBranch.foldlM Graph.apply (.new "f" 0)
      let r ← g₀.analyze
      let g ← strayArm.foldlM Graph.apply g₀
      let w ← Walk.run g
      return (g.nodes.all checkLeaf, match run r "fold" { graph := g } with
        | .ok _ d => (Walk.run d.graph).isOk
        | .error _ _ => true)) = Except.ok (true, false) := by
    decide +kernel
  obtain ⟨g₀, hg₀, hok⟩ := bind_eq_ok.mp hok
  obtain ⟨r, hr, hok⟩ := bind_eq_ok.mp hok
  obtain ⟨g, hg, hok⟩ := bind_eq_ok.mp hok
  obtain ⟨w, hw, hok⟩ := bind_eq_ok.mp hok
  obtain ⟨hleaf, hend⟩ := Prod.mk.inj (Except.ok.inj hok)
  have hbuilt : g.Built := ((Graph.Built.new "f" 0).foldlM hg₀).foldlM hg
  obtain ⟨c, d, hrun⟩ := exists_run (d := { graph := g }) hbuilt.mirrored hbuilt.bad_lt_size hw r
    "fold"
  rw [hrun] at hend
  obtain ⟨e, he⟩ := exists_of_not_isOk hend
  exact ⟨g₀, r, g, w, c, d, e, hg₀, hr, hg, hbuilt, leavesBare_of_check hleaf, hw, hrun, he⟩

end Substitution

end SeaOfNodes
