import SeaOfNodes.Proofs.Constraints
import SeaOfNodes.Proofs.Worklist

/-!
Constant propagation finds the least solution of its constraints.

A visit does one of five things (`Move`): it finds its constraint satisfied, queues the phis of a
block, makes a block reachable, takes an edge, or raises a fact. Two promises are kept by each of
them. No fact, edge or block goes beyond what every solution says, because the right-hand sides
are monotone. And a node whose constraint is violated waits, or is a phi whose block waits, because
whatever a constraint reads has the node among those it queues. When nothing waits any more, what
was found is a solution, and no solution says less (`analyze_least`).
-/

namespace SeaOfNodes

namespace Propagation

/-- What a state of the analysis says. -/
def assignment (s : Propagation) : Assignment where
  value := s.value
  taken := s.tracker.isTaken
  reachable := s.tracker.isReachable

/-! ### The analysis computes the right-hand sides -/

theorem isEntered_eq (s : Propagation) (x : Node) : s.isEntered x = s.assignment.enters x := by
  unfold isEntered Assignment.enters
  cases x.block <;> rfl

theorem operand_eq (s : Propagation) (x : Node) (i : Nat) :
    s.operand x i = s.assignment.operand x i := by
  unfold operand Assignment.operand
  cases x.operands[i]? <;> rfl

theorem mergePhi_eq (s : Propagation) (x : Node) (preds : List NodeId) :
    s.mergePhi x preds = (s.assignment.arriving preds x).foldl Fact.meet .unknown := by
  unfold mergePhi Assignment.arriving
  rw [List.foldl_map, List.foldl_filter]
  simp only [operand_eq]
  rfl

theorem isQuotient_eq_ok {g : Graph} {x : Node} {quotient : Bool}
    (h : isQuotient g x = .ok quotient) :
    quotient = (x.operands.head?.bind fun t => g.nodes[t]?).any fun t => t.op.isDivision := by
  unfold isQuotient at h
  split at h
  next hnone =>
    cases h
    rw [hnone]
    rfl
  next tuple hhead =>
    obtain ⟨y, hy, h⟩ := bind_eq_ok.mp h
    cases h
    rw [hhead, Option.bind_some, Graph.node_eq_ok hy]
    rfl

theorem isComputed_eq_ok {g : Graph} {x : Node} {computed : Bool}
    (h : isComputed g x = .ok computed) : computed = g.computes x := by
  obtain ⟨op, mode, block, operands, users⟩ := x
  cases op with
  | proj kind =>
    cases kind with
    | result => exact isQuotient_eq_ok h
    | _ =>
      cases h
      rfl
  | _ =>
    cases h
    rfl

/-- A node in a reachable block is evaluated to what follows from the facts found. -/
theorem evaluate_eq_ok {g : Graph} {s : Propagation} {x : Node} {v : Fact}
    (h : evaluate g s x = .ok v) (hin : s.isEntered x = true) :
    v = s.assignment.transfer g x := by
  obtain ⟨op, mode, block, operands, users⟩ := x
  cases op with
  | phi =>
    cases block with
    | none => cases hin
    | some b =>
      obtain ⟨y, hy, h⟩ := bind_eq_ok.mp h
      cases h
      rw [mergePhi_eq, ← Graph.operands_eq (Graph.node_eq_ok hy)]
      rfl
  | proj kind =>
    cases kind with
    | result =>
      cases h
      exact operand_eq s _ 0
    | _ =>
      cases h
      rfl
  | _ =>
    cases h
    first
      | rfl
      | simp only [operand_eq]
        rfl

theorem opens_iff {side : Bool} {v : Fact} : opens side v = true ↔ v.Admits side := by
  cases v with
  | unknown => simp [opens, Fact.Admits]
  | varying => simp [opens, Fact.Admits]
  | constant c => cases hc : c.toBool? <;> simp [opens, Fact.Admits, hc]

end Propagation

/-! ### One constraint at a time -/

namespace Assignment

/-- The constraints that ask for something about the node `n`. -/
structure Holds (g : Graph) (a : Assignment) (n : NodeId) (x : Node) : Prop where
  enter : x.op = .block → n = Anchor.startBlock ∨ (∃ e ∈ x.operands, a.taken e = true) →
    a.reachable n = true
  leave : x.op = .jump ∨ x.op = .ret → a.enters x = true → a.taken n = true
  choose : ∀ side, x.op = .proj (.arm side) → a.enters x = true → (a.operand x 0).Admits side →
    a.taken n = true
  compute : g.computes x = true → a.enters x = true → (a.transfer g x).le (a.value n) = true

theorem not_block_of_computes {g : Graph} {x : Node} (h : g.computes x = true) :
    x.op ≠ .block := by
  intro hop
  simp [Graph.computes, hop] at h

/-- The kinds that compute facts have one constraint. -/
theorem Holds.of_computes {g : Graph} {a : Assignment} {n : NodeId} {x : Node}
    (h : g.computes x = true) (hle : (a.transfer g x).le (a.value n) = true) : a.Holds g n x where
  enter hop := absurd hop (not_block_of_computes h)
  leave hop := by rcases hop with hop | hop <;> simp [Graph.computes, hop] at h
  choose side hop := by simp [Graph.computes, hop] at h
  compute _ _ := hle

/-- Nothing is asked of a node outside the reachable blocks. -/
theorem Holds.of_not_enters {g : Graph} {a : Assignment} {n : NodeId} {x : Node}
    (hop : x.op ≠ .block) (h : a.enters x = false) : a.Holds g n x where
  enter hop' := absurd hop' hop
  leave _ hin := by simp [h] at hin
  choose _ _ hin := by simp [h] at hin
  compute _ hin := by simp [h] at hin

theorem Holds.of_block {g : Graph} {a : Assignment} {n : NodeId} {x : Node} (hop : x.op = .block)
    (h : n = Anchor.startBlock ∨ (∃ e ∈ x.operands, a.taken e = true) → a.reachable n = true) :
    a.Holds g n x where
  enter _ := h
  leave hop' := by rcases hop' with hop' | hop' <;> simp [hop] at hop'
  choose side hop' := by simp [hop] at hop'
  compute hc := absurd hop (not_block_of_computes hc)

/-- The fact about `n` is `v`. -/
def raise (a : Assignment) (n : NodeId) (v : Fact) : Assignment :=
  { a with value := fun i => if i = n then v else a.value i }

def take (a : Assignment) (n : NodeId) : Assignment :=
  { a with taken := fun i => decide (i = n) || a.taken i }

def reach (a : Assignment) (n : NodeId) : Assignment :=
  { a with reachable := fun i => decide (i = n) || a.reachable i }

variable {g : Graph} {a : Assignment} {n m : NodeId} {x : Node} {v : Fact}

theorem operand_raise (h : n ∉ x.operands) (i : Nat) :
    (a.raise n v).operand x i = a.operand x i := by
  unfold operand
  cases ho : x.operands[i]? with
  | none => rfl
  | some o =>
    have hne : o ≠ n := fun heq => h (heq ▸ List.mem_of_getElem? ho)
    exact if_neg hne

theorem transfer_raise (h : n ∉ x.operands) : (a.raise n v).transfer g x = a.transfer g x := by
  have harriving (preds : List NodeId) :
      (a.raise n v).arriving preds x = a.arriving preds x := by
    unfold arriving
    refine List.map_congr_left fun e _ => operand_raise h e.2
  unfold transfer
  simp only [operand_raise h, harriving]

theorem transfer_take (h : x.op = .phi → n ∉ x.block.elim [] g.operands) :
    (a.take n).transfer g x = a.transfer g x := by
  obtain ⟨op, mode, block, operands, users⟩ := x
  cases op with
  | phi =>
    have harriving : (a.take n).arriving (block.elim [] g.operands) ⟨.phi, mode, block, operands, users⟩ =
        a.arriving (block.elim [] g.operands) ⟨.phi, mode, block, operands, users⟩ := by
      unfold arriving
      congr 1
      refine List.filter_congr fun e he => ?_
      have hne : e.1 ≠ n := by
        intro heq
        exact h rfl (heq ▸ List.fst_mem_of_mem_zipIdx he)
      simp [Assignment.take, hne]
    show List.foldl _ _ ((a.take n).arriving _ _) = List.foldl _ _ (a.arriving _ _)
    rw [harriving]
  | proj kind => cases kind <;> rfl
  | _ => rfl

/-- Raising a fact leaves the constraints that do not read it alone. -/
theorem Holds.raise (h : a.Holds g m x) (hne : m ≠ n) (hn : n ∉ x.operands) :
    (a.raise n v).Holds g m x where
  enter := h.enter
  leave := h.leave
  choose side hop hin hadmits := h.choose side hop hin (operand_raise hn 0 ▸ hadmits)
  compute hc hin := by
    rw [transfer_raise hn]
    show (a.transfer g x).le (if m = n then v else a.value m) = true
    rw [if_neg hne]
    exact h.compute hc hin

/-- Taking an edge leaves alone the constraints of other nodes than the blocks it enters and the
phis of those. -/
theorem Holds.take (h : a.Holds g m x) (hblock : x.op = .block → n ∉ x.operands)
    (hphi : x.op = .phi → n ∉ x.block.elim [] g.operands) : (a.take n).Holds g m x where
  enter hop hcause := by
    refine h.enter hop (hcause.imp id ?_)
    rintro ⟨e, he, htaken⟩
    have hne : e ≠ n := fun heq => hblock hop (heq ▸ he)
    exact ⟨e, he, by simpa [Assignment.take, hne] using htaken⟩
  leave hop hin := by
    have := h.leave hop hin
    simp [Assignment.take, this]
  choose side hop hin hadmits := by
    have := h.choose side hop hin hadmits
    simp [Assignment.take, this]
  compute hc hin := by
    rw [transfer_take hphi]
    exact h.compute hc hin

/-- Making a block reachable leaves alone the constraints of nodes that do not stand in it. -/
theorem Holds.reach (h : a.Holds g m x) (hn : x.block ≠ some n) : (a.reach n).Holds g m x := by
  have henters : (a.reach n).enters x = a.enters x := by
    unfold enters
    cases hb : x.block with
    | none => rfl
    | some b =>
      have hne : b ≠ n := fun heq => hn (heq ▸ hb)
      simp [Assignment.reach, hne]
  exact
    { enter := fun hop hcause => by simp [Assignment.reach, h.enter hop hcause]
      leave := fun hop hin => h.leave hop (henters ▸ hin)
      choose := fun side hop hin hadmits => h.choose side hop (henters ▸ hin) hadmits
      compute := fun hc hin => h.compute hc (henters ▸ hin) }

end Assignment

/-! ### What a visit does -/

namespace Propagation

/-- A scope as the analysis sets it up: the live nodes, filed under their blocks. -/
structure Scope.Fits (c : Scope) : Prop where
  capacity : c.live.capacity = c.graph.size
  live : ∀ n, c.live.contains n = true ↔ c.graph.Live n
  members : ∀ b n, n ∈ c.members.filed b ↔ c.graph.Live n ∧ c.graph.blockOf n = some b
  mirrored : c.graph.Mirrored
  inUse : ∀ n m, c.graph.Live n → m ∈ c.graph.inputs n → c.graph.isRetired m = false

/-- A live edge that control can leave through. -/
def Ready (a : Assignment) (x : Node) : Prop :=
  a.enters x = true ∧ ((x.op = .jump ∨ x.op = .ret) ∨
    ∃ side, x.op = .proj (.arm side) ∧ (a.operand x 0).Admits side)

theorem Ready.not_block {a : Assignment} {x : Node} (h : Ready a x) : x.op ≠ .block := by
  intro hop
  rcases h.2 with (hj | hr) | ⟨side, harm, -⟩
  · rw [hop] at hj
    cases hj
  · rw [hop] at hr
    cases hr
  · rw [hop] at harm
    cases harm

theorem Ready.not_computes {a : Assignment} {x : Node} {g : Graph} (h : Ready a x) :
    g.computes x = false := by
  unfold Graph.computes
  rcases h.2 with (hj | hr) | ⟨side, harm, -⟩
  · rw [hj]
  · rw [hr]
  · rw [harm]

/-- What a visit of `n` can do: the state after it, and what it queues. -/
inductive Move (c : Scope) (s : Propagation) (n : NodeId) (x : Node) :
    Propagation → List NodeId → Prop where
  | idle : s.assignment.Holds c.graph n x →
    (x.op = .block → s.tracker.isReachable n = false) → Move c s n x s []
  | phis {out : List NodeId} : x.op = .block → s.tracker.isReachable n = true →
    (∀ m ∈ c.members.filed n, ∀ y, c.graph.nodes[m]? = some y → y.op = .phi → m ∈ out) →
    (∀ m ∈ out, m ∈ c.members.filed n ∧ ∃ y, c.graph.nodes[m]? = some y ∧ y.op = .phi) →
    Move c s n x s out
  | reach {t : Propagation} : x.op = .block →
    n = Anchor.startBlock ∨ (∃ e ∈ x.operands, s.tracker.isTaken e = true) →
    t.values = s.values → t.tracker.marks = s.tracker.marks →
    t.assignment = s.assignment.reach n → s.tracker.isReachable n = false →
    Move c s n x t (c.members.filed n)
  | take {t : Propagation} {out : List NodeId} : Ready s.assignment x →
    t.values = s.values → t.tracker.marks = s.tracker.marks.insert n .taken →
    t.assignment = s.assignment.take n →
    (∀ b ∈ x.users, ∀ y, c.graph.nodes[b]? = some y → y.op = .block → c.live.contains b = true →
      b ∈ out) →
    (∀ b ∈ out, c.live.contains b = true) → s.tracker.isTaken n = false →
    (∀ b ∈ out, b ∈ x.users ∧ ∃ y, c.graph.nodes[b]? = some y ∧ y.op = .block) →
    Move c s n x t out
  | raise {t : Propagation} : c.graph.computes x = true → s.assignment.enters x = true →
    (s.value n).le (s.assignment.transfer c.graph x) = true →
    t.values.size = s.values.size → t.tracker = s.tracker →
    t.assignment = s.assignment.raise n (s.assignment.transfer c.graph x) →
    s.value n ≠ s.assignment.transfer c.graph x →
    Move c s n x t (x.users.filter c.live.contains)

theorem Move.of_takeEdge {c : Scope} {s t : Propagation} {n : NodeId} {x : Node}
    {out : List NodeId} (h : takeEdge c s n x = .ok (t, out)) (hready : Ready s.assignment x) :
    Move c s n x t out := by
  obtain ⟨⟨tracker, changed⟩, htake, h⟩ := bind_eq_ok.mp h
  cases changed with
  | true =>
    obtain ⟨blocks, hblocks, h⟩ := bind_eq_ok.mp h
    cases h
    obtain ⟨hfresh, hreach, htaken⟩ := Tracker.take_eq_true htake
    have hmarks : tracker.marks = s.tracker.marks.insert n .taken := by
      unfold Tracker.take at htake
      split at htake <;> cases htake
      rfl
    refine .take hready rfl hmarks ?_ (fun b hb y hy hop hlive => ?_) (fun b hb => ?_) hfresh
      fun b hb => ?_
    · unfold assignment Assignment.take
      congr 1
      · funext i
        exact htaken i
      · funext i
        simp [Tracker.isReachable, hreach]
    · refine List.mem_filter.mpr ⟨(Graph.mem_select hblocks).mpr ⟨hb, y, hy, ?_⟩, hlive⟩
      simp [hop]
    · exact (List.mem_filter.mp hb).2
    · obtain ⟨hb, y, hy, hop⟩ := (Graph.mem_select hblocks).mp (List.mem_filter.mp hb).1
      exact ⟨hb, y, hy, by simpa using hop⟩
  | false =>
    cases h
    have heq := Tracker.take_eq_false htake
    subst heq
    have htaken : s.tracker.isTaken n = true := by
      unfold Tracker.take at htake
      split at htake
      next hmark => simp [Tracker.isTaken, hmark]
      next => cases htake
      next => cases (Prod.mk.inj (Except.ok.inj htake)).2
    exact .idle
      { enter := fun hop => absurd hop hready.not_block
        leave := fun _ _ => htaken
        choose := fun _ _ _ _ => htaken
        compute := fun hc => by simp [hready.not_computes] at hc }
      fun hop => absurd hop hready.not_block

theorem Move.of_update {c : Scope} {s t : Propagation} {n : NodeId} {x : Node}
    {out : List NodeId} (hcomputes : c.graph.computes x = true) (hin : s.assignment.enters x = true)
    (h : update c s n x (s.assignment.transfer c.graph x) = .ok (t, out)) :
    Move c s n x t out := by
  simp only [update] at h
  split at h
  next heq =>
    cases h
    exact .idle (.of_computes hcomputes (heq ▸ Fact.le_refl _))
      fun hop => absurd hop (Assignment.not_block_of_computes hcomputes)
  next hne =>
    split at h
    next hle =>
      obtain ⟨u, hu, h⟩ := bind_eq_ok.mp h
      cases h
      unfold assign at hu
      split at hu
      next hsize =>
        cases hu
        refine .raise hcomputes hin hle (by simp) rfl ?_ hne
        unfold assignment Assignment.raise
        congr 1
        funext i
        by_cases hi : i = n
        · subst hi
          simp [value, hsize]
        · simp [value, hi, Ne.symm hi]
      next => cases hu
    next => cases h

theorem Move.of_visitBlock {c : Scope} {s t : Propagation} {n : NodeId} {x : Node}
    {out : List NodeId} (hx : c.graph.nodes[n]? = some x) (hop : x.op = .block)
    (h : visitBlock c s n = .ok (t, out)) : Move c s n x t out := by
  obtain ⟨⟨tracker, changed⟩, hupd, h⟩ := bind_eq_ok.mp h
  have hentered : ∀ entered, s.tracker.isEntered c.graph n = .ok entered →
      (entered = true ↔
        n = Anchor.startBlock ∨ ∃ e ∈ x.operands, s.tracker.isTaken e = true) := by
    intro entered hent
    unfold Tracker.isEntered at hent
    split at hent
    next hn =>
      cases hent
      simp [hn]
    next hn =>
      obtain ⟨y, hy, hent⟩ := bind_eq_ok.mp hent
      cases hent
      rw [Graph.node_eq_ok hy] at hx
      cases hx
      simp [hn]
  cases changed with
  | true =>
    cases h
    obtain ⟨hbefore, hmarks, hafter⟩ := Tracker.updateBlock_eq_true hupd
    refine .reach hop ?_ rfl hmarks ?_ hbefore
    · unfold Tracker.updateBlock at hupd
      rw [hbefore] at hupd
      obtain ⟨entered, hent, hupd⟩ := bind_eq_ok.mp hupd
      split at hupd
      next htrue => exact (hentered entered hent).mp htrue
      next => cases (Prod.mk.inj (Except.ok.inj hupd)).2
    · unfold assignment Assignment.reach
      congr 1
      · funext i
        simp [Tracker.isTaken, Tracker.mark?, hmarks]
      · funext i
        exact hafter i
  | false =>
    have heq := Tracker.updateBlock_eq_false hupd
    subst heq
    simp only [Bool.false_eq_true, if_false] at h
    split at h
    next hreach =>
      obtain ⟨phis, hphis, h⟩ := bind_eq_ok.mp h
      cases h
      refine .phis hop hreach (fun m hm y hy hphi => ?_) fun m hm => ?_
      · exact (Graph.mem_select hphis).mpr ⟨hm, y, hy, by simp [hphi]⟩
      · obtain ⟨hm, y, hy, hphi⟩ := (Graph.mem_select hphis).mp hm
        exact ⟨hm, y, hy, by simpa using hphi⟩
    next hreach =>
      cases h
      have hreach : s.tracker.isReachable n = false := by simpa using hreach
      refine .idle (.of_block hop fun hcause => ?_) fun _ => hreach
      -- a block that control enters would have become reachable
      unfold Tracker.updateBlock at hupd
      rw [hreach] at hupd
      obtain ⟨entered, hent, hupd⟩ := bind_eq_ok.mp hupd
      rw [(hentered entered hent).mpr hcause] at hupd
      simp only [if_true] at hupd
      split at hupd
      next => cases hupd
      next => cases (Prod.mk.inj (Except.ok.inj hupd)).2

/-- A visit does nothing else. -/
theorem Move.of_visit {c : Scope} {s t : Propagation} {n : NodeId} {out : List NodeId}
    (h : visit c s n = .ok (t, out)) : ∃ x, c.graph.nodes[n]? = some x ∧ Move c s n x t out := by
  obtain ⟨x, hx, h⟩ := bind_eq_ok.mp h
  have hx := Graph.node_eq_ok hx
  refine ⟨x, hx, ?_⟩
  have outside (hop : x.op ≠ .block) (hin : ¬ s.isEntered x = true) : Move c s n x s [] := by
    rw [isEntered_eq, Bool.not_eq_true] at hin
    exact .idle (.of_not_enters hop hin) fun hop' => absurd hop' hop
  split at h
  next hop => exact .of_visitBlock hx hop h
  next hop =>
    split at h
    next hin => exact .of_takeEdge h ⟨isEntered_eq s x ▸ hin, .inl (.inl hop)⟩
    next hin =>
      cases h
      exact outside (by simp [hop]) hin
  next hop =>
    split at h
    next hin => exact .of_takeEdge h ⟨isEntered_eq s x ▸ hin, .inl (.inr hop)⟩
    next hin =>
      cases h
      exact outside (by simp [hop]) hin
  next side hop =>
    split at h
    next hcond =>
      obtain ⟨hin, hopen⟩ := (Bool.and_eq_true _ _ ▸ hcond : _ ∧ _)
      rw [operand_eq, opens_iff] at hopen
      exact .of_takeEdge h ⟨isEntered_eq s x ▸ hin, .inr ⟨side, hop, hopen⟩⟩
    next hcond =>
      cases h
      by_cases hin : s.isEntered x = true
      · refine .idle ?_ fun hop' => by simp [hop] at hop'
        exact
          { enter := fun hop' => by simp [hop] at hop'
            leave := fun hop' => by simp [hop] at hop'
            choose := fun side' hop' _ hadmits => by
              rw [hop] at hop'
              cases hop'
              rw [← opens_iff, ← operand_eq] at hadmits
              exact absurd (by rw [hin, hadmits]; rfl) hcond
            compute := fun hc => by simp [Graph.computes, hop] at hc }
      · exact outside (by simp [hop]) hin
  next => cases h
  next hblock hjump hret harm hretired =>
    obtain ⟨computed, hcomputed, h⟩ := bind_eq_ok.mp h
    have hcomputed := isComputed_eq_ok hcomputed
    subst hcomputed
    split at h
    next hcond =>
      obtain ⟨hc, hin⟩ := (Bool.and_eq_true _ _ ▸ hcond : _ ∧ _)
      obtain ⟨v, hv, h⟩ := bind_eq_ok.mp h
      rw [evaluate_eq_ok hv hin] at h
      exact .of_update hc (isEntered_eq s x ▸ hin) h
    next hcond =>
      cases h
      refine .idle ?_ fun hop => absurd hop hblock
      exact
        { enter := fun hop => absurd hop hblock
          leave := fun hop => by
            rcases hop with hop | hop
            · exact absurd hop hjump
            · exact absurd hop hret
          choose := fun side hop => absurd hop (harm side)
          compute := fun hc hin => by
            rw [← isEntered_eq] at hin
            exact absurd (by rw [hc, hin]; rfl) hcond }

/-! ### What every visit keeps -/

/-- The node waits, or is a phi whose block waits. -/
def Waits (w : Worklist) (n : NodeId) (x : Node) : Prop :=
  n ∈ w.queue ∨ x.op = .phi ∧ ∃ b ∈ w.queue, x.block = some b

/-- What holds between two visits. -/
structure Sound (c : Scope) (s : Propagation) (w : Worklist) : Prop where
  valid : w.Valid c.graph.size
  size : s.values.size = c.graph.size
  queued : ∀ n ∈ w.queue, c.graph.Live n
  undecided : ∀ e mark, s.tracker.mark? e = some mark → mark = .undecided ∨ mark = .taken
  registered : ∀ e x, c.graph.Live e → c.graph.nodes[e]? = some x → x.op.isEdge = true →
    s.tracker.mark? e ≠ none
  blocks : ∀ b, s.tracker.isReachable b = true → ∃ x, c.graph.nodes[b]? = some x ∧ x.op = .block
  seeded : ∀ n x, c.graph.Live n → c.graph.nodes[n]? = some x → c.graph.computes x = false →
    s.value n = x.seed
  untouched : ∀ n x, c.graph.Live n → c.graph.nodes[n]? = some x → c.graph.computes x = true →
    s.assignment.enters x = false → s.value n = .unknown
  /-- No solution says less. -/
  below : ∀ a, a.Solves c.graph → s.assignment.Below c.graph a
  /-- A constraint that is violated is going to be looked at. -/
  holds : ∀ n x, c.graph.Live n → c.graph.nodes[n]? = some x → ¬ Waits w n x →
    s.assignment.Holds c.graph n x

section Visit

variable {c : Scope} {s t : Propagation} {w : Worklist} {n : NodeId} {x : Node}
  {out : List NodeId}

theorem Scope.Fits.lt_size (hf : c.Fits) (hn : c.graph.Live n) : n < c.graph.size := by
  rw [← hf.capacity]
  exact BitSet.contains_lt ((hf.live n).mpr hn)

theorem Scope.Fits.closed (hf : c.Fits) {m : NodeId} (hn : c.graph.Live n)
    (hm : m ∈ c.graph.inputs n) : c.graph.Live m :=
  hn.needs ⟨hm, hf.inUse n m hn hm⟩

theorem Scope.Fits.operands_live (hf : c.Fits) (hn : c.graph.Live n)
    (hx : c.graph.nodes[n]? = some x) {o : NodeId} (ho : o ∈ x.operands) : c.graph.Live o := by
  refine hf.closed hn ?_
  rw [Graph.inputs_eq hx]
  exact List.mem_append_right _ ho

theorem Scope.Fits.block_live (hf : c.Fits) (hn : c.graph.Live n)
    (hx : c.graph.nodes[n]? = some x) {b : NodeId} (hb : x.block = some b) : c.graph.Live b := by
  refine hf.closed hn ?_
  rw [Graph.inputs_eq hx, Node.inputs, hb]
  exact List.mem_append_left _ (List.mem_singleton_self b)

theorem Scope.Fits.preds_live (hf : c.Fits) (hn : c.graph.Live n)
    (hx : c.graph.nodes[n]? = some x) {p : NodeId} (hp : p ∈ x.block.elim [] c.graph.operands) :
    c.graph.Live p := by
  cases hb : x.block with
  | none => simp [hb] at hp
  | some b =>
    rw [hb] at hp
    have hlive := hf.block_live hn hx hb
    cases hy : c.graph.nodes[b]? with
    | none => simp [Graph.operands, hy] at hp
    | some y =>
      rw [Option.elim_some, Graph.operands_eq hy] at hp
      exact hf.operands_live hlive hy hp

/-- A state below a solution stays below it. -/
theorem Move.below (hm : Move c s n x t out) (hf : c.Fits) (hn : c.graph.Live n)
    (hx : c.graph.nodes[n]? = some x) {a : Assignment} (ha : a.Solves c.graph)
    (h : s.assignment.Below c.graph a) : t.assignment.Below c.graph a := by
  have henters : s.assignment.enters x = true → a.enters x = true := by
    intro hin
    obtain ⟨b, hb, hreach⟩ := Assignment.enters_eq_true.mp hin
    exact Assignment.enters_eq_true.mpr ⟨b, hb, h.reachable b (hf.block_live hn hx hb) hreach⟩
  have hoperands : ∀ o ∈ x.operands, c.graph.Live o := fun o ho => hf.operands_live hn hx ho
  cases hm with
  | idle => exact h
  | phis => exact h
  | reach hop hcause hvalues hmarks heq =>
    rw [heq]
    refine ⟨h.value, h.taken, fun b hb hreach => ?_⟩
    by_cases hbn : b = n
    · subst hbn
      rcases hcause with rfl | ⟨e, he, htaken⟩
      · exact ha.entry
      · exact ha.enter b x hn hx hop e he (h.taken e (hoperands e he) htaken)
    · exact h.reachable b hb (by simpa [Assignment.reach, hbn] using hreach)
  | take hready hvalues hmarks heq hout hlive =>
    rw [heq]
    refine ⟨h.value, fun e he htaken => ?_, h.reachable⟩
    by_cases hen : e = n
    · subst hen
      obtain ⟨hin, hop | ⟨side, hop, hadmits⟩⟩ := hready
      · exact ha.leave e x hn hx hop (henters hin)
      · exact ha.choose e x side hn hx hop (henters hin)
          (hadmits.mono (Assignment.operand_le h hoperands 0))
    · exact h.taken e he (by simpa [Assignment.take, hen] using htaken)
  | raise hc hin hle hsize htracker heq =>
    rw [heq]
    refine ⟨fun m hm => ?_, h.taken, h.reachable⟩
    show (if m = n then _ else s.value m).le (a.value m) = true
    by_cases hmn : m = n
    · subst hmn
      rw [if_pos rfl]
      exact Fact.le_trans
        (Assignment.transfer_le h hoperands fun p hp => hf.preds_live hn hx hp)
        (ha.compute m x hn hx hc (henters hin))
    · rw [if_neg hmn]
      exact h.value m hm

/-- Only blocks are reachable, so nothing happens to what stands in another node. -/
theorem Sound.enters_eq_false (hs : Sound c s w) (hx : c.graph.nodes[n]? = some x)
    (hop : x.op ≠ .block) {y : Node} (hy : y.block = some n) : s.assignment.enters y = false := by
  cases hin : s.assignment.enters y with
  | false => rfl
  | true =>
    obtain ⟨b, hb, hreach⟩ := Assignment.enters_eq_true.mp hin
    obtain rfl : n = b := Option.some.inj (hy.symm.trans hb)
    obtain ⟨x', hx', hop'⟩ := hs.blocks n hreach
    rw [hx] at hx'
    cases hx'
    exact absurd hop' hop

/-- A constraint that is not going to be looked at held before the visit, unless it was up to it. -/
theorem Sound.holds_before (hs : Sound c s w) {rest : List NodeId} (hqueue : w.queue = n :: rest)
    {w' : Worklist} (hrest : ∀ m ∈ rest, m ∈ w'.queue) {m : NodeId} {y : Node}
    (hlive : c.graph.Live m) (hy : c.graph.nodes[m]? = some y) (hwaits : ¬ Waits w' m y)
    (hmn : m ≠ n) (hphi : y.op = .phi → y.block ≠ some n) : s.assignment.Holds c.graph m y := by
  refine hs.holds m y hlive hy ?_
  rintro (hmem | ⟨hop, b, hmem, hb⟩)
  · rw [hqueue] at hmem
    rcases List.mem_cons.mp hmem with rfl | hmem
    · exact hmn rfl
    · exact hwaits (.inl (hrest m hmem))
  · rw [hqueue] at hmem
    rcases List.mem_cons.mp hmem with rfl | hmem
    · exact hphi hop hb
    · exact hwaits (.inr ⟨hop, b, hrest b hmem, hb⟩)

/-- After a visit, a constraint that is violated is going to be looked at. -/
theorem Move.holds (hm : Move c s n x t out) (hf : c.Fits) (hs : Sound c s w)
    (hn : c.graph.Live n) (hx : c.graph.nodes[n]? = some x) {rest : List NodeId}
    (hqueue : w.queue = n :: rest) {w' : Worklist}
    (hqueue' : ∀ m, m ∈ rest ∨ m ∈ out → m ∈ w'.queue) (m : NodeId) (y : Node)
    (hlive : c.graph.Live m) (hy : c.graph.nodes[m]? = some y) (hwaits : ¬ Waits w' m y) :
    t.assignment.Holds c.graph m y := by
  have hmout : m ∉ out := fun hmem => hwaits (.inl (hqueue' m (.inr hmem)))
  have hbout : ∀ b, y.op = .phi → y.block = some b → b ∉ out :=
    fun b hop hb hmem => hwaits (.inr ⟨hop, b, hqueue' b (.inr hmem), hb⟩)
  have hbefore : m ≠ n → (y.op = .phi → y.block ≠ some n) → s.assignment.Holds c.graph m y :=
    hs.holds_before hqueue (fun k hk => hqueue' k (.inl hk)) hlive hy hwaits
  have hsame : m = n → y = x := by
    rintro rfl
    rw [hx] at hy
    exact (Option.some.inj hy).symm
  have huser : n ∈ y.operands → m ∈ x.users := by
    intro hmem
    rw [← Graph.users_eq hx, hf.mirrored.mem_users, Graph.operands_eq hy]
    exact hmem
  cases hm with
  | idle hholds hunreached =>
    by_cases hmn : m = n
    · rw [hmn, hsame hmn]
      exact hholds
    · by_cases hphi : y.op = .phi ∧ y.block = some n
      · refine .of_not_enters (by simp [hphi.1]) ?_
        by_cases hop : x.op = .block
        · simp [Assignment.enters, hphi.2, assignment, hunreached hop]
        · exact hs.enters_eq_false hx hop hphi.2
      · exact hbefore hmn fun hop hb => hphi ⟨hop, hb⟩
  | phis hop hreach hall hmem =>
    by_cases hmn : m = n
    · rw [hmn, hsame hmn]
      exact .of_block hop fun _ => hreach
    · refine hbefore hmn fun hphi hb => hmout (hall m ?_ y hy hphi)
      exact (hf.members n m).mpr ⟨hlive, (Graph.blockOf_eq hy).trans hb⟩
  | reach hop hcause hvalues hmarks heq =>
    rw [heq]
    by_cases hmn : m = n
    · rw [hmn, hsame hmn]
      exact .of_block hop fun _ => by simp [Assignment.reach]
    · have hb : y.block ≠ some n := fun hb =>
        hmout ((hf.members n m).mpr ⟨hlive, (Graph.blockOf_eq hy).trans hb⟩)
      exact (hbefore hmn fun _ => hb).reach hb
  | take hready hvalues hmarks heq hout hlive' =>
    rw [heq]
    have hself : (s.assignment.take n).taken n = true := by simp [Assignment.take]
    by_cases hmn : m = n
    · rw [hmn, hsame hmn]
      exact
        { enter := fun hop => absurd hop hready.not_block
          leave := fun _ _ => hself
          choose := fun _ _ _ _ => hself
          compute := fun hc => by simp [hready.not_computes] at hc }
    · by_cases hphi : y.op = .phi ∧ s.assignment.enters y = false
      · exact .of_not_enters (by simp [hphi.1]) hphi.2
      · have hin : y.op = .phi → s.assignment.enters y = true := by
          intro hop
          by_contra hno
          exact hphi ⟨hop, by simpa using hno⟩
        refine (hbefore hmn fun hop hb => ?_).take (fun hop hmem => ?_) fun hop hmem => ?_
        · have := hs.enters_eq_false hx hready.not_block hb
          rw [hin hop] at this
          cases this
        · exact hmout (hout m (huser hmem) y hy hop ((hf.live m).mpr hlive))
        · -- the block of the phi is queued, since the edge enters it
          obtain ⟨b, hb, hreach⟩ := Assignment.enters_eq_true.mp (hin hop)
          obtain ⟨z, hz, hblock⟩ := hs.blocks b hreach
          rw [hb, Option.elim_some] at hmem
          refine hbout b hop hb (hout b ?_ z hz hblock ((hf.live b).mpr (hf.block_live hlive hy hb)))
          rw [← Graph.users_eq hx, hf.mirrored.mem_users]
          exact hmem
  | raise hc hin hle hsize htracker heq =>
    rw [heq]
    have hnot : n ∉ y.operands := fun hmem =>
      hmout (List.mem_filter.mpr ⟨huser hmem, (hf.live m).mpr hlive⟩)
    by_cases hmn : m = n
    · rw [hsame hmn] at hnot ⊢
      rw [hmn]
      refine .of_computes hc ?_
      rw [Assignment.transfer_raise hnot]
      simp [Assignment.raise, Fact.le_refl]
    · by_cases hphi : y.op = .phi ∧ y.block = some n
      · refine .of_not_enters (by simp [hphi.1]) ?_
        exact hs.enters_eq_false hx (Assignment.not_block_of_computes hc) hphi.2
      · exact (hbefore hmn fun hop hb => hphi ⟨hop, hb⟩).raise hmn hnot

/-- Only live nodes are queued. -/
theorem Move.queues (hm : Move c s n x t out) (hf : c.Fits) : ∀ m ∈ out, c.graph.Live m := by
  intro m hmem
  cases hm with
  | idle => cases hmem
  | phis hop hreach hall hout => exact ((hf.members n m).mp (hout m hmem).1).1
  | reach => exact ((hf.members n m).mp hmem).1
  | take hready hvalues hmarks heq hout hlive => exact (hf.live m).mp (hlive m hmem)
  | raise => exact (hf.live m).mp (List.mem_filter.mp hmem).2

/-- How far a visit can change the state. -/
structure Grows (c : Scope) (n : NodeId) (x : Node) (s t : Propagation) : Prop where
  size : t.values.size = s.values.size
  marks : ∀ e, t.tracker.mark? e = s.tracker.mark? e ∨ t.tracker.mark? e = some .taken
  reachable : ∀ b, s.tracker.isReachable b = true → t.tracker.isReachable b = true
  blocks : ∀ b, t.tracker.isReachable b = true →
    s.tracker.isReachable b = true ∨ b = n ∧ x.op = .block
  values : ∀ m, t.value m = s.value m ∨
    m = n ∧ c.graph.computes x = true ∧ s.assignment.enters x = true

theorem Move.grows (hm : Move c s n x t out) : Grows c n x s t := by
  have hreachable {a b : Assignment} (heq : a = b) (i : NodeId) :
      a.reachable i = b.reachable i := by rw [heq]
  have hvalue {a b : Assignment} (heq : a = b) (i : NodeId) : a.value i = b.value i := by rw [heq]
  cases hm with
  | idle => exact ⟨rfl, fun _ => .inl rfl, fun _ h => h, fun _ h => .inl h, fun _ => .inl rfl⟩
  | phis => exact ⟨rfl, fun _ => .inl rfl, fun _ h => h, fun _ h => .inl h, fun _ => .inl rfl⟩
  | reach hop hcause hvalues hmarks heq =>
    have hreach : ∀ b, t.tracker.isReachable b = (decide (b = n) || s.tracker.isReachable b) :=
      hreachable heq
    refine ⟨by rw [hvalues], fun e => .inl ?_, fun b hb => ?_, fun b hb => ?_, fun m => .inl ?_⟩
    · rw [Tracker.mark?, Tracker.mark?, hmarks]
    · rw [hreach, hb, Bool.or_true]
    · rw [hreach, Bool.or_eq_true, decide_eq_true_iff] at hb
      rcases hb with rfl | hb
      · exact .inr ⟨rfl, hop⟩
      · exact .inl hb
    · rw [value, value, hvalues]
  | take hready hvalues hmarks heq hout hlive =>
    have hreach : ∀ b, t.tracker.isReachable b = s.tracker.isReachable b := hreachable heq
    refine ⟨by rw [hvalues], fun e => ?_, fun b hb => ?_, fun b hb => .inl ?_, fun m => .inl ?_⟩
    · rw [Tracker.mark?, Tracker.mark?, hmarks]
      by_cases hen : e = n
      · rw [hen, IdMap.find?_insert_self]
        exact .inr rfl
      · rw [IdMap.find?_insert_ne hen]
        exact .inl rfl
    · rw [hreach, hb]
    · rw [← hreach, hb]
    · rw [value, value, hvalues]
  | raise hc hin hle hsize htracker heq =>
    have hval : ∀ m, t.value m =
        if m = n then s.assignment.transfer c.graph x else s.value m := hvalue heq
    refine ⟨hsize, fun e => .inl (by rw [htracker]), fun b hb => by rw [htracker, hb],
      fun b hb => .inl (by rw [← htracker, hb]), fun m => ?_⟩
    by_cases hmn : m = n
    · exact .inr ⟨hmn, hc, hin⟩
    · exact .inl (by rw [hval, if_neg hmn])

/-- What holds between two visits is kept by a visit. -/
theorem Sound.visit (hs : Sound c s w) (hf : c.Fits) {w' : Worklist}
    (hpop : w.pop = some (n, w')) (h : visit c s n = .ok (t, out)) :
    Sound c t (w'.countVisit.enqueueAll out) := by
  obtain ⟨hvalid, hqueue⟩ := hs.valid.pop hpop
  obtain ⟨x, hx, hm⟩ := Move.of_visit h
  have hn : c.graph.Live n := hs.queued n (hqueue ▸ List.mem_cons_self)
  have hlive := hm.queues hf
  have hgrows := hm.grows
  obtain ⟨hvalid', hmem⟩ := hvalid.countVisit.enqueueAll out
  have hqueue' : ∀ m, m ∈ w'.queue ∨ m ∈ out → m ∈ (w'.countVisit.enqueueAll out).queue := by
    rintro m (hm' | hm')
    · exact (hmem m).mpr (.inl hm')
    · exact (hmem m).mpr (.inr ⟨hm', hf.lt_size (hlive m hm')⟩)
  refine
    { valid := hvalid'
      size := hgrows.size.trans hs.size
      queued := fun m hm' => ?_
      undecided := fun e mark hmark => ?_
      registered := fun e y he hy hedge => ?_
      blocks := fun b hb => ?_
      seeded := fun m y hm' hy hc => ?_
      untouched := fun m y hm' hy hc hin => ?_
      below := fun a ha => hm.below hf hn hx ha (hs.below a ha)
      holds := hm.holds hf hs hn hx hqueue hqueue' }
  · rcases (hmem m).mp hm' with hm' | hm'
    · exact hs.queued m (hqueue ▸ List.mem_cons_of_mem _ hm')
    · exact hlive m hm'.1
  · rcases hgrows.marks e with heq | heq
    · exact hs.undecided e mark (heq ▸ hmark)
    · rw [heq] at hmark
      exact .inr (Option.some.inj hmark).symm
  · rcases hgrows.marks e with heq | heq
    · rw [heq]
      exact hs.registered e y he hy hedge
    · simp [heq]
  · rcases hgrows.blocks b hb with hb | ⟨rfl, hop⟩
    · exact hs.blocks b hb
    · exact ⟨x, hx, hop⟩
  · rcases hgrows.values m with heq | ⟨rfl, hcx, -⟩
    · rw [heq]
      exact hs.seeded m y hm' hy hc
    · rw [hx] at hy
      cases hy
      rw [hc] at hcx
      cases hcx
  · have hbefore : s.assignment.enters y = false := by
      cases hin' : s.assignment.enters y with
      | false => rfl
      | true =>
        obtain ⟨b, hb, hreach⟩ := Assignment.enters_eq_true.mp hin'
        have : t.assignment.enters y = true :=
          Assignment.enters_eq_true.mpr ⟨b, hb, hgrows.reachable b hreach⟩
        rw [hin] at this
        cases this
    rcases hgrows.values m with heq | ⟨rfl, -, hinx⟩
    · rw [heq]
      exact hs.untouched m y hm' hy hc hbefore
    · rw [hx] at hy
      cases hy
      rw [hbefore] at hinx
      cases hinx

end Visit

/-! ### The start -/

/-- The fact a live node starts with. -/
def firstFact (g : Graph) (x : Node) : Fact := if g.computes x then .unknown else x.seed

theorem init_eq_ok {g : Graph} {s t : Propagation} {n : NodeId} (h : init g s n = .ok t) :
    ∃ x, g.nodes[n]? = some x ∧ x.op ≠ .retired ∧ n < s.values.size ∧
      t.values = s.values.setIfInBounds n (firstFact g x) ∧
      t.tracker = (if x.op.isEdge then s.tracker.register n else s.tracker) ∧
      t.trace = s.trace.push (n, firstFact g x) := by
  obtain ⟨x, hx, h⟩ := bind_eq_ok.mp h
  refine ⟨x, Graph.node_eq_ok hx, ?_⟩
  have hassign {u : Propagation} {v : Fact} (hu : u.assign n v = .ok t) :
      n < u.values.size ∧ t.values = u.values.setIfInBounds n v ∧ t.tracker = u.tracker ∧
        t.trace = u.trace.push (n, v) := by
    unfold assign at hu
    split at hu
    next hn =>
      cases hu
      exact ⟨hn, rfl, rfl, rfl⟩
    next => cases hu
  have hregister : (if x.op.isEdge = true then { s with tracker := s.tracker.register n } else s) =
      { s with tracker := if x.op.isEdge then s.tracker.register n else s.tracker } := by
    split <;> rfl
  rw [hregister] at h
  generalize hu : ({ s with tracker := if x.op.isEdge then s.tracker.register n else s.tracker } :
    Propagation) = u at h
  have hvalues : s.values = u.values := by rw [← hu]
  have htracker : (if x.op.isEdge then s.tracker.register n else s.tracker) = u.tracker := by
    rw [← hu]
  have htrace : s.trace = u.trace := by rw [← hu]
  rw [hvalues, htracker, htrace]
  dsimp only at h
  split at h
  next v hop =>
    have hfirst : firstFact g x = .constant v := by
      simp [firstFact, Graph.computes, Node.seed, hop]
    rw [hfirst]
    exact ⟨by simp [hop], hassign h⟩
  next => cases h
  next hconst hretired =>
    obtain ⟨computed, hcomputed, h⟩ := bind_eq_ok.mp h
    have hfirst : firstFact g x = if computed then .unknown else .varying := by
      rw [firstFact, isComputed_eq_ok hcomputed]
      unfold Node.seed
      split
      · rfl
      · split
        next v hop => exact absurd hop (hconst v)
        next => rfl
    rw [hfirst]
    exact ⟨hretired, hassign h⟩

/-- What holds after the nodes `done` were seeded. -/
structure Seeded (c : Scope) (done : List NodeId) (s : Propagation) (w : Worklist) : Prop where
  valid : w.Valid c.graph.size
  size : s.values.size = c.graph.size
  queue : ∀ n, n ∈ w.queue ↔ n ∈ done
  undecided : ∀ e mark, s.tracker.mark? e = some mark → mark = .undecided
  registered : ∀ e ∈ done, ∀ x, c.graph.nodes[e]? = some x → x.op.isEdge = true →
    s.tracker.mark? e ≠ none
  capacity : s.tracker.reachable.capacity = c.graph.size
  unreached : ∀ b, s.tracker.isReachable b = false
  values : ∀ n ∈ done, ∃ x, c.graph.nodes[n]? = some x ∧ x.op ≠ .retired ∧
    s.value n = firstFact c.graph x
  traced : s.trace.toList.map Prod.fst = done
  trace : ∀ e ∈ s.trace.toList, ∃ x, c.graph.nodes[e.1]? = some x ∧ e.2 = firstFact c.graph x

theorem mark?_register (t : Tracker) (n e : NodeId) :
    (t.register n).mark? e =
      if e = n ∧ t.mark? n = none then some .undecided else t.mark? e := by
  unfold Tracker.register
  cases hmark : t.mark? n with
  | some mark => simp
  | none =>
    by_cases he : e = n
    · simp [he, Tracker.mark?]
    · simp [he, Tracker.mark?, IdMap.find?_insert_ne he]

theorem Seeded.init {c : Scope} {done : List NodeId} {s t : Propagation} {w : Worklist}
    {n : NodeId} (h : Seeded c done s w) (hinit : init c.graph s n = .ok t) :
    Seeded c (done ++ [n]) t (w.enqueue n).1 := by
  obtain ⟨x, hx, hused, hlt, hvalues, htracker, htrace⟩ := init_eq_ok hinit
  obtain ⟨hvalid, hmem⟩ := h.valid.enqueue n
  have hn : n < c.graph.size := Graph.lt_size_of_getElem? hx
  have hvalue : ∀ m, t.value m = if m = n then firstFact c.graph x else s.value m := by
    intro m
    rw [value, hvalues]
    by_cases hm : m = n
    · subst hm
      simp [hlt]
    · simp [value, hm, Ne.symm hm]
  have hreachable : (if x.op.isEdge then s.tracker.register n else s.tracker).reachable =
      s.tracker.reachable := by
    split
    · unfold Tracker.register
      split <;> rfl
    · rfl
  refine
    { valid := hvalid
      size := by rw [hvalues, Array.size_setIfInBounds, h.size]
      queue := fun m => ?_
      undecided := fun e mark hmark => ?_
      registered := fun e he y hy hedge => ?_
      capacity := ?_
      unreached := fun b => ?_
      values := fun m hm => ?_
      traced := by rw [htrace, Array.toList_push, List.map_append, h.traced]; rfl
      trace := fun e he => ?_ }
  · rw [hmem, h.queue, List.mem_append, List.mem_singleton]
    simp [hn]
  · rw [htracker] at hmark
    split at hmark
    · rw [mark?_register] at hmark
      split at hmark
      · exact (Option.some.inj hmark).symm
      · exact h.undecided e mark hmark
    · exact h.undecided e mark hmark
  · rw [htracker]
    rcases List.mem_append.mp he with he | he
    · have := h.registered e he y hy hedge
      split
      · rw [mark?_register]
        split
        · simp
        · exact this
      · exact this
    · obtain rfl := List.mem_singleton.mp he
      rw [hx] at hy
      cases hy
      rw [if_pos hedge, mark?_register]
      split
      · simp
      next hnone => exact fun hmark => hnone ⟨rfl, hmark⟩
  · rw [htracker, hreachable, h.capacity]
  · rw [htracker, Tracker.isReachable, hreachable]
    exact h.unreached b
  · rw [hvalue]
    split
    next heq => exact ⟨x, heq ▸ hx, hused, rfl⟩
    next hne =>
      rcases List.mem_append.mp hm with hm | hm
      · exact h.values m hm
      · exact absurd (List.mem_singleton.mp hm) hne
  · rw [htrace, Array.toList_push] at he
    rcases List.mem_append.mp he with he | he
    · exact h.trace e he
    · obtain rfl := List.mem_singleton.mp he
      exact ⟨x, hx, rfl⟩

/-- Before the first visit every live node waits, so nothing can be violated unseen. -/
theorem Seeded.sound {c : Scope} {order : List NodeId} {s : Propagation} {w : Worklist}
    (h : Seeded c order s w) (horder : ∀ n, n ∈ order ↔ c.graph.Live n) : Sound c s w where
  valid := h.valid
  size := h.size
  queued n hn := (horder n).mp ((h.queue n).mp hn)
  undecided e mark hmark := .inl (h.undecided e mark hmark)
  registered e x he := h.registered e ((horder e).mpr he) x
  blocks b hb := by simp [h.unreached b] at hb
  seeded n x hn hx hc := by
    obtain ⟨y, hy, -, hvalue⟩ := h.values n ((horder n).mpr hn)
    rw [hx] at hy
    cases hy
    rw [hvalue, firstFact, if_neg (by simp [hc])]
  untouched n x hn hx hc _ := by
    obtain ⟨y, hy, -, hvalue⟩ := h.values n ((horder n).mpr hn)
    rw [hx] at hy
    cases hy
    rw [hvalue, firstFact, if_pos hc]
  below a ha := by
    refine ⟨fun n hn => ?_, fun n hn htaken => ?_, fun n hn hreach => ?_⟩
    · obtain ⟨x, hx, -, hvalue⟩ := h.values n ((horder n).mpr hn)
      show (s.value n).le (a.value n) = true
      rw [hvalue, firstFact]
      split
      · exact Fact.unknown_le _
      next hc =>
        rw [ha.seed n x hn hx (by simpa using hc)]
        exact Fact.le_refl _
    · have htaken : s.tracker.mark? n = some .taken := by
        simpa [assignment, Tracker.isTaken] using htaken
      have := h.undecided n _ htaken
      cases this
    · have hreach : s.tracker.isReachable n = true := hreach
      rw [h.unreached n] at hreach
      cases hreach
  holds n x hn hx hwaits := absurd (.inl ((h.queue n).mpr ((horder n).mpr hn))) hwaits

end Propagation

/-! ### The end -/

namespace Solution

/-- What the analysis says. -/
def assignment (r : Solution) : Assignment where
  value n := (r.value? n).getD .varying
  taken e := r.mark? e == some .taken
  reachable := r.isReachable

end Solution

theorem IdMap.find?_map {α β : Type} (f : α → β) (n : NodeId) (m : IdMap α) :
    IdMap.find? n (m.map fun e => (e.1, f e.2)) = (IdMap.find? n m).map f := by
  induction m with
  | nil => rfl
  | cons e m ih =>
    rw [List.map_cons, find?, find?, ih]
    split <;> rfl

/-- Settling turns the edges still undecided into edges that are not taken. -/
theorem Tracker.mark?_finalize (t : Tracker) (e : NodeId) :
    t.finalize.mark? e = (t.mark? e).map fun m => if m = .undecided then .notTaken else m := by
  unfold mark? finalize
  exact IdMap.find?_map (fun m => if m = .undecided then .notTaken else m) e t.marks

/-- A walk that meets no retired node sets up the scope of the analysis. -/
theorem Propagation.Scope.Fits.of_walk {g : Graph} {walk : Walk} {members : IdMap (List NodeId)}
    (hg : g.Mirrored) (hwalk : Walk.Complete g walk)
    (hmembers : g.membersByBlock walk.live.toList = .ok members) (hdangling : walk.dangling = []) :
    Propagation.Scope.Fits { graph := g, live := walk.live, members } := by
  refine ⟨hwalk.capacity, hwalk.contains_iff, fun b n => ?_, hg, fun n m hn hm => ?_⟩
  · rw [Graph.mem_membersByBlock hmembers, BitSet.mem_toList, hwalk.contains_iff]
  · cases hret : g.isRetired m with
    | false => rfl
    | true =>
      have := (hwalk.mem_dangling n m).mpr ⟨hn, hm, hret⟩
      rw [hdangling] at this
      cases this

theorem Propagation.Seeded.of_seed {c : Propagation.Scope} {order : List NodeId}
    {u : Propagation} {w : Worklist}
    (h : (Propagation.handlers c).seed c.graph.size order (Propagation.start c.graph) =
      .ok (u, w)) : Propagation.Seeded c order u w := by
  obtain ⟨⟨u', w'⟩, hfold, h⟩ := bind_eq_ok.mp h
  cases h
  have := foldlM_eq_ok (I := fun done p => Propagation.Seeded c done p.1 p.2) hfold ?_
    fun done n rest p q _ hp hturn => ?_
  · exact { this with valid := ⟨this.valid.nodup, this.valid.pending, this.valid.capacity⟩ }
  · exact
      { valid := .empty c.graph.size
        size := Array.size_replicate
        queue := fun n => by simp [Worklist.empty]
        undecided := fun e mark hmark => by cases hmark
        registered := fun e he => by cases he
        capacity := rfl
        unreached := fun b => by simp [Propagation.start, Tracker.new, Tracker.isReachable]
        values := fun n hn => by cases hn
        traced := rfl
        trace := fun e he => by cases he }
  · obtain ⟨t, ht, hturn⟩ := bind_eq_ok.mp hturn
    cases hturn
    exact hp.init ht

/-- An analysis that succeeds has emptied its worklist: every constraint was looked at. -/
theorem Graph.analyze_eq_ok {g : Graph} {r : Solution} (hg : g.Mirrored) (h : g.analyze = .ok r) :
    ∃ (c : Propagation.Scope) (s : Propagation) (w : Worklist), c.graph = g ∧ c.Fits ∧
      s.Sound c w ∧ (∀ n, g.Live n → g.isRetired n = false) ∧ w.queue = [] ∧
      r.values = s.values ∧ r.marks = s.tracker.finalize.marks ∧
      r.reachable = s.tracker.reachable := by
  obtain ⟨walk, hwalk, h⟩ := bind_eq_ok.mp h
  obtain ⟨members, hmembers, h⟩ := bind_eq_ok.mp h
  obtain ⟨⟨s, stats⟩, hrun, h⟩ := bind_eq_ok.mp h
  cases h
  have hcomplete := Walk.complete_of_run hwalk
  let c : Propagation.Scope := { graph := g, live := walk.live, members }
  have hfits (hdangling : walk.dangling = []) : c.Fits := .of_walk hg hcomplete hmembers hdangling
  have hseed : ∀ u w, (Propagation.handlers c).seed g.size walk.order (Propagation.start g) =
      .ok (u, w) → Propagation.Seeded c walk.order u w := fun _ _ h => .of_seed h
  have hused : ∀ u w, Propagation.Seeded c walk.order u w → ∀ n, g.Live n →
      g.isRetired n = false := by
    intro u w hs n hn
    obtain ⟨x, hx, hop, -⟩ := hs.values n ((hcomplete.mem_order n).mpr hn)
    exact Graph.isRetired_eq_false.mpr ⟨x, hx, hop⟩
  obtain ⟨hdangling, w, hqueue, hsound⟩ := Handlers.run_eq_ok
    (I := fun s w => (∀ n, g.Live n → g.isRetired n = false) ∧
      (walk.dangling = [] → s.Sound c w)) hrun
    (fun u w hs => ⟨hused u w (hseed u w hs), fun _ => (hseed u w hs).sound hcomplete.mem_order⟩)
    (fun u w n w' u' v hs hpop hvisit => by
      obtain ⟨out, hout, rfl⟩ := Handlers.queueing_visit.mp hvisit
      exact ⟨hs.1, fun hd => (hs.2 hd).visit (hfits hd) hpop hout⟩)
  exact ⟨c, s, w, rfl, hfits hdangling, hsound.2 hdangling, hsound.1, hqueue, rfl, rfl, rfl⟩

/-- What is said at the end is what the last state of the analysis says. -/
theorem Solution.assignment_eq {r : Solution} {s : Propagation} (hvalues : r.values = s.values)
    (hmarks : r.marks = s.tracker.finalize.marks) (hreach : r.reachable = s.tracker.reachable) :
    r.assignment = s.assignment := by
  unfold Solution.assignment Propagation.assignment
  congr 1
  · funext n
    rw [Solution.value?, hvalues]
    rfl
  · funext e
    show (r.marks.find? e == some .taken) = _
    rw [hmarks]
    show (s.tracker.finalize.mark? e == some .taken) = _
    rw [Tracker.mark?_finalize, Tracker.isTaken]
    cases s.tracker.mark? e with
    | none => rfl
    | some m => cases m <;> rfl
  · funext b
    rw [Solution.isReachable, hreach]
    rfl

/-- The entry of a graph that can be analysed is one of its live blocks. -/
theorem Graph.Built.entry_live {g : Graph} (hg : g.Built)
    (hused : ∀ n m, g.Live n → m ∈ g.inputs n → g.isRetired m = false) :
    g.Live Anchor.startBlock ∧ ∃ x, g.nodes[Anchor.startBlock]? = some x ∧ x.op = .block := by
  obtain ⟨start, hstart, hkeep⟩ := hg.keeps_anchor (i := Anchor.start) rfl
  obtain ⟨x, hx, rfl⟩ := Option.map_eq_some_iff.mp hstart
  have hlive : g.Live Anchor.start := ⟨Anchor.start, by simp, .refl⟩
  have hinput : Anchor.startBlock ∈ g.inputs Anchor.start := by
    rw [Graph.inputs_eq hx, Node.inputs]
    have hblock : x.block = some Anchor.startBlock := hkeep.block
    rw [hblock]
    exact List.mem_append_left _ (List.mem_singleton_self _)
  have hentry := hused _ _ hlive hinput
  refine ⟨hlive.needs ⟨hinput, hentry⟩, ?_⟩
  obtain ⟨entry, hslot, hkeep'⟩ := hg.keeps_anchor (i := Anchor.startBlock) rfl
  obtain ⟨y, hy, rfl⟩ := Option.map_eq_some_iff.mp hslot
  obtain ⟨z, hz, hop⟩ := Graph.isRetired_eq_false.mp hentry
  rw [hy] at hz
  cases hz
  exact ⟨y, hy, hkeep'.op.resolve_right hop⟩

/-- With nothing waiting, every constraint is satisfied. -/
theorem Propagation.Sound.solves {c : Propagation.Scope} {s : Propagation} {w : Worklist}
    (hs : s.Sound c w) (hqueue : w.queue = []) (hlive : c.graph.Live Anchor.startBlock)
    (hentry : ∃ x, c.graph.nodes[Anchor.startBlock]? = some x ∧ x.op = .block) :
    s.assignment.Solves c.graph := by
  have hnobody : ∀ n x, ¬ Propagation.Waits w n x := by
    rintro n x (hn | ⟨-, b, hb, -⟩)
    · rw [hqueue] at hn
      cases hn
    · rw [hqueue] at hb
      cases hb
  have hholds := fun n x hn hx => hs.holds n x hn hx (hnobody n x)
  obtain ⟨x, hx, hop⟩ := hentry
  exact
    { entry := (hholds _ x hlive hx).enter hop (.inl rfl)
      enter := fun b x hb hx hop e he htaken => (hholds b x hb hx).enter hop (.inr ⟨e, he, htaken⟩)
      leave := fun n x hn hx => (hholds n x hn hx).leave
      choose := fun n x side hn hx => (hholds n x hn hx).choose side
      seed := hs.seeded
      compute := fun n x hn hx => (hholds n x hn hx).compute }

/-- What an analysis says about a graph made by the primitives. -/
structure Solution.Describes (r : Solution) (g : Graph) : Prop where
  solves : r.assignment.Solves g
  least : ∀ a : Assignment, a.Solves g → r.assignment.Below g a
  /-- Nothing a live node depends on is retired. -/
  inUse : ∀ n m, g.Live n → m ∈ g.inputs n → g.isRetired m = false
  used : ∀ n, g.Live n → g.isRetired n = false
  value : ∀ n, g.Live n → r.value? n = some (r.assignment.value n)
  marks : ∀ e mark, r.mark? e = some mark → mark = .taken ∨ mark = .notTaken
  registered : ∀ e x, g.Live e → g.nodes[e]? = some x → x.op.isEdge = true → r.mark? e ≠ none
  untouched : ∀ n x, g.Live n → g.nodes[n]? = some x → g.computes x = true →
    r.assignment.enters x = false → r.assignment.value n = .unknown

theorem Graph.Mirrored.describes {g : Graph} {r : Solution} (hg : g.Mirrored)
    (h : g.analyze = .ok r)
    (hentry : (∀ n m, g.Live n → m ∈ g.inputs n → g.isRetired m = false) →
      g.Live Anchor.startBlock ∧ ∃ x, g.nodes[Anchor.startBlock]? = some x ∧ x.op = .block) :
    r.Describes g := by
  obtain ⟨c, s, w, rfl, hf, hs, hused, hqueue, hvalues, hmarks, hreach⟩ := g.analyze_eq_ok hg h
  obtain ⟨hlive, hblock⟩ := hentry hf.inUse
  have hmark : ∀ e, r.mark? e = s.tracker.finalize.mark? e := fun e => by
    rw [Solution.mark?, hmarks, Tracker.mark?]
  have heq := Solution.assignment_eq hvalues hmarks hreach
  refine
    { solves := heq ▸ hs.solves hqueue hlive hblock
      least := heq ▸ hs.below
      inUse := hf.inUse
      used := hused
      value := fun n hn => ?_
      marks := fun e mark he => ?_
      registered := fun e x he hx hedge => ?_
      untouched := heq ▸ hs.untouched }
  · have hlt : n < s.values.size := hs.size ▸ hf.lt_size hn
    rw [heq, Solution.value?, hvalues, Array.getElem?_eq_getElem hlt]
    show _ = some (s.value n)
    rw [Propagation.value, Array.getElem?_eq_getElem hlt]
    rfl
  · rw [hmark, Tracker.mark?_finalize] at he
    obtain ⟨m, hm, rfl⟩ := Option.map_eq_some_iff.mp he
    rcases hs.undecided e m hm with rfl | rfl
    · exact .inr rfl
    · exact .inl rfl
  · rw [hmark, Tracker.mark?_finalize]
    intro hnone
    exact hs.registered e x he hx hedge (Option.map_eq_none_iff.mp hnone)

theorem Graph.Built.describes {g : Graph} {r : Solution} (hg : g.Built) (h : g.analyze = .ok r) :
    r.Describes g := hg.mirrored.describes h hg.entry_live

/-- The analysis finds the least solution of the constraints of a graph. The edges it does not
take are marked so, and computed nodes outside the reachable blocks keep no evidence. -/
theorem analyze_isLeast {g : Graph} {r : Solution} (hg : g.Built) (h : g.analyze = .ok r) :
    r.assignment.Solves g ∧
      (∀ a : Assignment, a.Solves g → r.assignment.Below g a) ∧
      (∀ n, g.Live n → r.value? n = some (r.assignment.value n)) ∧
      (∀ e x, g.Live e → g.nodes[e]? = some x → x.op.isEdge = true →
        r.mark? e = some (if r.assignment.taken e then .taken else .notTaken)) ∧
      (∀ e mark, r.mark? e = some mark → r.assignment.taken e = false → mark = .notTaken) ∧
      ∀ n x, g.Live n → g.nodes[n]? = some x → g.computes x = true →
        r.assignment.enters x = false → r.value? n = some .unknown := by
  have hr := hg.describes h
  refine ⟨hr.solves, hr.least, hr.value, fun e x he hx hedge => ?_, fun e mark he htaken => ?_,
    fun n x hn hx hc hin => ?_⟩
  · cases hm : r.mark? e with
    | none => exact absurd hm (hr.registered e x he hx hedge)
    | some mark =>
      rcases hr.marks e mark hm with rfl | rfl
      · simp [Solution.assignment, hm]
      · simp [Solution.assignment, hm]
  · rcases hr.marks e mark he with rfl | rfl
    · simp [Solution.assignment, he] at htaken
    · rfl
  · rw [hr.value n hn, hr.untouched n x hn hx hc hin]

/-- A branch on a constant. Both arms lead to a block that returns, and the one that control never
enters computes what it returns. -/
def constantBranch : List Edit :=
  [.addNode (.const (.bool true)) .bool (some Anchor.startBlock) [],
    .addNode .cond .tuple (some Anchor.startBlock) [5],
    .addNode (.proj (.arm true)) .control (some Anchor.startBlock) [6],
    .addNode (.proj (.arm false)) .control (some Anchor.startBlock) [6],
    .addNode (.proj .memory) .memory (some Anchor.startBlock) [Anchor.start],
    .addNode .block .block none [7],
    .addNode .block .block none [8],
    .addNode .not .bool (some 11) [5],
    .addNode .ret .control (some 10) [9, 5],
    .addNode .ret .control (some 11) [9, 12],
    .addOperand Anchor.endBlock 13,
    .addOperand Anchor.endBlock 14]

theorem analyze_isLeast_constantBranch :
    ∃ g r, constantBranch.foldlM Graph.apply (.new "f" 0) = .ok g ∧ g.analyze = .ok r ∧
      r.assignment.Solves g ∧ ∀ a : Assignment, a.Solves g → r.assignment.Below g a := by
  have hok : (constantBranch.foldlM Graph.apply (.new "f" 0) >>= Graph.analyze).isOk = true := by
    decide +kernel
  obtain ⟨r, hr⟩ := exists_of_isOk hok
  obtain ⟨g, hg, hr⟩ := bind_eq_ok.mp hr
  have hbuilt : g.Built := (Graph.Built.new "f" 0).foldlM hg
  obtain ⟨hsolves, hleast, -⟩ := analyze_isLeast hbuilt hr
  exact ⟨g, r, hg, hr, hsolves, hleast⟩

end SeaOfNodes
