import Mathlib.Algebra.BigOperators.Ring.List
import Mathlib.Algebra.Order.BigOperators.Group.Finset
import Mathlib.Data.Set.Card
import SeaOfNodes.Proofs.Fixpoint
import SeaOfNodes.Proofs.Verified

/-!
How many visits constant propagation makes.

A node is queued for one of four reasons: the fact about an operand went up, an edge into the block
it is was taken, the block it stands in became reachable, or it is a phi and its block was visited
again. The first three happen at most as often as there are changes left in what the node reads
(`Assignment.stirs`), the last at most as often as the block is visited (`Assignment.sweeps`). What
is due to a node (`Assignment.due`) counts both, and each visit lowers the sum over the live nodes
(`Propagation.Move.due_le`). In a graph that passes the check, at most `3 + 3 * k` visits are due to
a node with `k` operands at the start, since the edges into a block carry no facts that change and a
phi has as many operands as its block. So the work is linear (`Graph.Built.analyze_effort`).
-/

namespace SeaOfNodes

theorem Fact.height_le_of_le {a b : Fact} (h : a.le b = true) : b.height ≤ a.height := by
  by_cases heq : a = b
  · rw [heq]
  · exact Nat.le_of_lt (height_lt_of_le h heq)

/-! ### Visits that are due -/

/-- The block whose visits queue a node: its phis are looked at again whenever a block is. -/
def Node.sweeper? (x : Node) : Option NodeId := if x.op = .phi then x.block else none

namespace Assignment

/-- One while a block is not reachable, whose members are going to be queued if it becomes so. -/
def shut (a : Assignment) (b : Option NodeId) : Nat :=
  b.elim 0 fun b => if a.reachable b then 0 else 1

/-- How often what a node reads can still change: the facts about its operands, the edges into it
if it is a block, and whether its own block is reachable. -/
def stirs (a : Assignment) (x : Node) : Nat :=
  (x.operands.map fun o => (a.value o).height).sum +
    (if x.op = .block then x.operands.countP fun e => !a.taken e else 0) + a.shut x.block

/-- How often a node can still be visited for the sake of what it reads. -/
def calls (g : Graph) (a : Assignment) (queue : List NodeId) (n : NodeId) : Nat :=
  queue.count n + g.nodes[n]?.elim 0 a.stirs

/-- How often the visit of a block can still queue its phis. The visits before it is reachable do
not, and the one that makes it reachable queues them among its members. -/
def sweeps (g : Graph) (a : Assignment) (queue : List NodeId) (b : NodeId) : Nat :=
  a.calls g queue b - a.shut (some b)

/-- How often a node can still be visited. -/
def due (g : Graph) (a : Assignment) (queue : List NodeId) (n : NodeId) : Nat :=
  a.calls g queue n + (g.nodes[n]?.bind Node.sweeper?).elim 0 (a.sweeps g queue)

variable {a : Assignment} {n : NodeId} {y : Node} {v : Fact}

theorem shut_le_one (a : Assignment) (b : Option NodeId) : a.shut b ≤ 1 := by
  cases b with
  | none => exact Nat.zero_le 1
  | some b =>
    show (if a.reachable b then 0 else 1) ≤ 1
    split <;> omega

theorem shut_reach_le (b : Option NodeId) : (a.reach n).shut b ≤ a.shut b := by
  cases b with
  | none => exact Nat.le_refl 0
  | some b =>
    show (if (decide (b = n) || a.reachable b) = true then 0 else 1) ≤ if a.reachable b then 0 else 1
    cases a.reachable b with
    | true => simp
    | false =>
      simp only [Bool.or_false, decide_eq_true_eq, Bool.false_eq_true, if_false]
      split <;> omega

theorem height_raise_le (hle : (a.value n).le v = true) (o : NodeId) :
    ((a.raise n v).value o).height ≤ (a.value o).height := by
  show (if o = n then v else a.value o).height ≤ (a.value o).height
  split
  next heq => exact heq ▸ Fact.height_le_of_le hle
  next => exact Nat.le_refl _

/-- A fact that goes up leaves fewer changes to those that read it. -/
theorem stirs_raise_le (hle : (a.value n).le v = true) : (a.raise n v).stirs y ≤ a.stirs y :=
  Nat.add_le_add_right (Nat.add_le_add_right (List.sum_le_sum fun o _ => height_raise_le hle o) _) _

theorem stirs_raise_lt (hle : (a.value n).le v = true) (hne : a.value n ≠ v)
    (hn : n ∈ y.operands) : (a.raise n v).stirs y < a.stirs y := by
  refine Nat.add_lt_add_right (Nat.add_lt_add_right
    (List.sum_lt_sum _ _ (fun o _ => height_raise_le hle o) ⟨n, hn, ?_⟩) _) _
  show (if n = n then v else a.value n).height < (a.value n).height
  rw [if_pos rfl]
  exact Fact.height_lt_of_le hle hne

theorem untaken_of_take {e : NodeId} (he : (!(a.take n).taken e) = true) :
    (!a.taken e) = true := by
  have he : (decide (e = n) || a.taken e) = false := by simpa [take] using he
  simp [(Bool.or_eq_false_iff.mp he).2]

theorem stirs_take_le : (a.take n).stirs y ≤ a.stirs y := by
  refine Nat.add_le_add_right (Nat.add_le_add_left ?_ _) _
  split
  · exact List.countP_mono_left fun e _ he => untaken_of_take he
  · exact Nat.le_refl 0

/-- An edge that is taken does not enter its block again. -/
theorem stirs_take_lt (hfresh : a.taken n = false) (hop : y.op = .block) (hn : n ∈ y.operands) :
    (a.take n).stirs y < a.stirs y := by
  refine Nat.add_lt_add_right (Nat.add_lt_add_left ?_ _) _
  rw [if_pos hop, if_pos hop]
  refine countP_lt_countP (fun e _ he => untaken_of_take he) hn ?_ ?_
  · simp [hfresh]
  · simp [take]

theorem stirs_reach_le : (a.reach n).stirs y ≤ a.stirs y :=
  Nat.add_le_add_left (shut_reach_le y.block) _

theorem stirs_reach_lt (hfresh : a.reachable n = false) (hb : y.block = some n) :
    (a.reach n).stirs y < a.stirs y := by
  refine Nat.add_lt_add_left ?_ _
  rw [hb]
  show (if (decide (n = n) || a.reachable n) = true then 0 else 1) < if a.reachable n then 0 else 1
  simp [hfresh]

end Assignment

/-! ### What a visit does to them -/

namespace Propagation

section Visit

variable {c : Scope} {s t : Propagation} {n m : NodeId} {x y : Node} {out rest queue' : List NodeId}

theorem Move.stirs_le (hm : Move c s n x t out) (y : Node) :
    t.assignment.stirs y ≤ s.assignment.stirs y := by
  cases hm with
  | idle => exact Nat.le_refl _
  | phis => exact Nat.le_refl _
  | reach hop hcause hvalues hmarks heq => exact heq ▸ Assignment.stirs_reach_le
  | take hready hvalues hmarks heq => exact heq ▸ Assignment.stirs_take_le
  | raise hc hin hle hsize htracker heq => exact heq ▸ Assignment.stirs_raise_le hle

/-- The visit of `n` queues the phi `y` because it stands there. -/
def Sweeps (s : Propagation) (n : NodeId) (y : Node) : Prop :=
  y.sweeper? = some n ∧ s.tracker.isReachable n = true

/-- Why a node is queued. -/
theorem Move.reason (hm : Move c s n x t out) (hf : c.Fits) (hx : c.graph.nodes[n]? = some x)
    (hy : c.graph.nodes[m]? = some y) (hmem : m ∈ out) :
    t.assignment.stirs y < s.assignment.stirs y ∨ s.Sweeps n y := by
  have hoperand (huser : m ∈ x.users) : n ∈ y.operands := by
    rw [← Graph.operands_eq hy, ← hf.mirrored.mem_users, Graph.users_eq hx]
    exact huser
  cases hm with
  | idle => cases hmem
  | phis hop hreach hall hout =>
    obtain ⟨hfiled, y', hy', hphi⟩ := hout m hmem
    rw [hy] at hy'
    cases hy'
    have hblock := ((hf.members n m).mp hfiled).2
    rw [Graph.blockOf_eq hy] at hblock
    exact .inr ⟨by rw [Node.sweeper?, if_pos hphi, hblock], hreach⟩
  | reach hop hcause hvalues hmarks heq hfresh =>
    have hblock := ((hf.members n m).mp hmem).2
    rw [Graph.blockOf_eq hy] at hblock
    exact .inl (heq ▸ Assignment.stirs_reach_lt hfresh hblock)
  | take hready hvalues hmarks heq hout hlive hfresh hblocks =>
    obtain ⟨huser, y', hy', hop⟩ := hblocks m hmem
    rw [hy] at hy'
    cases hy'
    exact .inl (heq ▸ Assignment.stirs_take_lt hfresh hop (hoperand huser))
  | raise hc hin hle hsize htracker heq hne =>
    exact .inl (heq ▸ Assignment.stirs_raise_lt hle hne (hoperand (List.mem_filter.mp hmem).1))

open Classical in
/-- Of the calls due to a node, its visit uses one up, and only a sweep adds to them. -/
theorem Move.calls_le (hm : Move c s n x t out) (hf : c.Fits) (hx : c.graph.nodes[n]? = some x)
    (hqueue : ∀ m, queue'.count m ≤ rest.count m + if m ∈ out then 1 else 0)
    (hy : c.graph.nodes[m]? = some y) :
    t.assignment.calls c.graph queue' m + (if m = n then 1 else 0) ≤
      s.assignment.calls c.graph (n :: rest) m + if s.Sweeps n y then 1 else 0 := by
  have hcount : (n :: rest).count m = rest.count m + if m = n then 1 else 0 := by
    rw [List.count_cons]
    by_cases hmn : m = n
    · simp [hmn]
    · simp [hmn, Ne.symm hmn]
  have hstirs := hm.stirs_le y
  have hqueue := hqueue m
  unfold Assignment.calls
  rw [hy, hcount, Option.elim_some, Option.elim_some]
  -- a node that is queued pays for it with a change in what it reads, unless it is swept
  by_cases hmem : m ∈ out
  · rw [if_pos hmem] at hqueue
    rcases hm.reason hf hx hy hmem with hlt | hsweeps
    · omega
    · rw [if_pos hsweeps]
      omega
  · rw [if_neg hmem] at hqueue
    omega

open Classical in
/-- A visit of a reachable block uses up one of its sweeps. -/
theorem Move.sweeps_le (hm : Move c s n x t out) (hf : c.Fits) (hx : c.graph.nodes[n]? = some x)
    (hqueue : ∀ m, queue'.count m ≤ rest.count m + if m ∈ out then 1 else 0)
    (hy : c.graph.nodes[m]? = some y) (hop : y.op = .block) :
    t.assignment.sweeps c.graph queue' m +
        (if m = n ∧ s.tracker.isReachable n = true then 1 else 0) ≤
      s.assignment.sweeps c.graph (n :: rest) m := by
  have hcalls := hm.calls_le hf hx hqueue hy
  have hnot : ¬ s.Sweeps n y := fun h => by simp [Sweeps, Node.sweeper?, hop] at h
  rw [if_neg hnot] at hcalls
  have hshut (u : Propagation) :
      u.assignment.shut (some m) = if u.tracker.isReachable m then 0 else 1 := rfl
  unfold Assignment.sweeps
  rw [hshut, hshut]
  cases hbefore : s.tracker.isReachable m with
  | true =>
    rw [hm.grows.reachable m hbefore]
    simp only [if_true]
    by_cases hmn : m = n
    · rw [if_pos hmn] at hcalls
      rw [if_pos ⟨hmn, hmn ▸ hbefore⟩]
      omega
    · rw [if_neg hmn] at hcalls
      rw [if_neg fun h => hmn h.1]
      omega
  | false =>
    have hno : ¬ (m = n ∧ s.tracker.isReachable n = true) := by
      rintro ⟨rfl, hreach⟩
      rw [hbefore] at hreach
      cases hreach
    rw [if_neg hno]
    cases hafter : t.tracker.isReachable m with
    | false =>
      simp only [Bool.false_eq_true, if_false]
      omega
    | true =>
      -- only the visit of the block itself makes it reachable
      rcases hm.grows.blocks m hafter with hreach | ⟨rfl, -⟩
      · rw [hbefore] at hreach
        cases hreach
      · rw [if_pos rfl] at hcalls
        simp only [Bool.false_eq_true, if_false, if_true]
        omega

/-- A visit adds nothing to what is due to any node, and uses up a visit of its own. -/
theorem Move.due_le (hm : Move c s n x t out) (hf : c.Fits) (hv : c.graph.Verified)
    (hx : c.graph.nodes[n]? = some x)
    (hqueue : ∀ m, queue'.count m ≤ rest.count m + if m ∈ out then 1 else 0)
    (hlive : c.graph.Live m) (hy : c.graph.nodes[m]? = some y) :
    t.assignment.due c.graph queue' m + (if m = n then 1 else 0) ≤
      s.assignment.due c.graph (n :: rest) m := by
  classical
  have hcalls := hm.calls_le hf hx hqueue hy
  unfold Assignment.due
  rw [hy, Option.bind_some]
  by_cases hphi : y.op = .phi
  · -- a sweep adds a call to the phi and takes one off the sweeps of its block
    obtain ⟨b, z, hb, hz, hop, -⟩ := hv.phi m y hlive hy hphi
    have hsweeper : y.sweeper? = some b := by rw [Node.sweeper?, if_pos hphi, hb]
    have hsweeps := hm.sweeps_le hf hx hqueue hz hop
    have hiff : s.Sweeps n y ↔ b = n ∧ s.tracker.isReachable n = true := by
      rw [Sweeps, hsweeper, Option.some_inj]
    simp only [hiff] at hcalls
    rw [hsweeper, Option.elim_some, Option.elim_some]
    omega
  · have hsweeper : y.sweeper? = none := by rw [Node.sweeper?, if_neg hphi]
    have hnot : ¬ s.Sweeps n y := fun h => by simp [Sweeps, hsweeper] at h
    rw [if_neg hnot] at hcalls
    rw [hsweeper]
    exact hcalls

end Visit

/-! ### What is due at the start -/

section Start

variable {c : Scope} {order : List NodeId} {s : Propagation} {w : Worklist} {n : NodeId} {x : Node}

/-- What enters a block carries no fact that changes. -/
theorem height_of_entersBlock (hs : Sound c s w) (hn : c.graph.Live n)
    (hx : c.graph.nodes[n]? = some x) {b : NodeId} (h : Graph.entersBlock b x.op = true) :
    (s.value n).height = 0 := by
  obtain ⟨op, mode, block, operands, users⟩ := x
  have hcomputes : c.graph.computes ⟨op, mode, block, operands, users⟩ = false ∧
      Node.seed ⟨op, mode, block, operands, users⟩ = .varying := by
    cases op with
    | jump => exact ⟨rfl, rfl⟩
    | ret => exact ⟨rfl, rfl⟩
    | proj kind =>
      cases kind with
      | arm side => exact ⟨rfl, rfl⟩
      | _ => cases h
    | _ => cases h
  rw [hs.seeded n _ hn hx hcomputes.1, hcomputes.2]
  rfl

theorem stirs_le_of_block (hs : Sound c s w) (hf : c.Fits) (hv : c.graph.Verified)
    (hn : c.graph.Live n) (hx : c.graph.nodes[n]? = some x) (hop : x.op = .block) :
    s.assignment.stirs x ≤ x.operands.length + 1 := by
  have hfacts : (x.operands.map fun o => (s.assignment.value o).height).sum = 0 := by
    refine List.sum_eq_zero fun k hk => ?_
    obtain ⟨o, ho, rfl⟩ := List.mem_map.mp hk
    obtain ⟨-, y, hy, henters⟩ := hv.predecessor n x hn hx hop o ho
    exact height_of_entersBlock hs (hf.operands_live hn hx ho) hy henters
  have hedges := List.countP_le_length (p := fun e => !s.assignment.taken e) (l := x.operands)
  have hshut := s.assignment.shut_le_one x.block
  unfold Assignment.stirs
  rw [hfacts, if_pos hop]
  omega

theorem stirs_le_of_not_block (hop : x.op ≠ .block) :
    s.assignment.stirs x ≤ 2 * x.operands.length + 1 := by
  have hfacts : (x.operands.map fun o => (s.assignment.value o).height).sum ≤
      x.operands.length * 2 := by
    have := List.sum_le_card_nsmul (x.operands.map fun o => (s.assignment.value o).height) 2
      fun k hk => by
        obtain ⟨o, -, rfl⟩ := List.mem_map.mp hk
        exact Fact.height_le_two _
    simpa using this
  have hshut := s.assignment.shut_le_one x.block
  unfold Assignment.stirs
  rw [if_neg hop]
  omega

/-- At the start the visits due to a node are linear in the number of its operands. -/
theorem Seeded.due_le (h : Seeded c order s w) (horder : ∀ n, n ∈ order ↔ c.graph.Live n)
    (hf : c.Fits) (hv : c.graph.Verified) (hn : c.graph.Live n)
    (hx : c.graph.nodes[n]? = some x) :
    s.assignment.due c.graph w.queue n ≤ 3 + 3 * x.operands.length := by
  have hs := h.sound horder
  have hcount := h.valid.count_le_one
  have hcalls : s.assignment.calls c.graph w.queue n = w.queue.count n + s.assignment.stirs x := by
    rw [Assignment.calls, hx, Option.elim_some]
  have hone := hcount n
  unfold Assignment.due
  rw [hcalls, hx, Option.bind_some]
  by_cases hphi : x.op = .phi
  · obtain ⟨b, y, hb, hy, hop, harity⟩ := hv.phi n x hn hx hphi
    have hsweeper : x.sweeper? = some b := by rw [Node.sweeper?, if_pos hphi, hb]
    have hown := stirs_le_of_not_block (s := s) (x := x) (by simp [hphi])
    have hblock := stirs_le_of_block hs hf hv (hf.block_live hn hx hb) hy hop
    have hshut : s.assignment.shut (some b) = 1 := by
      show (if s.tracker.isReachable b then 0 else 1) = 1
      rw [h.unreached b]
      rfl
    have htwo := hcount b
    rw [hsweeper, Option.elim_some, Assignment.sweeps, hshut, Assignment.calls, hy,
      Option.elim_some]
    omega
  · have hsweeper : x.sweeper? = none := by rw [Node.sweeper?, if_neg hphi]
    rw [hsweeper, Option.elim_none]
    by_cases hop : x.op = .block
    · have := stirs_le_of_block hs hf hv hn hx hop
      omega
    · have := stirs_le_of_not_block (s := s) hop
      omega

end Start

end Propagation

/-! ### Sums over live nodes -/

/-- A sum over some numbers below `k` is at most the sum over all of them. -/
theorem sum_map_le_range {f : Nat → Nat} {l : List Nat} {k : Nat} (hl : l.Nodup)
    (hlt : ∀ n ∈ l, n < k) : (l.map f).sum ≤ ((List.range k).map f).sum := by
  rw [← List.sum_toFinset f hl, ← List.sum_toFinset f List.nodup_range]
  refine Finset.sum_le_sum_of_subset fun n hn => ?_
  rw [List.mem_toFinset] at hn ⊢
  exact List.mem_range.mpr (hlt n hn)

namespace Graph

variable {g : Graph}

theorem edgeCount_eq (g : Graph) :
    g.edgeCount = ((List.range g.size).map fun n =>
      if g.isRetired n then 0 else (g.operands n).length).sum := by
  have hnodes : ((List.range g.size).map fun n =>
      if g.isRetired n then 0 else (g.operands n).length) =
      g.nodes.toList.map fun x => if x.isRetired then 0 else x.operands.length := by
    refine List.ext_getElem (by simp [size]) fun n hn hn' => ?_
    have hlt : n < g.nodes.size := by simpa using hn'
    simp [isRetired, operands, hlt]
  rw [hnodes, edgeCount]
  induction g.nodes.toList with
  | nil => rfl
  | cons x l ih =>
    rw [List.filter_cons, List.map_cons, List.sum_cons, ← ih]
    cases x.isRetired with
    | true => simp
    | false => simp

/-- What is linear for each of some nodes in use is linear for them together. -/
theorem sum_le_size_edgeCount {l : List NodeId} {f : NodeId → Nat} (hl : l.Nodup)
    (hf : ∀ n ∈ l, ∃ x, g.nodes[n]? = some x ∧ x.op ≠ .retired ∧
      f n ≤ 3 + 3 * x.operands.length) :
    (l.map f).sum ≤ 3 * g.size + 3 * g.edgeCount := by
  have hlt : ∀ n ∈ l, n < g.size := fun n hn => by
    obtain ⟨x, hx, -⟩ := hf n hn
    exact lt_size_of_getElem? hx
  calc (l.map f).sum
      ≤ (l.map fun n => 3 + 3 * if g.isRetired n then 0 else (g.operands n).length).sum := by
        refine List.sum_le_sum fun n hn => ?_
        obtain ⟨x, hx, hop, hle⟩ := hf n hn
        rw [isRetired_eq_false.mpr ⟨x, hx, hop⟩, operands_eq hx]
        exact hle
    _ ≤ ((List.range g.size).map fun n =>
          3 + 3 * if g.isRetired n then 0 else (g.operands n).length).sum :=
        sum_map_le_range hl hlt
    _ = 3 * g.size + 3 * g.edgeCount := by
        rw [List.sum_map_add, List.sum_map_mul_left, ← edgeCount_eq]
        simp [Nat.mul_comm]

end Graph

/-! ### The whole run -/

namespace Propagation

/-- What holds between two visits: the visits made and the visits due stay within what was due at
the start. -/
structure Paced (c : Scope) (order : List NodeId) (s : Propagation) (w : Worklist) : Prop where
  sound : Sound c s w
  tallied : w.Tallied order.length
  bounded : w.stats.visits + (order.map (s.assignment.due c.graph w.queue)).sum ≤
    3 * c.graph.size + 3 * c.graph.edgeCount

section Run

variable {c : Scope} {order out : List NodeId} {s t : Propagation} {w w' : Worklist} {n : NodeId}

theorem Paced.of_seed (hseed : (handlers c).seed c.graph.size order (start c.graph) = .ok (s, w))
    (horder : ∀ n, n ∈ order ↔ c.graph.Live n) (hnodup : order.Nodup) (hf : c.Fits)
    (hv : c.graph.Verified) : Paced c order s w := by
  have hseeded := Seeded.of_seed hseed
  obtain ⟨htally, hvisits⟩ := Handlers.tallied_of_seed hseed
  refine ⟨hseeded.sound horder, htally, ?_⟩
  rw [hvisits, Nat.zero_add]
  refine Graph.sum_le_size_edgeCount hnodup fun n hn => ?_
  obtain ⟨x, hx, hop, -⟩ := hseeded.values n hn
  exact ⟨x, hx, hop, hseeded.due_le horder hf hv ((horder n).mp hn) hx⟩

/-- A visit is paid for by what was due to the node visited. -/
theorem Paced.visit (h : Paced c order s w) (horder : ∀ n, n ∈ order ↔ c.graph.Live n)
    (hf : c.Fits) (hv : c.graph.Verified) (hpop : w.pop = some (n, w'))
    (hvisit : visit c s n = .ok (t, out)) : Paced c order t (w'.countVisit.enqueueAll out) := by
  refine ⟨h.sound.visit hf hpop hvisit, h.tallied.visit hpop out, ?_⟩
  obtain ⟨hvalid, hqueue⟩ := h.sound.valid.pop hpop
  obtain ⟨x, hx, hm⟩ := Move.of_visit hvisit
  have hdue (m : NodeId) (hmem : m ∈ order) :
      t.assignment.due c.graph (w'.countVisit.enqueueAll out).queue m + (if m = n then 1 else 0) ≤
        s.assignment.due c.graph w.queue m := by
    have hlive := (horder m).mp hmem
    obtain ⟨y, hy⟩ := Graph.exists_node_of_lt (hf.lt_size hlive)
    rw [hqueue]
    exact hm.due_le hf hv hx (hvalid.countVisit.count_enqueueAll_le out) hlive hy
  have hn : n ∈ order := (horder n).mpr (h.sound.queued n (hqueue ▸ List.mem_cons_self))
  have hlt : (order.map (t.assignment.due c.graph (w'.countVisit.enqueueAll out).queue)).sum <
      (order.map (s.assignment.due c.graph w.queue)).sum := by
    refine List.sum_lt_sum _ _ (fun m hmem => ?_) ⟨n, hn, ?_⟩
    · exact Nat.le_of_add_right_le (hdue m hmem)
    · have := hdue n hn
      rw [if_pos rfl] at this
      exact this
  have hvisits : (w'.countVisit.enqueueAll out).stats.visits = w.stats.visits + 1 := by
    rw [Worklist.visits_enqueueAll, ← (Worklist.stats_pop hpop).1]
    rfl
  have := h.bounded
  omega

end Run

end Propagation

/-- The analysis of a graph that passes the check does linear work: every live node is seeded,
everything that is queued is visited, and the visits are bounded by the nodes and edges. -/
theorem Graph.Built.analyze_effort {g : Graph} (hg : g.Built) (hverify : g.verify = .ok ())
    {r : Solution} (h : g.analyze = .ok r) :
    r.stats.seeded = {n | g.Live n}.ncard ∧ r.stats.enqueued = r.stats.visits ∧
      r.stats.visits ≤ 3 * g.size + 4 * g.edgeCount := by
  obtain ⟨walk, hwalk, h⟩ := bind_eq_ok.mp h
  obtain ⟨members, hmembers, h⟩ := bind_eq_ok.mp h
  obtain ⟨⟨s, stats⟩, hrun, h⟩ := bind_eq_ok.mp h
  cases h
  have hv := verify_eq_ok hverify
  have hwalked := Walk.complete_of_run hwalk
  let c : Propagation.Scope := { graph := g, live := walk.live, members }
  have hfits (hdangling : walk.dangling = []) : c.Fits :=
    .of_walk hg.mirrored hwalked hmembers hdangling
  obtain ⟨hdangling, w, hqueue, hstats, hend⟩ := Handlers.run_eq_ok_stats
    (I := fun s w => walk.dangling = [] → s.Paced c walk.order w) hrun
    (fun u w hseed hd => .of_seed hseed hwalked.mem_order hwalked.nodup (hfits hd) hv)
    (fun u w n w' u' v hp hpop hvisit hd => by
      obtain ⟨out, hout, rfl⟩ := Handlers.queueing_visit.mp hvisit
      exact (hp hd).visit hwalked.mem_order (hfits hd) hv hpop hout)
  obtain ⟨-, htally, hbound⟩ := hend hdangling
  have henqueued := htally.enqueued
  rw [hqueue, List.length_nil, Nat.add_zero] at henqueued
  have hlive : {n | g.Live n} = (walk.order.toFinset : Set NodeId) := by
    ext n
    simp [hwalked.mem_order]
  rw [← hstats]
  refine ⟨?_, henqueued, ?_⟩
  · rw [hlive, Set.ncard_coe_finset, List.toFinset_card_of_nodup hwalked.nodup]
    exact htally.seeded
  · have hbound : w.stats.visits + _ ≤ 3 * g.size + 3 * g.edgeCount := hbound
    show w.stats.visits ≤ 3 * g.size + 4 * g.edgeCount
    omega

/-- A loop that counts up while its argument holds: the phi of the counter is first unknown, then
zero, then varying. -/
def countingLoop : List Edit :=
  [.addNode (.proj .memory) .memory (some Anchor.startBlock) [Anchor.start],
    .addNode (.proj (.argument 0)) .bool (some Anchor.startBlock) [Anchor.start],
    .addNode (.const (.int .i32 0)) (.int .i32) (some Anchor.startBlock) [],
    .addNode (.const (.int .i32 1)) (.int .i32) (some Anchor.startBlock) [],
    .addNode .jump .control (some Anchor.startBlock) [],
    .addNode .block .block none [9],
    .addNode .phi (.int .i32) (some 10) [7],
    .addNode (.binary .add) (.int .i32) (some 10) [11, 8],
    .addNode .cond .tuple (some 10) [6],
    .addNode (.proj (.arm true)) .control (some 10) [13],
    .addNode (.proj (.arm false)) .control (some 10) [13],
    .addOperand 10 14,
    .addOperand 11 12,
    .addNode .block .block none [15],
    .addNode .ret .control (some 16) [5, 11],
    .addOperand Anchor.endBlock 17]

theorem Graph.Built.analyze_effort_countingLoop :
    ∃ g r, countingLoop.foldlM Graph.apply (.new "f" 1) = .ok g ∧ g.verify = .ok () ∧
      g.analyze = .ok r ∧ r.stats.seeded = {n | g.Live n}.ncard ∧
      r.stats.enqueued = r.stats.visits ∧ r.stats.visits ≤ 3 * g.size + 4 * g.edgeCount := by
  have hok : (countingLoop.foldlM Graph.apply (.new "f" 1) >>= fun g =>
      g.verify >>= fun _ => g.analyze).isOk = true := by
    decide +kernel
  obtain ⟨r, hr⟩ := exists_of_isOk hok
  obtain ⟨g, hg, hr⟩ := bind_eq_ok.mp hr
  obtain ⟨_, hverify, hr⟩ := bind_eq_ok.mp hr
  exact ⟨g, r, hg, hverify, hr, analyze_effort ((Graph.Built.new "f" 1).foldlM hg) hverify hr⟩

end SeaOfNodes
