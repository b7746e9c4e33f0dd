import Mathlib.Data.List.Nodup
import SeaOfNodes.Proofs.Loops
import SeaOfNodes.Worklist.Engine

/-!
What a worklist holds.

The set of a valid worklist says exactly what waits in its queue. Queueing nodes of the arena adds
them (`Valid.mem_enqueueAll`), and what each visit keeps holds of the state an analysis ends with,
when nothing waits any more (`Handlers.run_eq_ok`).
-/

namespace SeaOfNodes

namespace Worklist

/-- The set says what is in the queue, and nothing waits twice. -/
structure Valid (capacity : Nat) (w : Worklist) : Prop where
  nodup : w.queue.Nodup
  pending : ∀ n, w.pending.contains n = true ↔ n ∈ w.queue
  capacity : w.pending.capacity = capacity

variable {capacity : Nat} {w : Worklist}

theorem Valid.empty (capacity : Nat) : Valid capacity (empty capacity) where
  nodup := List.nodup_nil
  pending n := by simp [Worklist.empty]
  capacity := rfl

/-- Queueing adds a node of the arena, unless it waits already. -/
theorem Valid.enqueue (h : Valid capacity w) (n : NodeId) :
    Valid capacity (w.enqueue n).1 ∧
      ∀ m, m ∈ (w.enqueue n).1.queue ↔ m ∈ w.queue ∨ m = n ∧ n < capacity := by
  unfold Worklist.enqueue
  split
  next pending hins =>
    obtain ⟨hlt, hcap, hfresh, hcontains⟩ := BitSet.insert_eq_ok hins
    have hnot : n ∉ w.queue := by
      intro hmem
      rw [(h.pending n).mpr hmem] at hfresh
      cases hfresh
    have hn : n < capacity := h.capacity ▸ hlt
    refine ⟨⟨?_, fun m => ?_, hcap.trans h.capacity⟩, fun m => ?_⟩
    · refine List.nodup_append.mpr ⟨h.nodup, List.nodup_singleton n, ?_⟩
      intro a ha b hb heq
      rw [List.mem_singleton.mp hb] at heq
      exact hnot (heq ▸ ha)
    · rw [hcontains, Bool.or_eq_true, decide_eq_true_iff, h.pending, List.mem_append,
        List.mem_singleton]
      exact or_comm
    · simp [hn]
  next hother =>
    -- the node waits already, or lies outside the arena
    refine ⟨h, fun m => ⟨.inl, ?_⟩⟩
    rintro (hm | ⟨rfl, hlt⟩)
    · exact hm
    · obtain ⟨t, ht⟩ := BitSet.insert_of_lt (s := w.pending) (h.capacity ▸ hlt)
      cases hc : w.pending.contains m with
      | true => exact (h.pending m).mp hc
      | false =>
        rw [hc] at ht
        exact absurd ht (hother t)

theorem Valid.enqueueAll (h : Valid capacity w) (ns : List NodeId) :
    Valid capacity (w.enqueueAll ns) ∧
      ∀ m, m ∈ (w.enqueueAll ns).queue ↔ m ∈ w.queue ∨ m ∈ ns ∧ m < capacity := by
  induction ns generalizing w with
  | nil => exact ⟨h, fun m => by simp [Worklist.enqueueAll]⟩
  | cons n ns ih =>
    obtain ⟨hn, hmem⟩ := h.enqueue n
    obtain ⟨hall, hmems⟩ := ih hn
    refine ⟨hall, fun m => (hmems m).trans ?_⟩
    rw [hmem, List.mem_cons, or_assoc]
    refine or_congr_right ⟨?_, ?_⟩
    · rintro (⟨rfl, hlt⟩ | ⟨hm, hlt⟩)
      · exact ⟨.inl rfl, hlt⟩
      · exact ⟨.inr hm, hlt⟩
    · rintro ⟨rfl | hm, hlt⟩
      · exact .inl ⟨rfl, hlt⟩
      · exact .inr ⟨hm, hlt⟩

theorem Valid.countVisit (h : Valid capacity w) : Valid capacity w.countVisit :=
  ⟨h.nodup, h.pending, h.capacity⟩

theorem Valid.count_le_one (h : Valid capacity w) (n : NodeId) : w.queue.count n ≤ 1 :=
  List.nodup_iff_count_le_one.mp h.nodup n

/-- Queueing nodes makes no node wait that is not among them. -/
theorem Valid.count_enqueueAll_le (h : Valid capacity w) (ns : List NodeId) (m : NodeId) :
    (w.enqueueAll ns).queue.count m ≤ w.queue.count m + if m ∈ ns then 1 else 0 := by
  obtain ⟨hvalid, hmem⟩ := h.enqueueAll ns
  have hone := hvalid.count_le_one m
  by_cases hm : m ∈ (w.enqueueAll ns).queue
  · rcases (hmem m).mp hm with hm | ⟨hm, -⟩
    · have := List.count_pos_iff.mpr hm
      omega
    · rw [if_pos hm]
      omega
  · rw [List.count_eq_zero.mpr hm]
    exact Nat.zero_le _

/-- Taking a node removes it from the queue and from the set. -/
theorem Valid.pop (h : Valid capacity w) {n : NodeId} {w' : Worklist}
    (hpop : w.pop = some (n, w')) : Valid capacity w' ∧ w.queue = n :: w'.queue := by
  unfold Worklist.pop at hpop
  split at hpop
  next => cases hpop
  next m queue hq =>
    cases hpop
    have hnodup := h.nodup
    rw [hq] at hnodup
    obtain ⟨hnot, hqueue⟩ := List.nodup_cons.mp hnodup
    refine ⟨⟨hqueue, fun m => ?_, ?_⟩, hq⟩
    · rw [BitSet.contains_erase, Bool.and_eq_true, decide_eq_true_iff, h.pending, hq,
        List.mem_cons]
      constructor
      · rintro ⟨hne, hm | hm⟩
        · exact absurd hm hne
        · exact hm
      · intro hm
        exact ⟨fun heq => hnot (heq ▸ hm), .inr hm⟩
    · rw [← h.capacity]
      exact BitSet.capacity_erase ..

/-! ### The counters -/

/-- The counters of a worklist on which `seeded` nodes were queued at the start: what was queued
since was visited, or waits. -/
structure Tallied (seeded : Nat) (w : Worklist) : Prop where
  seeded : w.stats.seeded = seeded
  enqueued : w.stats.enqueued = w.stats.visits + w.queue.length

variable {seeded : Nat}

theorem stats_enqueue (w : Worklist) (n : NodeId) :
    (w.enqueue n).1.stats.seeded = w.stats.seeded ∧
      (w.enqueue n).1.stats.visits = w.stats.visits ∧
      (w.enqueue n).1.stats.enqueued + w.queue.length =
        w.stats.enqueued + (w.enqueue n).1.queue.length := by
  rcases w.enqueue_cases n with h | ⟨pending, h⟩
  · rw [h]
    exact ⟨rfl, rfl, rfl⟩
  · rw [h]
    refine ⟨rfl, rfl, ?_⟩
    simp only [List.length_append, List.length_singleton]
    omega

theorem Tallied.enqueue (h : Tallied seeded w) (n : NodeId) : Tallied seeded (w.enqueue n).1 := by
  obtain ⟨hseeded, hvisits, henqueued⟩ := w.stats_enqueue n
  refine ⟨hseeded.trans h.seeded, ?_⟩
  have := h.enqueued
  omega

theorem Tallied.enqueueAll (h : Tallied seeded w) (ns : List NodeId) :
    Tallied seeded (w.enqueueAll ns) := by
  induction ns generalizing w with
  | nil => exact h
  | cons n ns ih => exact ih (h.enqueue n)

theorem visits_enqueueAll (w : Worklist) (ns : List NodeId) :
    (w.enqueueAll ns).stats.visits = w.stats.visits := by
  induction ns generalizing w with
  | nil => rfl
  | cons n ns ih => exact (ih (w.enqueue n).1).trans (w.stats_enqueue n).2.1

theorem stats_pop {n : NodeId} {w' : Worklist} (h : w.pop = some (n, w')) :
    w'.stats = w.stats ∧ w.queue = n :: w'.queue := by
  unfold Worklist.pop at h
  split at h
  next => cases h
  next m queue hq =>
    cases h
    exact ⟨rfl, hq⟩

/-- A visit moves a node from those that wait to those that were visited. -/
theorem Tallied.visit (h : Tallied seeded w) {n : NodeId} {w' : Worklist}
    (hpop : w.pop = some (n, w')) (ns : List NodeId) :
    Tallied seeded (w'.countVisit.enqueueAll ns) := by
  obtain ⟨hstats, hqueue⟩ := stats_pop hpop
  have henqueued := h.enqueued
  rw [hqueue, ← hstats, List.length_cons] at henqueued
  have hcounted : Tallied seeded w'.countVisit := by
    refine ⟨(congrArg Stats.seeded hstats).trans h.seeded, ?_⟩
    show w'.stats.enqueued = w'.stats.visits + 1 + w'.queue.length
    omega
  exact hcounted.enqueueAll ns

end Worklist

namespace Handlers

variable {σ : Type} {h : Handlers σ} {p : Progress h} {g : Graph} {walk : Walk} {s t : σ}
  {stats : Worklist.Stats}

/-- Before the first visit every node of the walk counts as seeded. -/
theorem tallied_of_seed {order : List NodeId} {capacity : Nat} {u : σ} {w : Worklist}
    (hseed : h.seed capacity order s = .ok (u, w)) :
    w.Tallied order.length ∧ w.stats.visits = 0 := by
  obtain ⟨⟨u', w'⟩, hfold, hseed⟩ := bind_eq_ok.mp hseed
  cases hseed
  obtain ⟨htally, hvisits⟩ := foldlM_eq_ok
    (I := fun _ p => p.2.Tallied 0 ∧ p.2.stats.visits = 0) hfold ⟨⟨rfl, rfl⟩, rfl⟩
    fun done n rest p q _ hp hturn => by
      obtain ⟨t, ht, hturn⟩ := bind_eq_ok.mp hturn
      cases hturn
      exact ⟨hp.1.enqueue n, (p.2.stats_enqueue n).2.1.trans hp.2⟩
  exact ⟨⟨rfl, htally.enqueued⟩, hvisits⟩

/-- An analysis that ends has visited everything that waited, so what holds when the nodes are
seeded and is kept by every visit holds of its result, counters included. -/
theorem run_eq_ok_stats {I : σ → Worklist → Prop} (hrun : run p g walk s = .ok (t, stats))
    (seeded : ∀ u w, h.seed g.size walk.order s = .ok (u, w) → I u w)
    (visited : ∀ u w n w' u' v, I u w → w.pop = some (n, w') →
      h.visit u n w'.countVisit = .ok (u', v) → I u' v) :
    walk.dangling = [] ∧ ∃ w, w.queue = [] ∧ w.stats = stats ∧ I t w := by
  unfold run at hrun
  split at hrun
  next => cases hrun
  next hdangling =>
    obtain ⟨⟨u, w⟩, hseed, hrun⟩ := bind_eq_ok.mp hrun
    refine ⟨hdangling, ?_⟩
    refine iterate_preserves (I := fun s => I s.1 s.2)
      (P := fun r : Except Error (σ × Worklist.Stats) =>
        r = .ok (t, stats) → ∃ w, w.queue = [] ∧ w.stats = stats ∧ I t w)
      (fun a b ha hstep => ?_) (fun a r ha hstop hr => ?_) (u, w) (seeded u w hseed) hrun
    · unfold step at hstep
      split at hstep
      next => cases hstep
      next n w' hpop =>
        split at hstep
        next => cases hstep
        next hvisit =>
          cases hstep
          exact visited _ _ _ _ _ _ ha hpop hvisit
    · subst hr
      unfold step at hstop
      split at hstop
      next hpop =>
        cases hstop
        refine ⟨a.2, ?_, rfl, ha⟩
        unfold Worklist.pop at hpop
        split at hpop
        next hq => exact hq
        next => cases hpop
      next => split at hstop <;> cases hstop

theorem run_eq_ok {I : σ → Worklist → Prop} (hrun : run p g walk s = .ok (t, stats))
    (seeded : ∀ u w, h.seed g.size walk.order s = .ok (u, w) → I u w)
    (visited : ∀ u w n w' u' v, I u w → w.pop = some (n, w') →
      h.visit u n w'.countVisit = .ok (u', v) → I u' v) :
    walk.dangling = [] ∧ ∃ w, w.queue = [] ∧ I t w := by
  obtain ⟨hdangling, w, hqueue, -, hw⟩ := run_eq_ok_stats hrun seeded visited
  exact ⟨hdangling, w, hqueue, hw⟩

/-- An analysis whose visits succeed ends with a result. -/
theorem exists_run {I : σ → Worklist → Prop} (hdangling : walk.dangling = []) {u : σ}
    {w : Worklist} (hseed : h.seed g.size walk.order s = .ok (u, w)) (hu : I u w)
    (visited : ∀ u w n w' u' v, I u w → w.pop = some (n, w') →
      h.visit u n w'.countVisit = .ok (u', v) → I u' v)
    (visits : ∀ u w n w', I u w → w.pop = some (n, w') →
      ∃ r, h.visit u n w'.countVisit = .ok r) :
    ∃ r, run p g walk s = .ok r := by
  unfold run
  rw [hdangling, hseed]
  refine iterate_preserves (I := fun s => I s.1 s.2)
    (P := fun r : Except Error (σ × Worklist.Stats) => ∃ a, r = .ok a)
    (fun a b ha hstep => ?_) (fun a r ha hstop => ?_) (u, w) hu
  · unfold step at hstep
    split at hstep
    next => cases hstep
    next n w' hpop =>
      split at hstep
      next => cases hstep
      next hvisit =>
        cases hstep
        exact visited _ _ _ _ _ _ ha hpop hvisit
  · unfold step at hstop
    split at hstop
    next => exact ⟨_, (Sum.inr.inj hstop).symm⟩
    next n w' hpop =>
      obtain ⟨t, hvisit⟩ := visits _ _ _ _ ha hpop
      rw [hvisit] at hstop
      cases hstop

end Handlers

end SeaOfNodes
