import SeaOfNodes.Graph.Edit
import SeaOfNodes.Proofs.Worklist
import SeaOfNodes.Worklist.Ripple

/-!
Worklists lose no work and do none twice.

Each call either adds a node at the end of the queue, takes the one at its front, or does nothing.
So what waited and what was added is what was taken and what waits, in one order
(`Worklist.queue_added`). Running an analysis whose visits use the worklist through such calls is a
history of calls on a new worklist (`Handlers.Visits.worklist_eq`), at whose end nothing waits. So
everything that was queued, also by the visit of the same node, was taken later: by the engine,
which visits it, or by a visit, which need not (`Worklist.no_work_lost`). If visits only queue, all
of it was visited.
-/

namespace SeaOfNodes

namespace Worklist

/-! ### Histories of calls -/

/-- The calls that change a worklist. -/
inductive Call where
  | enqueue (n : NodeId)
  | pop

/-- The worklist after a call. Taking from an empty one leaves it as it is. -/
def call (w : Worklist) : Call → Worklist
  | .enqueue n => (w.enqueue n).1
  | .pop => (w.pop.map Prod.snd).getD w

/-- The node that a call adds, if it adds one. -/
def adds (w : Worklist) : Call → Option NodeId
  | .enqueue n => if (w.enqueue n).2 then some n else none
  | .pop => none

/-- The node that a call takes, if it takes one. -/
def takes (w : Worklist) : Call → Option NodeId
  | .enqueue _ => none
  | .pop => w.pop.map Prod.fst

def runCalls (w : Worklist) (calls : List Call) : Worklist := calls.foldl call w

/-- The nodes that a history of calls moves, in order, where `moves` tells what one call moves. -/
def moved (moves : Worklist → Call → Option NodeId) : Worklist → List Call → List NodeId
  | _, [] => []
  | w, c :: calls => (moves w c).toList ++ moved moves (w.call c) calls

/-- The nodes of the successful calls to queue one, in order. -/
def added : Worklist → List Call → List NodeId := moved adds

/-- The nodes of the successful calls to take one, in order. -/
def taken : Worklist → List Call → List NodeId := moved takes

theorem runCalls_append (w : Worklist) (a b : List Call) :
    w.runCalls (a ++ b) = (w.runCalls a).runCalls b := List.foldl_append

theorem moved_append (moves : Worklist → Call → Option NodeId) (w : Worklist) (a b : List Call) :
    moved moves w (a ++ b) = moved moves w a ++ moved moves (w.runCalls a) b := by
  induction a generalizing w with
  | nil => rfl
  | cons c a ih =>
    rw [List.cons_append, moved, ih, ← List.append_assoc]
    rfl

/-! ### One call -/

theorem call_pop {w w' : Worklist} {n : NodeId} (h : w.pop = some (n, w')) :
    w.call .pop = w' ∧ w.takes .pop = some n := by
  simp [call, takes, h]

/-- What waited and what a call adds is what it takes and what waits then. -/
theorem queue_adds (w : Worklist) (c : Call) :
    w.queue ++ (w.adds c).toList = (w.takes c).toList ++ (w.call c).queue := by
  cases c with
  | enqueue n =>
    rcases w.enqueue_cases n with h | ⟨pending, h⟩ <;> simp [adds, takes, call, h]
  | pop =>
    cases h : w.pop with
    | none => simp [adds, takes, call, h]
    | some r =>
      obtain ⟨hcall, htakes⟩ := call_pop h
      rw [hcall, htakes, (stats_pop h).2]
      exact List.append_nil _

theorem enqueued_call (w : Worklist) (c : Call) :
    (w.call c).stats.enqueued = w.stats.enqueued + (w.adds c).toList.length := by
  cases c with
  | enqueue n =>
    rcases w.enqueue_cases n with h | ⟨pending, h⟩ <;> simp [adds, call, h]
  | pop =>
    cases h : w.pop with
    | none => simp [adds, call, h]
    | some r =>
      rw [(call_pop h).1, (stats_pop h).1]
      rfl

variable {capacity : Nat} {w : Worklist}

theorem Valid.call (h : Valid capacity w) (c : Call) : Valid capacity (w.call c) := by
  cases c with
  | enqueue n => exact (h.enqueue n).1
  | pop =>
    cases hpop : w.pop with
    | none =>
      rw [Worklist.call, hpop]
      exact h
    | some r =>
      rw [(call_pop hpop).1]
      exact (h.pop hpop).1

theorem Valid.isPending_iff (h : Valid capacity w) (n : NodeId) :
    w.isPending n = true ↔ n ∈ w.queue := h.pending n

theorem Valid.lt_capacity (h : Valid capacity w) {n : NodeId} (hn : n ∈ w.queue) :
    n < capacity :=
  h.capacity ▸ BitSet.contains_lt ((h.pending n).mpr hn)

/-- A node is added exactly if the worklist has a place for it and it does not wait. -/
theorem Valid.enqueue_eq_true_iff (h : Valid capacity w) (n : NodeId) :
    (w.enqueue n).2 = true ↔ n < capacity ∧ w.isPending n = false := by
  have hgrows := queue_adds w (.enqueue n)
  obtain ⟨hvalid, hmem⟩ := h.enqueue n
  rw [← Bool.not_eq_true, h.isPending_iff]
  cases hadded : (w.enqueue n).2 with
  | true =>
    -- the node stands at the end of a queue without duplicates
    have hqueue : (w.enqueue n).1.queue = w.queue ++ [n] := by
      simpa [adds, takes, Worklist.call, hadded] using hgrows.symm
    have hnodup := hvalid.nodup
    rw [hqueue] at hnodup
    have hnot : n ∉ w.queue := fun hn =>
      List.disjoint_of_nodup_append hnodup hn (List.mem_singleton.mpr rfl)
    have hlt := hvalid.lt_capacity (n := n) (by simp [hqueue])
    exact ⟨fun _ => ⟨hlt, hnot⟩, fun _ => rfl⟩
  | false =>
    have hqueue : (w.enqueue n).1.queue = w.queue := by
      simpa [adds, takes, Worklist.call, hadded] using hgrows.symm
    constructor
    · intro h
      cases h
    · rintro ⟨hlt, hnot⟩
      exact absurd (hqueue ▸ (hmem n).mpr (.inr ⟨rfl, hlt⟩)) hnot

/-! ### All calls -/

/-- What waited and what calls add is what they take and what waits then, in this order. -/
theorem queue_added (w : Worklist) (calls : List Call) :
    w.queue ++ added w calls = taken w calls ++ (w.runCalls calls).queue := by
  induction calls generalizing w with
  | nil => exact List.append_nil _
  | cons c calls ih =>
    calc w.queue ++ ((w.adds c).toList ++ added (w.call c) calls)
      _ = (w.takes c).toList ++ ((w.call c).queue ++ added (w.call c) calls) := by
        rw [← List.append_assoc, queue_adds, List.append_assoc]
      _ = (w.takes c).toList ++ (taken (w.call c) calls ++ ((w.call c).runCalls calls).queue) := by
        rw [ih]
      _ = taken w (c :: calls) ++ (w.runCalls (c :: calls)).queue :=
        (List.append_assoc ..).symm

theorem enqueued_runCalls (w : Worklist) (calls : List Call) :
    (w.runCalls calls).stats.enqueued = w.stats.enqueued + (added w calls).length := by
  induction calls generalizing w with
  | nil => rfl
  | cons c calls ih =>
    have hrest : (w.runCalls (c :: calls)).stats.enqueued =
        (w.call c).stats.enqueued + (added (w.call c) calls).length := ih (w.call c)
    rw [hrest, enqueued_call, Nat.add_assoc, ← List.length_append]
    rfl

theorem Valid.runCalls (h : Valid capacity w) (calls : List Call) :
    Valid capacity (w.runCalls calls) := by
  induction calls generalizing w with
  | nil => exact h
  | cons c calls ih => exact ih (h.call c)

/-- What waits is taken by calls, or waits after them. -/
theorem taken_or_waits (calls : List Call) {n : NodeId} (hn : n ∈ w.queue) :
    n ∈ taken w calls ∨ n ∈ (w.runCalls calls).queue := by
  have hmem := List.mem_append_left (added w calls) hn
  rw [queue_added] at hmem
  exact List.mem_append.mp hmem

/-- What the calls made on a new worklist say about it. -/
structure Accounted (capacity : Nat) (calls : List Call) (w : Worklist) : Prop where
  nodup : w.queue.Nodup
  lt_capacity : ∀ n ∈ w.queue, n < capacity
  isPending_iff : ∀ n, w.isPending n = true ↔ n ∈ w.queue
  enqueue_iff : ∀ n, (w.enqueue n).2 = true ↔ n < capacity ∧ w.isPending n = false
  enqueued : w.stats.enqueued = (taken (empty capacity) calls).length + w.length
  inOrder : added (empty capacity) calls = taken (empty capacity) calls ++ w.queue

theorem accounted (capacity : Nat) (calls : List Call) :
    Accounted capacity calls ((empty capacity).runCalls calls) := by
  have hvalid : Valid capacity ((empty capacity).runCalls calls) :=
    (Valid.empty capacity).runCalls _
  have horder : added (empty capacity) calls =
      taken (empty capacity) calls ++ ((empty capacity).runCalls calls).queue :=
    queue_added (empty capacity) calls
  refine
    { nodup := hvalid.nodup
      lt_capacity := fun n hn => hvalid.lt_capacity hn
      isPending_iff := hvalid.isPending_iff
      enqueue_iff := hvalid.enqueue_eq_true_iff
      enqueued := ?_
      inOrder := horder }
  have henqueued := enqueued_runCalls (empty capacity) calls
  rw [horder, List.length_append] at henqueued
  exact henqueued.trans (Nat.zero_add _)

/-! ### Counters that calls leave alone -/

/-- The worklist with the counters of a run set. -/
def counting (w : Worklist) (seeded visits : Nat) : Worklist :=
  { w with stats := { w.stats with seeded, visits } }

theorem Valid.counting (h : Valid capacity w) (seeded visits : Nat) :
    Valid capacity (w.counting seeded visits) :=
  ⟨h.nodup, h.pending, h.capacity⟩

theorem enqueue_counting (w : Worklist) (seeded visits : Nat) (n : NodeId) :
    ((w.counting seeded visits).enqueue n).1 = (w.enqueue n).1.counting seeded visits := by
  unfold Worklist.enqueue counting
  dsimp only
  split <;> rfl

theorem pop_counting (w : Worklist) (seeded visits : Nat) :
    (w.counting seeded visits).pop = w.pop.map fun r => (r.1, r.2.counting seeded visits) := by
  unfold Worklist.pop counting
  dsimp only
  split <;> rfl

theorem call_counting (w : Worklist) (seeded visits : Nat) (c : Call) :
    (w.counting seeded visits).call c = (w.call c).counting seeded visits := by
  cases c with
  | enqueue n => exact enqueue_counting w seeded visits n
  | pop =>
    rw [call, call, pop_counting]
    cases w.pop <;> rfl

theorem takes_counting (w : Worklist) (seeded visits : Nat) (c : Call) :
    (w.counting seeded visits).takes c = w.takes c := by
  cases c with
  | enqueue n => rfl
  | pop =>
    rw [takes, takes, pop_counting, Option.map_map]
    rfl

theorem runCalls_counting (w : Worklist) (seeded visits : Nat) (calls : List Call) :
    (w.counting seeded visits).runCalls calls = (w.runCalls calls).counting seeded visits := by
  induction calls generalizing w with
  | nil => rfl
  | cons c calls ih =>
    have hone : (w.counting seeded visits).runCalls (c :: calls) =
        ((w.counting seeded visits).call c).runCalls calls := rfl
    rw [hone, call_counting, ih]
    rfl

theorem taken_counting (w : Worklist) (seeded visits : Nat) (calls : List Call) :
    taken (w.counting seeded visits) calls = taken w calls := by
  induction calls generalizing w with
  | nil => rfl
  | cons c calls ih =>
    have hone : taken (w.counting seeded visits) (c :: calls) =
        ((w.counting seeded visits).takes c).toList ++
          taken ((w.counting seeded visits).call c) calls := rfl
    rw [hone, takes_counting, call_counting, ih]
    rfl

theorem runCalls_enqueue (w : Worklist) (ns : List NodeId) :
    w.runCalls (ns.map .enqueue) = w.enqueueAll ns := List.foldl_map

theorem taken_enqueue (w : Worklist) (ns : List NodeId) : taken w (ns.map .enqueue) = [] := by
  induction ns generalizing w with
  | nil => rfl
  | cons n ns ih => exact ih (w.enqueue n).1

/-- Calls that leave what queueing nodes would have left took nothing. -/
theorem taken_eq_nil {calls : List Call} {ns : List NodeId}
    (h : w.runCalls calls = w.enqueueAll ns) : taken w calls = [] := by
  rw [← runCalls_enqueue] at h
  have hcalls := congrArg List.length (queue_added w calls)
  have hns := congrArg List.length (queue_added w (ns.map .enqueue))
  -- As many nodes were added either way, or the counter would tell.
  have henqueued := enqueued_runCalls w calls
  rw [h, enqueued_runCalls] at henqueued
  rw [taken_enqueue, ← h] at hns
  simp only [List.length_append, List.length_nil] at hcalls hns
  exact List.length_eq_zero_iff.mp (by omega)

end Worklist

namespace Handlers

open Worklist

variable {σ : Type} {h : Handlers σ} {g : Graph} {walk : Walk} {s t : σ} {stats : Stats}

/-! ### What a run does to its worklist -/

/-- What visits do to the worklist they do by calls. -/
def UsesCalls (h : Handlers σ) : Prop :=
  ∀ s n w t v, h.visit s n w = .ok (t, v) → ∃ made, w.runCalls made = v

/-- Visits queue nodes and do nothing else to the worklist. -/
def OnlyQueues (h : Handlers σ) : Prop :=
  ∀ s n w t v, h.visit s n w = .ok (t, v) → ∃ ns, w.enqueueAll ns = v

theorem OnlyQueues.usesCalls (hq : h.OnlyQueues) : h.UsesCalls := by
  intro s n w t v hvisit
  obtain ⟨ns, hns⟩ := hq s n w t v hvisit
  exact ⟨ns.map .enqueue, (runCalls_enqueue w ns).trans hns⟩

theorem onlyQueues_queueing (init : σ → NodeId → Except Error σ)
    (visit : σ → NodeId → Except Error (σ × List NodeId)) : (queueing init visit).OnlyQueues := by
  intro s n w t v hvisit
  obtain ⟨out, -, hout⟩ := queueing_visit.mp hvisit
  exact ⟨out, hout⟩

/-- A visit: the node, the worklist that was handed over, and the calls the visit made on it. -/
structure Visit where
  node : NodeId
  handed : Worklist
  made : List Call

namespace Visit

/-- The node is taken, then its visit makes calls. -/
def calls (v : Visit) : List Call := .pop :: v.made

/-- The nodes that the visit itself takes off the worklist. They are not visited for it. -/
def removed (v : Visit) : List NodeId := taken v.handed v.made

/-- The nodes that a visit takes off the worklist, the one it is made at first. -/
def took (v : Visit) : List NodeId := v.node :: v.removed

/-- The worklist that the visit hands back. -/
def left (v : Visit) : Worklist := v.handed.runCalls v.made

end Visit

/-- The calls of a run that seeds `order` and makes the visits of `log`. -/
def calls (order : List NodeId) (log : List Visit) : List Call :=
  order.map .enqueue ++ log.flatMap Visit.calls

/-- The visits of `log` lead from one state to another. -/
inductive Visits (h : Handlers σ) : σ × Worklist → List Visit → σ × Worklist → Prop
  | nil (a : σ × Worklist) : Visits h a [] a
  | cons {s t : σ} {w w' : Worklist} {n : NodeId} {made : List Call} {log : List Visit}
      {b : σ × Worklist} (hpop : w.pop = some (n, w'))
      (hvisit : h.visit s n w'.countVisit = .ok (t, w'.countVisit.runCalls made))
      (hrest : Visits h (t, w'.countVisit.runCalls made) log b) :
      Visits h (s, w) (⟨n, w'.countVisit, made⟩ :: log) b

/-- The run ends: nodes are seeded, the visits of `log` succeed, and then nothing waits. -/
def Completes (h : Handlers σ) (g : Graph) (walk : Walk) (s : σ) (log : List Visit) (t : σ)
    (stats : Stats) : Prop :=
  walk.dangling = [] ∧ ∃ a w, h.seed g.size walk.order s = .ok a ∧ h.Visits a log (t, w) ∧
    w.queue = [] ∧ w.stats = stats

theorem Visits.append {a b c : σ × Worklist} {log log' : List Visit} (hab : h.Visits a log b)
    (hbc : h.Visits b log' c) : h.Visits a (log ++ log') c := by
  induction hab with
  | nil a => exact hbc
  | cons hpop hvisit _ ih => exact .cons hpop hvisit (ih hbc)

/-- The states around one of the visits. -/
theorem Visits.split {a b : σ × Worklist} {before after : List Visit} {v : Visit}
    (hlog : h.Visits a (before ++ v :: after) b) :
    ∃ s t w w', h.Visits a before (s, w) ∧ w.pop = some (v.node, w') ∧ v.handed = w'.countVisit ∧
      h.visit s v.node v.handed = .ok (t, v.left) ∧ h.Visits (t, v.left) after b := by
  induction before generalizing a with
  | nil =>
    cases hlog with
    | cons hpop hvisit hrest => exact ⟨_, _, _, _, .nil _, hpop, rfl, hvisit, hrest⟩
  | cons u before ih =>
    cases hlog with
    | cons hpop hvisit hrest =>
      obtain ⟨s, t, w, w', hbefore, hfound⟩ := ih hrest
      exact ⟨s, t, w, w', .cons hpop hvisit hbefore, hfound⟩

/-- The visits of an analysis that only queues take no node. -/
theorem OnlyQueues.removed_eq_nil (hq : h.OnlyQueues) {a b : σ × Worklist} {log : List Visit}
    (hlog : h.Visits a log b) {v : Visit} (hv : v ∈ log) : v.removed = [] := by
  obtain ⟨before, after, rfl⟩ := List.append_of_mem hv
  obtain ⟨s, t, -, -, -, -, -, hvisit, -⟩ := hlog.split
  obtain ⟨ns, hns⟩ := hq _ _ _ _ _ hvisit
  exact taken_eq_nil hns.symm

/-- Visits are calls, and take the nodes they are made at and those their own calls take. -/
theorem Visits.worklist_eq {a b : σ × Worklist} {log : List Visit} (hlog : h.Visits a log b)
    {w : Worklist} {seeded visits : Nat} (hw : a.2 = w.counting seeded visits) :
    b.2 = (w.runCalls (log.flatMap Visit.calls)).counting seeded (visits + log.length) ∧
      taken w (log.flatMap Visit.calls) = log.flatMap Visit.took := by
  induction hlog generalizing w visits with
  | nil a => exact ⟨hw, rfl⟩
  | @cons s t v v' n made log b hpop _ _ ih =>
    subst hw
    rw [pop_counting] at hpop
    obtain ⟨⟨m, w'⟩, hw', heq⟩ := Option.map_eq_some_iff.mp hpop
    cases heq
    obtain ⟨hcall, htakes⟩ := call_pop hw'
    have hhanded : (w'.counting seeded visits).countVisit = w'.counting seeded (visits + 1) := rfl
    rw [hhanded] at ih ⊢
    obtain ⟨hend, htaken⟩ := ih (runCalls_counting w' seeded (visits + 1) made)
    have hturn : w.runCalls (.pop :: made) = w'.runCalls made := by
      rw [← hcall]
      rfl
    have htook : taken w (.pop :: made) = m :: taken w' made := by
      have hone : taken w (.pop :: made) =
          (w.takes .pop).toList ++ taken (w.call .pop) made := rfl
      rw [hone, htakes, hcall]
      rfl
    rw [List.flatMap_cons, List.flatMap_cons, Visit.calls, runCalls_append, hturn,
      List.length_cons]
    refine ⟨?_, ?_⟩
    · rw [hend, Nat.add_right_comm, Nat.add_assoc]
    · rw [taken, moved_append, hturn]
      refine congrArg₂ _ (htook.trans ?_) htaken
      rw [Visit.took, Visit.removed, taken_counting]

/-- Before the first visit the nodes of the walk were queued. -/
theorem worklist_of_seed {capacity : Nat} {order : List NodeId} {a : σ × Worklist}
    (hseed : h.seed capacity order s = .ok a) :
    a.2 = ((empty capacity).runCalls (order.map .enqueue)).counting order.length 0 := by
  obtain ⟨⟨u, w⟩, hfold, hseed⟩ := bind_eq_ok.mp hseed
  cases hseed
  have hw : w = (empty capacity).enqueueAll order := foldlM_eq_ok
    (I := fun done p => p.2 = (empty capacity).enqueueAll done) hfold rfl
    fun done n rest p q _ hp hturn => by
      obtain ⟨t, _, hturn⟩ := bind_eq_ok.mp hturn
      cases hturn
      rw [enqueueAll, List.foldl_append]
      exact congrArg (fun w => (w.enqueue n).1) hp
  have hvisits : w.stats.visits = 0 := by
    rw [hw, visits_enqueueAll]
    rfl
  rw [runCalls_enqueue, ← hw, counting, ← hvisits]

/-- All that waits when the nodes are seeded or after a visit is due to the calls made before. -/
theorem Visits.history {capacity : Nat} {order : List NodeId} {a b : σ × Worklist}
    {log : List Visit} (hseed : h.seed capacity order s = .ok a) (hlog : h.Visits a log b) :
    b.2 = ((empty capacity).runCalls (calls order log)).counting order.length log.length ∧
      taken (empty capacity) (calls order log) = log.flatMap Visit.took := by
  obtain ⟨hend, htaken⟩ := hlog.worklist_eq (worklist_of_seed hseed)
  rw [calls, runCalls_append, taken, moved_append]
  refine ⟨Nat.zero_add log.length ▸ hend, ?_⟩
  exact (congrArg₂ _ (taken_enqueue (empty capacity) order) htaken).trans (List.nil_append _)

/-- Each visit is handed what the calls before it have made of a new worklist. -/
theorem Visits.handed_eq {capacity : Nat} {order : List NodeId} {a b : σ × Worklist}
    {before after : List Visit} {v : Visit} (hseed : h.seed capacity order s = .ok a)
    (hlog : h.Visits a (before ++ v :: after) b) :
    v.handed = ((empty capacity).runCalls (calls order before ++ [.pop])).counting
      order.length (before.length + 1) := by
  obtain ⟨u, t, w, w', hbefore, hpop, hhanded, -⟩ := hlog.split
  have hw : w = _ := (hbefore.history hseed).1
  subst hw
  rw [pop_counting] at hpop
  obtain ⟨r, hrest, heq⟩ := Option.map_eq_some_iff.mp hpop
  obtain ⟨-, rfl⟩ := Prod.mk.inj heq
  rw [hhanded, runCalls_append]
  exact congrArg (fun w => w.counting order.length (before.length + 1)) (call_pop hrest).1.symm

/-- What waits is taken before nothing waits. -/
theorem Visits.mem_took {a b : σ × Worklist} {log : List Visit} (hlog : h.Visits a log b)
    (hdone : b.2.queue = []) {n : NodeId} (hn : n ∈ a.2.queue) : n ∈ log.flatMap Visit.took := by
  have hself : a.2 = a.2.counting a.2.stats.seeded a.2.stats.visits := rfl
  obtain ⟨hend, htaken⟩ := hlog.worklist_eq hself
  rw [← htaken]
  refine (taken_or_waits _ hn).resolve_right fun hwaits => ?_
  rw [hend] at hdone
  exact List.not_mem_nil (hdone ▸ hwaits)

/-! ### Runs that end -/

theorem Visits.iterate_eq (p : Progress h) {a b : σ × Worklist} {log : List Visit}
    (hlog : h.Visits a log b) :
    iterate h.step (rank p) (step_down p) a = iterate h.step (rank p) (step_down p) b := by
  induction hlog with
  | nil => rfl
  | cons hpop hvisit _ ih =>
    refine (iterate_of_inl ?_).trans ih
    simp [step, hpop, hvisit]

theorem Completes.run_eq_ok {log : List Visit} (hrun : h.Completes g walk s log t stats)
    (p : Progress h) : run p g walk s = .ok (t, stats) := by
  obtain ⟨hdangling, a, w, hseed, hlog, hqueue, hstats⟩ := hrun
  have hstop : h.step (t, w) = .inr (.ok (t, stats)) := by
    simp [step, Worklist.pop, hqueue, hstats]
  rw [run, hdangling]
  exact bind_eq_ok.mpr ⟨a, hseed, (hlog.iterate_eq p).trans (iterate_of_inr hstop)⟩

/-- For an analysis known to end, the visits that complete it are those of its run. -/
theorem run_eq_ok_iff (hcalls : h.UsesCalls) (p : Progress h) :
    run p g walk s = .ok (t, stats) ↔ ∃ log, h.Completes g walk s log t stats := by
  constructor
  · intro hrun
    obtain ⟨hdangling, w, hqueue, hstats, a, log, hseed, hlog⟩ := run_eq_ok_stats
      (I := fun u w => ∃ a log, h.seed g.size walk.order s = .ok a ∧ h.Visits a log (u, w)) hrun
      (fun u w hseed => ⟨(u, w), [], hseed, .nil _⟩)
      (fun u w n w' u' v hlog hpop hvisit => by
        obtain ⟨a, log, hseed, hlog⟩ := hlog
        obtain ⟨made, rfl⟩ := hcalls _ _ _ _ _ hvisit
        exact ⟨a, _, hseed, hlog.append (.cons hpop hvisit (.nil _))⟩)
    exact ⟨log, hdangling, a, w, hseed, hlog, hqueue, hstats⟩
  · rintro ⟨log, hrun⟩
    exact hrun.run_eq_ok p

/-- What a run that ends has done for the nodes queued during it: each was taken later, to be
visited or by a visit. -/
structure Served (capacity : Nat) (order : List NodeId) (log : List Visit) (stats : Stats) :
    Prop where
  visits : stats.visits = log.length
  enqueued : stats.enqueued = stats.visits + (log.flatMap Visit.removed).length
  /-- Nodes are taken in the order of the successful calls to queue them, once for each. -/
  inOrder : log.flatMap Visit.took = added (empty capacity) (calls order log)
  /-- Each visit is handed what the calls before it have made of a new worklist. -/
  handed : ∀ before v after, log = before ++ v :: after →
    v.handed = ((empty capacity).runCalls (calls order before ++ [.pop])).counting
      order.length (before.length + 1)
  /-- Seeded nodes are taken. -/
  seeds : ∀ n ∈ order, n < capacity → n ∈ log.flatMap Visit.took
  /-- Nodes that a visit queues are taken by its later calls or after it. -/
  queued : ∀ before v after, log = before ++ v :: after → ∀ made n rest,
    v.made = made ++ .enqueue n :: rest → n < capacity →
      n ∈ taken (v.handed.runCalls (made ++ [.enqueue n])) rest ∨ n ∈ after.flatMap Visit.took

/-- What a run that ends has done for the nodes queued during it when only the engine takes
nodes. -/
structure AllVisited (capacity : Nat) (order : List NodeId) (log : List Visit) (stats : Stats) :
    Prop where
  enqueued : stats.enqueued = stats.visits
  /-- Visits follow the order of the successful calls to queue a node, one for each. -/
  inOrder : log.map Visit.node = added (empty capacity) (calls order log)
  /-- Seeded nodes are visited. -/
  seeds : ∀ n ∈ order, n < capacity → n ∈ log.map Visit.node
  /-- Nodes that a visit queues are visited after it. -/
  queued : ∀ before v after, log = before ++ v :: after → ∀ n, .enqueue n ∈ v.made →
    n < capacity → n ∈ after.map Visit.node

theorem length_flatMap_took (log : List Visit) :
    (log.flatMap Visit.took).length = log.length + (log.flatMap Visit.removed).length := by
  induction log with
  | nil => rfl
  | cons v log ih =>
    simp only [List.flatMap_cons, List.length_append, List.length_cons, Visit.took, ih]
    omega

theorem flatMap_took {log : List Visit} (hnone : ∀ v ∈ log, v.removed = []) :
    log.flatMap Visit.took = log.map Visit.node := by
  induction log with
  | nil => rfl
  | cons v log ih =>
    rw [List.flatMap_cons, Visit.took, hnone v List.mem_cons_self,
      ih fun u hu => hnone u (List.mem_cons_of_mem v hu)]
    rfl

theorem Completes.served {log : List Visit} (hrun : h.Completes g walk s log t stats) :
    Served g.size walk.order log stats := by
  obtain ⟨-, a, w, hseed, hlog, hqueue, rfl⟩ := hrun
  obtain ⟨hend, htaken⟩ := hlog.history hseed
  have hw : w = ((empty g.size).runCalls (calls walk.order log)).counting walk.order.length
      log.length := hend
  have hdone : ((empty g.size).runCalls (calls walk.order log)).queue = [] :=
    (congrArg Worklist.queue hw).symm.trans hqueue
  have haccounted := accounted g.size (calls walk.order log)
  have horder : log.flatMap Visit.took = added (empty g.size) (calls walk.order log) := by
    rw [haccounted.inOrder, hdone, List.append_nil, htaken]
  have hvisits : w.stats.visits = log.length := congrArg (·.stats.visits) hw
  have henqueued : w.stats.enqueued = (log.flatMap Visit.took).length := by
    have hsame := congrArg (·.stats.enqueued) hw
    refine hsame.trans (haccounted.enqueued.trans ?_)
    rw [htaken, Worklist.length, hdone]
    rfl
  refine
    { visits := hvisits
      enqueued := by rw [henqueued, length_flatMap_took, hvisits]
      inOrder := horder
      handed := fun before v after hsplit => (hsplit ▸ hlog).handed_eq hseed
      seeds := fun n hn hlt => ?_
      queued := fun before v after hsplit made n rest hmade hlt => ?_ }
  · refine hlog.mem_took hqueue ?_
    rw [worklist_of_seed hseed, runCalls_enqueue]
    exact (((Valid.empty g.size).enqueueAll walk.order).2 n).mpr (.inr ⟨hn, hlt⟩)
  · subst hsplit
    obtain ⟨-, u, -, -, -, -, -, -, hafter⟩ := hlog.split
    have hvalid : Valid g.size v.handed := by
      rw [hlog.handed_eq hseed]
      exact ((Valid.empty g.size).runCalls _).counting _ _
    -- The node waits once it is queued, so the rest of the visit takes it or leaves it.
    have hwaits : n ∈ (v.handed.runCalls (made ++ [.enqueue n])).queue := by
      rw [runCalls_append]
      exact (((hvalid.runCalls made).enqueue n).2 n).mpr (.inr ⟨rfl, hlt⟩)
    have hleft : v.left = (v.handed.runCalls (made ++ [.enqueue n])).runCalls rest := by
      rw [← runCalls_append, Visit.left, hmade, List.append_assoc]
      rfl
    exact (taken_or_waits rest hwaits).imp_right fun hn => hafter.mem_took hqueue (hleft ▸ hn)

/-- When no visit takes a node, what was queued was visited. -/
theorem Served.allVisited {capacity : Nat} {order : List NodeId} {log : List Visit}
    (hserved : Served capacity order log stats) (hnone : ∀ v ∈ log, v.removed = []) :
    AllVisited capacity order log stats where
  enqueued := by
    rw [hserved.enqueued, List.flatMap_eq_nil_iff.mpr hnone]
    rfl
  inOrder := flatMap_took hnone ▸ hserved.inOrder
  seeds := flatMap_took hnone ▸ hserved.seeds
  queued before v after hsplit n hn hlt := by
    obtain ⟨made, rest, hmade⟩ := List.append_of_mem hn
    subst hsplit
    rw [← flatMap_took fun u hu => hnone u (by simp [hu])]
    refine (hserved.queued before v after rfl made n rest hmade hlt).resolve_left fun hmem => ?_
    have hv : taken v.handed (made ++ [.enqueue n] ++ rest) = [] := by
      rw [List.append_assoc]
      exact hmade ▸ hnone v (by simp)
    rw [taken, moved_append] at hv
    have hrest : taken (v.handed.runCalls (made ++ [.enqueue n])) rest = [] :=
      (List.append_eq_nil_iff.mp hv).2
    rw [hrest] at hmem
    cases hmem

end Handlers

/-- After any calls on a new worklist, nothing waits twice or beyond the capacity, the set says what
waits, a node is added exactly if there is a place for it and it does not wait, and the nodes added
are those taken, in the same order, followed by those that wait. So every analysis that ends, and
whose visits use the worklist through such calls, has taken nodes in the order in which they were
queued, once for each time, and whatever was queued at the start or by a visit was taken after that,
by the engine or by a visit. Where no visit takes a node, as when visits only queue, all of them
were visited. -/
theorem Worklist.no_work_lost :
    (∀ capacity calls, Accounted capacity calls ((empty capacity).runCalls calls)) ∧
      ∀ {σ : Type} (h : Handlers σ), h.UsesCalls →
        ∀ (g : Graph) (walk : Walk) (s t : σ) (stats : Stats),
          (∀ p : h.Progress, Handlers.run p g walk s = .ok (t, stats) ↔
            ∃ log, h.Completes g walk s log t stats) ∧
          ∀ log, h.Completes g walk s log t stats →
            Handlers.Served g.size walk.order log stats ∧
            (h.OnlyQueues → ∀ v ∈ log, v.removed = []) ∧
            ((∀ v ∈ log, v.removed = []) →
              Handlers.AllVisited g.size walk.order log stats) := by
  refine ⟨accounted, fun h hcalls g walk s t stats => ⟨fun p => ?_, fun log hrun => ?_⟩⟩
  · exact Handlers.run_eq_ok_iff hcalls p
  · refine ⟨hrun.served, fun hq v hv => ?_, hrun.served.allVisited⟩
    obtain ⟨-, a, w, -, hlog, -⟩ := hrun
    exact hq.removed_eq_nil hlog hv

/-- A phi among its own operands. -/
def selfUser : List Edit :=
  [.addNode .phi (.int .i32) (some Anchor.endBlock) [],
    .addOperand 5 5,
    .addOperand Anchor.stop 5]

/-- The first visit of the phi queues itself and a node that waits; only itself is added. -/
theorem Worklist.no_work_lost_selfUser :
    ∃ g walk log t stats, selfUser.foldlM Graph.apply (.new "f" 0) = .ok g ∧
      Walk.run g = .ok walk ∧
      ((Ripple.handlers g).Completes g walk (Ripple.start g) log t stats ∧
        Handlers.AllVisited g.size walk.order log stats) ∧
      log.map (fun v => (v.node, v.made)) =
        [(1, []), (5, [.enqueue 5, .enqueue 3]), (3, []), (0, []), (2, []), (4, []), (5, [])] ∧
      stats.enqueued = 7 := by
  have hqueues (g : Graph) : (Ripple.handlers g).OnlyQueues := Handlers.onlyQueues_queueing _ _
  have hvisited {g walk log t stats}
      (hrun : (Ripple.handlers g).Completes g walk (Ripple.start g) log t stats) :
      (Ripple.handlers g).Completes g walk (Ripple.start g) log t stats ∧
        Handlers.AllVisited g.size walk.order log stats := by
    obtain ⟨-, hnone, hall⟩ :=
      (no_work_lost.2 _ (hqueues g).usesCalls g walk _ t stats).2 log hrun
    exact ⟨hrun, hall (hnone (hqueues g))⟩
  -- seven visits, each evaluated
  exact ⟨_, _, _, _, _, rfl, rfl,
    hvisited ⟨rfl, _, _, rfl,
      .cons rfl rfl <| .cons rfl rfl <| .cons rfl rfl <| .cons rfl rfl <| .cons rfl rfl <|
        .cons rfl rfl <| .cons rfl rfl <| .nil _,
      rfl, rfl⟩,
    rfl, rfl⟩

/-- An analysis that lists its visits, each of which takes the next node off the worklist. -/
def Handlers.skipping : Handlers (List NodeId) where
  init visited _ := .ok visited
  visit visited n w := .ok (visited ++ [n], w.call .pop)

def Handlers.skippingProgress : skipping.Progress where
  height _ := 0
  weight _ := 1
  down visited n w t v hvisit := by
    cases hvisit
    refine .inr ⟨rfl, ?_⟩
    cases hpop : w.pop with
    | none => simp [Worklist.call, hpop]
    | some r =>
      simp only [(Worklist.call_pop hpop).1, load, (Worklist.stats_pop hpop).2, List.map_cons,
        List.sum_cons]
      omega

/-- An analysis that lists its visits, each of which puts a new worklist in the place of the one it
is handed. -/
def Handlers.resetting : Handlers (List NodeId) where
  init visited _ := .ok visited
  visit visited n _ := .ok (visited ++ [n], .empty 0)

def Handlers.resettingProgress : resetting.Progress where
  height _ := 0
  weight _ := 1
  down visited n w t v hvisit := by
    cases hvisit
    exact .inr ⟨rfl, Nat.succ_pos _⟩

/-- What a visit takes itself is not visited, seeded or not, and nothing is after a visit that does
not leave the worklist in its place. -/
theorem Worklist.work_lost :
    ∃ walk, Walk.run (.new "f" 0) = .ok walk ∧ walk.order = [1, 3, 0, 2, 4] ∧
      Handlers.run Handlers.skippingProgress (.new "f" 0) walk [] =
        .ok ([1, 0, 4], { seeded := 5, enqueued := 5, visits := 3 }) ∧
      Handlers.run Handlers.resettingProgress (.new "f" 0) walk [] =
        .ok ([1], { seeded := 0, enqueued := 0, visits := 0 }) := by
  obtain ⟨walk, log, hwalk, horder, hdangling, hrun, -⟩ : ∃ walk log,
      Walk.run (.new "f" 0) = .ok walk ∧ walk.order = [1, 3, 0, 2, 4] ∧ walk.dangling = [] ∧
      Handlers.skipping.Completes (.new "f" 0) walk [] log [1, 0, 4]
        { seeded := 5, enqueued := 5, visits := 3 } ∧
      log.map Handlers.Visit.made = [[.pop], [.pop], [.pop]] :=
    ⟨_, _, rfl, rfl, rfl,
      ⟨rfl, _, _, rfl, .cons rfl rfl <| .cons rfl rfl <| .cons rfl rfl <| .nil _, rfl, rfl⟩, rfl⟩
  refine ⟨walk, hwalk, horder, hrun.run_eq_ok _, ?_⟩
  obtain ⟨a, hseed, hstep⟩ : ∃ a,
      Handlers.resetting.seed (Graph.new "f" 0).size [1, 3, 0, 2, 4] [] = .ok a ∧
      Handlers.resetting.step a = .inl ([1], .empty 0) := ⟨_, rfl, rfl⟩
  have hstop : Handlers.resetting.step ([1], .empty 0) = .inr (.ok ([1], {})) := rfl
  rw [Handlers.run, hdangling, horder]
  exact bind_eq_ok.mpr ⟨a, hseed, (iterate_of_inl hstep).trans (iterate_of_inr hstop)⟩

end SeaOfNodes
