import SeaOfNodes.BitSet
import SeaOfNodes.NodeId

/-!
Worklists: first in, first out, and no node twice.

The set `pending` says what is in the queue, so that asking to queue a node that waits already
does nothing. Ids at or beyond the capacity are ignored.
-/

namespace SeaOfNodes

namespace Worklist

/-- Counters of a run. -/
structure Stats where
  /-- Nodes queued before the first visit. -/
  seeded : Nat := 0
  /-- Nodes added to the queue, the seeded ones included. -/
  enqueued : Nat := 0
  visits : Nat := 0
deriving DecidableEq

end Worklist

structure Worklist where
  queue : List NodeId
  pending : BitSet
  stats : Worklist.Stats := {}

namespace Worklist

def empty (capacity : Nat) : Worklist := { queue := [], pending := BitSet.empty capacity }

/-- Adds a node unless it waits already, and tells whether it was added. -/
def enqueue (w : Worklist) (n : NodeId) : Worklist × Bool :=
  match w.pending.insert n with
  | .ok (pending, true) =>
    ({ queue := w.queue ++ [n], pending,
       stats := { w.stats with enqueued := w.stats.enqueued + 1 } }, true)
  | _ => (w, false)

/-- Takes the node that waited longest. -/
def pop (w : Worklist) : Option (NodeId × Worklist) :=
  match w.queue with
  | [] => none
  | n :: queue => some (n, { w with queue, pending := (w.pending.erase n).1 })

def enqueueAll (w : Worklist) (ns : List NodeId) : Worklist :=
  ns.foldl (fun w n => (w.enqueue n).1) w

/-- Notes that a node was visited. -/
def countVisit (w : Worklist) : Worklist :=
  { w with stats := { w.stats with visits := w.stats.visits + 1 } }

def isPending (w : Worklist) (n : NodeId) : Bool := w.pending.contains n

def length (w : Worklist) : Nat := w.queue.length

def isEmpty (w : Worklist) : Bool := w.queue.isEmpty

/-! ### The queue after each operation -/

/-- All that queueing a node can do. -/
theorem enqueue_cases (w : Worklist) (n : NodeId) :
    w.enqueue n = (w, false) ∨
      ∃ pending, w.enqueue n =
        ({ queue := w.queue ++ [n], pending,
           stats := { w.stats with enqueued := w.stats.enqueued + 1 } }, true) := by
  unfold enqueue
  split
  next pending _ => exact .inr ⟨pending, rfl⟩
  next => exact .inl rfl

theorem enqueue_queue (w : Worklist) (n : NodeId) :
    (w.enqueue n).1.queue = w.queue ∨ (w.enqueue n).1.queue = w.queue ++ [n] := by
  rcases w.enqueue_cases n with h | ⟨pending, h⟩
  · exact .inl (by rw [h])
  · exact .inr (by rw [h])

@[simp] theorem countVisit_queue (w : Worklist) : w.countVisit.queue = w.queue := rfl

end Worklist

end SeaOfNodes
