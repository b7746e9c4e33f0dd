import SeaOfNodes.Graph.Walk
import SeaOfNodes.Worklist.Basic

/-!
Analyses driven by a worklist.

An analysis says how a node is seeded and how it is visited; a visit is handed the worklist and
hands it back with the new state. Live nodes are seeded in the order of the walk, then nodes are
taken off the worklist until none is left. Most visits only say what to queue
(`Handlers.queueing`).

The engine runs analyses that come with a `Progress`: a visit either brings the state closer to
its end, or leaves it as it is and makes less wait than its node was worth. Such runs end.
-/

namespace SeaOfNodes

/-- The two parts of an analysis with state `σ`. A visit may do with the worklist what it likes:
queue nodes, look at those that wait, and take some itself. -/
structure Handlers (σ : Type) where
  init : σ → NodeId → Except Error σ
  visit : σ → NodeId → Worklist → Except Error (σ × Worklist)

namespace Handlers

variable {σ : Type}

/-- The analysis whose visits say which nodes to queue. -/
def queueing (init : σ → NodeId → Except Error σ)
    (visit : σ → NodeId → Except Error (σ × List NodeId)) : Handlers σ where
  init := init
  visit s n w := do
    let (t, out) ← visit s n
    return (t, w.enqueueAll out)

theorem queueing_visit {init : σ → NodeId → Except Error σ}
    {visit : σ → NodeId → Except Error (σ × List NodeId)} {s t : σ} {n : NodeId}
    {w v : Worklist} :
    (queueing init visit).visit s n w = .ok (t, v) ↔
      ∃ out, visit s n = .ok (t, out) ∧ w.enqueueAll out = v := by
  cases hvisit : visit s n <;> simp [queueing, hvisit, bind, Except.bind, pure, Except.pure]
  grind

/-- Visits the node that waited longest; answers when none is left. -/
def step (h : Handlers σ) (s : σ × Worklist) : (σ × Worklist) ⊕ Except Error (σ × Worklist.Stats) :=
  match s.2.pop with
  | none => .inr (.ok (s.1, s.2.stats))
  | some (n, w) =>
    match h.visit s.1 n w.countVisit with
    | .error e => .inr (.error e)
    | .ok t => .inl t

/-- Seeds and queues the nodes of a walk. -/
def seed (h : Handlers σ) (capacity : Nat) (order : List NodeId) (s : σ) :
    Except Error (σ × Worklist) := do
  let (s, w) ← order.foldlM (fun (s, w) n => do
    return (← h.init s n, (w.enqueue n).1)) (s, Worklist.empty capacity)
  return (s, { w with stats := { w.stats with seeded := order.length } })

/-- The cost of what waits. -/
def load (weight : NodeId → Nat) (w : Worklist) : Nat := (w.queue.map weight).sum

/-- Why visits come to an end. -/
structure Progress (h : Handlers σ) where
  /-- How far a state is from its end. -/
  height : σ → Nat
  /-- What queueing a node costs. -/
  weight : NodeId → Nat
  down : ∀ s n w t v, h.visit s n w = .ok (t, v) →
    height t < height s ∨ height t = height s ∧ load weight v < load weight w + weight n

def rank {h : Handlers σ} (p : Progress h) (s : σ × Worklist) : Nat × Nat :=
  (p.height s.1, load p.weight s.2)

theorem load_enqueueAll_le (weight : NodeId → Nat) (w : Worklist) (out : List NodeId) :
    load weight (w.enqueueAll out) ≤ load weight w + (out.map weight).sum := by
  induction out generalizing w with
  | nil => simp [Worklist.enqueueAll]
  | cons n out ih =>
    have hstep : load weight (w.enqueue n).1 ≤ load weight w + weight n := by
      rcases w.enqueue_queue n with h | h <;> simp [load, h]
    have := ih (w.enqueue n).1
    simp only [Worklist.enqueueAll, List.foldl_cons] at this ⊢
    simp only [List.map_cons, List.sum_cons]
    omega

/-- Visits that only queue come to an end if each that leaves the state where it was queues less
than its node was worth. -/
def Progress.queueing {init : σ → NodeId → Except Error σ}
    {visit : σ → NodeId → Except Error (σ × List NodeId)} (height : σ → Nat)
    (weight : NodeId → Nat)
    (down : ∀ s n t out, visit s n = .ok (t, out) →
      height t < height s ∨ height t = height s ∧ (out.map weight).sum < weight n) :
    (queueing init visit).Progress where
  height := height
  weight := weight
  down s n w t v h := by
    obtain ⟨out, hvisit, rfl⟩ := queueing_visit.mp h
    have := load_enqueueAll_le weight w out
    exact (down s n t out hvisit).imp_right fun ⟨heq, hlt⟩ => ⟨heq, by omega⟩

theorem step_down {h : Handlers σ} (p : Progress h) (s t : σ × Worklist)
    (hst : h.step s = .inl t) : WellFoundedRelation.rel (rank p t) (rank p s) := by
  unfold step at hst
  split at hst
  next => cases hst
  next n w hpop =>
    have hload : load p.weight s.2 = p.weight n + load p.weight w := by
      unfold Worklist.pop at hpop
      split at hpop
      next => cases hpop
      next m queue hq =>
        cases hpop
        simp [load, hq]
    split at hst
    next => cases hst
    next hvisit =>
      cases hst
      rcases p.down _ _ _ _ _ hvisit with hlt | ⟨heq, hlt⟩
      · exact Prod.Lex.left _ _ hlt
      · unfold rank
        rw [heq]
        refine Prod.Lex.right _ ?_
        have hv : load p.weight w.countVisit = load p.weight w := rfl
        show load p.weight t.2 < load p.weight s.2
        omega

/-- Runs an analysis over the live nodes of `g`. A retired node that something depends on is an
error found before any node is seeded. -/
def run {h : Handlers σ} (p : Progress h) (g : Graph) (walk : Walk) (s : σ) :
    Except Error (σ × Worklist.Stats) :=
  match walk.dangling with
  | (_, target) :: _ => .error (.retiredNode target)
  | [] => do
    let start ← h.seed g.size walk.order s
    iterate h.step (rank p) (step_down p) start

end Handlers

end SeaOfNodes
