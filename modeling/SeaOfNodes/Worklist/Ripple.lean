import SeaOfNodes.Worklist.Engine

/-!
The smallest analysis: visiting a node for the first time queues its users.
-/

namespace SeaOfNodes

namespace Ripple

/-- What was seeded and visited, in order, and what was visited at all. -/
structure State where
  seeded : List NodeId
  visited : List NodeId
  seen : BitSet

def start (g : Graph) : State := { seeded := [], visited := [], seen := BitSet.empty g.size }

def init (s : State) (n : NodeId) : Except Error State := .ok { s with seeded := s.seeded ++ [n] }

def visit (g : Graph) (s : State) (n : NodeId) : Except Error (State × List NodeId) := do
  let visited := s.visited ++ [n]
  if s.seen.contains n then return ({ s with visited }, [])
  else
    match s.seen.insert n with
    | .error e => .error e
    | .ok (seen, _) => return ({ s with visited, seen }, (← g.node n).users)

def handlers (g : Graph) : Handlers State := .queueing init (visit g)

/-- The first visit takes a free place, any other queues nothing. -/
def progress (g : Graph) : (handlers g).Progress :=
  .queueing (fun s => s.seen.free) (fun _ => 1) <| by
    intro s n t out h
    unfold visit at h
    split at h
    next =>
      cases h
      exact .inr ⟨rfl, by simp⟩
    next hnew =>
      split at h
      next => cases h
      next seen fresh hins =>
        cases hnode : g.node n with
        | error e => simp [hnode, bind, Except.bind] at h
        | ok x =>
          simp only [hnode, bind, Except.bind, pure, Except.pure] at h
          cases h
          exact .inl (BitSet.free_lt_of_insert hins (by simpa using hnew))

def run (g : Graph) : Except Error (State × Worklist.Stats) := do
  Handlers.run (progress g) g (← Walk.run g) (start g)

end Ripple

end SeaOfNodes
