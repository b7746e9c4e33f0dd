import SeaOfNodes.BitSet
import SeaOfNodes.Iterate

/-!
The least set that holds some roots and is closed under a successor function.
-/

namespace SeaOfNodes

namespace BitSet

/-- A search in progress: what was reached, and what is still to be looked at. -/
structure Search where
  reached : BitSet
  frontier : List Nat

/-- Takes one number off the list; if it is new, its successors go on the list. -/
def Search.step (next : Nat → List Nat) (s : Search) : Search ⊕ Except Error BitSet :=
  match s.frontier with
  | [] => .inr (.ok s.reached)
  | n :: rest =>
    if s.reached.contains n then .inl { s with frontier := rest }
    else
      match s.reached.insert n with
      | .error e => .inr (.error e)
      | .ok (reached, _) => .inl { reached, frontier := next n ++ rest }

/-- Free places first, then the length of the list. -/
def Search.rank (s : Search) : Nat × Nat := (s.reached.free, s.frontier.length)

theorem Search.step_down (next : Nat → List Nat) (s t : Search) (h : s.step next = .inl t) :
    WellFoundedRelation.rel t.rank s.rank := by
  unfold Search.step at h
  split at h
  next => cases h
  next n rest hfrontier =>
    split at h
    next =>
      cases h
      refine Prod.Lex.right _ ?_
      rw [hfrontier]
      exact Nat.lt_succ_self _
    next hnew =>
      split at h
      next => cases h
      next reached fresh hins =>
        cases h
        exact Prod.Lex.left _ _ (free_lt_of_insert hins (by simpa using hnew))

/-- The least set below `capacity` that holds `roots` and, with a number, its successors. -/
def closure (capacity : Nat) (next : Nat → List Nat) (roots : List Nat) : Except Error BitSet :=
  iterate (Search.step next) Search.rank (Search.step_down next)
    { reached := empty capacity, frontier := roots }

end BitSet

end SeaOfNodes
