import SeaOfNodes.NodeId

/-!
Finite maps from node ids, as lists of entries in ascending order of the ids.
-/

namespace SeaOfNodes

/-- Entries in ascending order of their ids, one for each id. -/
abbrev IdMap (α : Type) := List (NodeId × α)

namespace IdMap

variable {α : Type}

/-- The entry of `n`. -/
def find? (n : NodeId) : IdMap α → Option α
  | [] => none
  | (k, a) :: m => if k = n then some a else find? n m

/-- Sets the entry of `n`. -/
def insert (n : NodeId) (a : α) : IdMap α → IdMap α
  | [] => [(n, a)]
  | (k, b) :: m =>
    if n < k then (n, a) :: (k, b) :: m
    else if n = k then (n, a) :: m
    else (k, b) :: insert n a m

/-- Adds `a` at the end of the list filed under `n`. -/
def file (n : NodeId) (a : α) (m : IdMap (List α)) : IdMap (List α) :=
  insert n ((find? n m).getD [] ++ [a]) m

/-- The list filed under `n`. -/
def filed (n : NodeId) (m : IdMap (List α)) : List α := (find? n m).getD []

@[simp] theorem find?_insert_self (n : NodeId) (a : α) (m : IdMap α) :
    find? n (insert n a m) = some a := by
  induction m with
  | nil => simp [insert, find?]
  | cons e m ih =>
    obtain ⟨k, b⟩ := e
    simp only [insert]
    split
    · simp [find?]
    · split
      · simp [find?]
      · next hk => simp [find?, Ne.symm hk, ih]

theorem find?_insert_ne {n k : NodeId} (h : k ≠ n) (a : α) (m : IdMap α) :
    find? k (insert n a m) = find? k m := by
  induction m with
  | nil => simp [insert, find?, Ne.symm h]
  | cons e m ih =>
    obtain ⟨j, b⟩ := e
    simp only [insert]
    split
    · simp [find?, Ne.symm h]
    · split
      · next hj => simp [find?, ← hj, Ne.symm h]
      · simp [find?, ih]

end IdMap

end SeaOfNodes
