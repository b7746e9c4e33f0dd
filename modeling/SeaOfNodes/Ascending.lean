/-!
Lists kept in ascending order without repetition: finite sets whose order of listing does not
depend on how they were filled.
-/

namespace SeaOfNodes

variable {α : Type} [LT α] [DecidableLT α]

/-- Puts `a` in its place, unless it is there already. -/
def insertAscending (a : α) : List α → List α
  | [] => [a]
  | b :: l =>
    if a < b then a :: b :: l
    else if b < a then b :: insertAscending a l
    else b :: l

/-- The elements of a list, ascending and once each. -/
def ascending (l : List α) : List α := l.foldr insertAscending []

end SeaOfNodes
