/-!
Node ids and the five nodes every function owns.
-/

namespace SeaOfNodes

/-- A node is named by its position in the arena of its graph. -/
abbrev NodeId := Nat

/-- The id as printed, `n7`. -/
def NodeId.text (n : NodeId) : String := s!"n{n}"

/-! ### Anchors

A graph is created with these nodes at fixed positions, and they keep them. -/

namespace Anchor

/-- The entry block. -/
abbrev startBlock : NodeId := 0
/-- The exit block, entered by the returns. -/
abbrev endBlock : NodeId := 1
/-- The node that provides the arguments and the first memory state. -/
abbrev start : NodeId := 2
/-- The node whose operands are kept alive. -/
abbrev stop : NodeId := 3
/-- The stand-in for every value and edge proven dead. -/
abbrev bad : NodeId := 4

def all : List NodeId := [startBlock, endBlock, start, stop, bad]

end Anchor

end SeaOfNodes
