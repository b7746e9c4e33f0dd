import SeaOfNodes.Graph.Basic

/-!
The listing of a graph: a heading, then one line for each node in use.
-/

namespace SeaOfNodes

namespace Graph

/-- One line of the listing: `  n7: Add I32 [n0] (n5, n6)`. -/
def nodeLine (n : NodeId) (x : Node) : String :=
  let place := match x.block with
    | none => ""
    | some b => " [" ++ NodeId.text b ++ "]"
  let operands := if x.operands.isEmpty then ""
    else " (" ++ ", ".intercalate (x.operands.map NodeId.text) ++ ")"
  "  " ++ NodeId.text n ++ ": " ++ x.op.text ++ " " ++ x.mode.name ++ place ++ operands ++ "\n"

def text (g : Graph) : String :=
  let heading := "function " ++ g.name ++ " (" ++ toString g.params ++ " params)\n"
  let lines := g.nodes.toList.zipIdx.map fun (x, n) => if x.isRetired then "" else nodeLine n x
  heading ++ String.join lines

end Graph

end SeaOfNodes
