import SeaOfNodes.Graph.Flow
import SeaOfNodes.Graph.Walk

/-!
Drawings of graphs in the DOT language.

Every live block is a cluster of its members. Edges run from operand to user: dashed into blocks,
dotted into the stop node, red for memory. Names go through `Dot.escape`, so no name can end the
quotes it stands in.
-/

namespace SeaOfNodes

namespace Dot

/-- What stands for one character inside quotes. Carriage returns are left out. -/
def escapeChar : Char → List Char
  | '\\' => ['\\', '\\']
  | '"' => ['\\', '"']
  | '\n' => ['\\', 'n']
  | '\r' => []
  | '<' => ['\\', '<']
  | '>' => ['\\', '>']
  | c => [c]

/-- A text as it stands inside quotes. -/
def escape (s : String) : String := String.ofList (s.toList.flatMap escapeChar)

/-- Attributes of a node's drawing beyond its label. -/
def nodeStyle (x : Node) : String :=
  match x.op with
  | .const _ => ", shape=ellipse, style=filled, fillcolor=lightyellow"
  | .phi => ", shape=diamond"
  | .bad => ", style=filled, fillcolor=lightcoral"
  | .start | .stop => ", style=filled, fillcolor=lightgrey"
  | _ => if x.mode = .control then ", style=rounded" else ""

def member (n : NodeId) (x : Node) : String :=
  let label := NodeId.text n ++ ": " ++ x.op.text ++ " " ++ x.mode.name
  "        " ++ NodeId.text n ++ " [label=\"" ++ escape label ++ "\"" ++ nodeStyle x ++ "];\n"

def title (block : NodeId) : String :=
  if block = Anchor.startBlock then NodeId.text block ++ " (entry)"
  else if block = Anchor.endBlock then NodeId.text block ++ " (exit)"
  else NodeId.text block

/-- A block with the lines of its members. -/
def cluster (block : NodeId) (members : List String) : String :=
  "    subgraph cluster_" ++ toString block ++ " \x7b\n" ++
    "        label=\"" ++ escape (title block) ++ "\";\n" ++
    "        " ++ NodeId.text block ++ " [label=\"Block\", shape=point];\n" ++
    String.join members ++ "    \x7d\n"

def edgeStyle (n : NodeId) (x operand : Node) : String :=
  if n = Anchor.stop then "style=dotted"
  else if x.op = .block then "style=dashed, color=blue"
  else if operand.mode = .memory then "color=red"
  else "color=black"

/-- The edges into `n` from its live operands. -/
def edges (g : Graph) (live : BitSet) (n : NodeId) : Except Error String := do
  let x ← g.node n
  let lines ← x.operands.zipIdx.mapM fun (o, i) => do
    if live.contains o then
      let y ← g.node o
      return "    " ++ NodeId.text o ++ " -> " ++ NodeId.text n ++ " [label=\"" ++ toString i ++
        "\", " ++ edgeStyle n x y ++ "];\n"
    else return ""
  return String.join lines

end Dot

/-- The live part of the graph as a drawing. -/
def Graph.toDot (g : Graph) : Except Error String := do
  let walk ← Walk.run g
  let members ← g.membersByBlock walk.live.toList
  let blocks ← g.select (·.op == .block) walk.order
  let clusters ← blocks.mapM fun b => do
    let lines ← (members.filed b).mapM fun n => return Dot.member n (← g.node n)
    return Dot.cluster b lines
  let edges ← walk.order.mapM (Dot.edges g walk.live)
  return "digraph Function \x7b\n" ++
    "    label=\"" ++ Dot.escape g.name ++ "\";\n" ++
    "    labelloc=t;\n" ++
    "    compound=true;\n" ++
    "    node [shape=box, fontname=\"Courier\", fontsize=10];\n" ++
    "    edge [fontname=\"Courier\", fontsize=9];\n\n" ++
    String.join clusters ++ "\n" ++ String.join edges ++ "\x7d\n"

end SeaOfNodes
