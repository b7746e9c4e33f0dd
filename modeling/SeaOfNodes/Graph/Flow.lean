import SeaOfNodes.Closure
import SeaOfNodes.Graph.Basic
import SeaOfNodes.IdMap

/-!
Control flow between blocks.

A block `t` follows a block `s` if one of the predecessor edges of `t` stands in `s`. Edges that
are retired or stand for dead control do not count.
-/

namespace SeaOfNodes

namespace Graph

/-- Files each of `ns` under the block it stands in. -/
def membersByBlock (g : Graph) (ns : List NodeId) : Except Error (IdMap (List NodeId)) :=
  ns.foldlM (fun m n => do
    let x ← g.node n
    match x.block with
    | none => return m
    | some b => return m.file b n) []

/-- The blocks that the given predecessor edges of `block` come from. -/
def sources (g : Graph) : List NodeId → Except Error (List NodeId)
  | [] => .ok []
  | p :: ps => do
    let rest ← g.sources ps
    if p = Anchor.bad ∨ g.isRetired p then return rest
    else return (← g.node p).block.toList ++ rest

/-- Files each of `blocks` under the blocks it follows, once for each edge. -/
def successors (g : Graph) (blocks : List NodeId) : Except Error (IdMap (List NodeId)) :=
  blocks.foldlM (fun m b => do
    let x ← g.node b
    return (← g.sources x.operands).foldl (fun m s => m.file s b) m) []

/-- Those of `blocks` that control can reach from the entry, with the entry itself. -/
def reachableBlocks (g : Graph) (blocks : List NodeId) : Except Error BitSet := do
  let next ← g.successors blocks
  BitSet.closure g.size (fun b => next.filed b) [Anchor.startBlock]

end Graph

end SeaOfNodes
