import SeaOfNodes.Draft
import SeaOfNodes.Graph.Flow
import SeaOfNodes.Graph.Walk

/-!
Removing what became dead.

A round first drops dead predecessor edges with the operands of the phis that belong to them,
merges phis of blocks with one predecessor left and drops dead or repeated keep-alives; then it
turns unreachable blocks into dead control and retires every node that is not live. Two rounds are
run: removing a block turns its edges dead, and the second round drops those.
-/

namespace SeaOfNodes

namespace Cleanup

/-- How much was removed. -/
structure Counts where
  edges : Nat := 0
  phis : Nat := 0
  keepAlives : Nat := 0
  blocks : Nat := 0
  nodes : Nat := 0
deriving DecidableEq

namespace Counts

def changed (c : Counts) : Bool := c.edges + c.phis + c.keepAlives + c.blocks + c.nodes > 0

def add (c d : Counts) : Counts where
  edges := c.edges + d.edges
  phis := c.phis + d.phis
  keepAlives := c.keepAlives + d.keepAlives
  blocks := c.blocks + d.blocks
  nodes := c.nodes + d.nodes

end Counts

/-! ### Dead edges -/

/-- Whether nothing flows along an edge from `n` any more. -/
def isDead (g : Graph) (n : NodeId) : Bool := n == Anchor.bad || g.isRetired n

/-- Removes the operand of a phi that belongs to predecessor `i`, if it has one. -/
def dropPhiOperand (i : Nat) (d : Draft) (phi : NodeId) : Except Error Draft := do
  let x ← d.graph.node phi
  if i < x.operands.length then d.edit fun g => g.removeOperand phi i else return d

/-- Removes predecessor `i` of a block if it is dead, with the phi operands that belong to it. -/
def dropDeadEdge (block : NodeId) (phis : List NodeId) (d : Draft × Nat) (i : Nat) :
    Except Error (Draft × Nat) := do
  let (d, removed) := d
  let x ← d.graph.node block
  match x.operands[i]? with
  | none => .error .outOfRange
  | some p =>
    if isDead d.graph p then
      let d ← d.edit fun g => g.removeOperand block i
      let d ← phis.foldlM (dropPhiOperand i) d
      return (d.note .edgeRemoved block none ("predecessor " ++ toString i), removed + 1)
    else return (d, removed)

/-- Removes the dead predecessors of a block, the last first. -/
def dropDeadEdges (members : IdMap (List NodeId)) (d : Draft × Nat) (block : NodeId) :
    Except Error (Draft × Nat) := do
  let phis ← d.1.graph.select (·.op == .phi) (members.filed block)
  let x ← d.1.graph.node block
  (List.range x.operands.length).reverse.foldlM (dropDeadEdge block phis) d

/-- Exchanges a phi that combines nothing any more with its operand. -/
def mergePhi (d : Draft × Nat) (n : NodeId) : Except Error (Draft × Nat) := do
  let (d, merged) := d
  let x ← d.graph.node n
  match x.op, x.operands with
  | .phi, [value] =>
    if value = n then return (d, merged)
    else
      let d ← d.edit fun g => g.exchange n value
      return (d.note .phiSimplified n none ("-> " ++ NodeId.text value), merged + 1)
  | _, _ => return (d, merged)

/-- Merges the phis of a reachable block that has one predecessor. -/
def mergePhis (members : IdMap (List NodeId)) (reachable : BitSet) (d : Draft × Nat)
    (block : NodeId) : Except Error (Draft × Nat) := do
  let x ← d.1.graph.node block
  if reachable.contains block && x.operands.length == 1 then (members.filed block).foldlM mergePhi d
  else return d

/-- Positions of keep-alives to drop, the last first: dead ones, and all but the last of those
that name the same node. -/
def staleKeepAlives (g : Graph) : List NodeId → Nat → List Nat
  | [], _ => []
  | n :: later, i =>
    let rest := staleKeepAlives g later (i + 1)
    if isDead g n || later.contains n then rest ++ [i] else rest

def dropKeepAlives (d : Draft) : Except Error (Draft × Nat) := do
  let stale := staleKeepAlives d.graph (← d.graph.keepAlives) 0
  let d ← stale.foldlM (fun d i => d.edit fun g => g.removeOperand Anchor.stop i) d
  return (d, stale.length)

/-- First half of a round. -/
def removeDeadEdges : Editing Counts :=
  Editing.change fun d => do
    let live ← d.graph.live
    let blocks ← d.graph.select (·.op == .block) live.toList
    let members ← d.graph.membersByBlock live.toList
    let (d, edges) ← blocks.foldlM (dropDeadEdges members) (d, 0)
    let reachable ← d.graph.reachableBlocks blocks
    let (d, phis) ← blocks.foldlM (mergePhis members reachable) (d, 0)
    let (d, keepAlives) ← dropKeepAlives d
    return ({ edges, phis, keepAlives }, d)

/-! ### Unreachable code -/

/-- Exchanges a node with dead control, unless it is retired. -/
def bury (d : Draft) (n : NodeId) : Except Error Draft :=
  if d.graph.isRetired n then .ok d else d.edit fun g => g.exchange n Anchor.bad

/-- Turns a block and its members into dead control. -/
def removeBlock (members : IdMap (List NodeId)) (d : Draft) (block : NodeId) :
    Except Error Draft := do
  let d ← (members.filed block).foldlM bury d
  let d ← d.edit fun g => g.exchange block Anchor.bad
  return d.note .blockRemoved block none ""

/-- Removes the blocks that control cannot reach, the exit block excepted. -/
def removeBlocks (d : Draft) : Except Error (Nat × Draft) := do
  let live ← d.graph.live
  let blocks ← d.graph.select (·.op == .block) live.toList
  let reachable ← d.graph.reachableBlocks blocks
  let members ← d.graph.membersByBlock live.toList
  let dead := blocks.filter fun b =>
    !reachable.contains b && b != Anchor.startBlock && b != Anchor.endBlock
  let d ← dead.foldlM (removeBlock members) d
  return (dead.length, d)

/-- Retires every node that is not live. -/
def removeGarbage (d : Draft) : Except Error (Nat × Draft) := do
  let live ← d.graph.live
  let garbage := d.graph.ids.filter fun n => !live.contains n
  let d ← garbage.foldlM (fun d n => d.edit fun g => g.kill n) d
  if garbage.isEmpty then return (0, d)
  else
    let count := garbage.length
    return (count, d.note .nodesRemoved none none (toString count ++ " nodes"))

/-- Second half of a round. -/
def removeUnreachable : Editing Counts := do
  let blocks ← Editing.change removeBlocks
  let nodes ← Editing.change removeGarbage
  return { blocks, nodes }

/-! ### Rounds -/

def round : Editing Counts := do
  let first ← removeDeadEdges
  let second ← removeUnreachable
  return first.add second

/-- Two rounds. If asked to check, a third one must find nothing left to remove. -/
def run (check : Bool) : Editing Counts := do
  let first ← round
  let second ← round
  if check then
    let extra ← Editing.silently round
    if extra.changed then throw (.cleanupDiverged (← get).graph.name)
  return first.add second

end Cleanup

end SeaOfNodes
