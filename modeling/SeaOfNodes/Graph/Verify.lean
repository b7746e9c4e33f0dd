import SeaOfNodes.Graph.Flow
import SeaOfNodes.Graph.Walk

/-!
Well-formedness of a graph.

Only live nodes are looked at. `Graph.verify` reports the first violation: first a walk that
fails, then a dangling edge, then node by node in the order of the walk, last a block that
control cannot reach.
-/

namespace SeaOfNodes

namespace Graph

def violation {α : Type} (g : Graph) (n : Option NodeId) (cause : Violation) : Except Error α :=
  .error (.invalidGraph g.name n cause)

/-- The user lists of the operands count the edges of `n` right. -/
def checkUsers (g : Graph) (n : NodeId) (x : Node) : Except Error Unit :=
  x.operands.forM fun o => do
    let y ← g.node o
    let edges := x.operands.count o
    let recorded := y.users.count n
    if edges = recorded then return () else g.violation n (.userMismatch edges o recorded)

/-- Whether a node of kind `op` may be a predecessor edge of `block`. -/
def entersBlock (block : NodeId) : Op → Bool
  | .jump => true
  | .proj k => k.isArm
  | .ret => block == Anchor.endBlock
  | _ => false

def checkPredecessors (g : Graph) (block : NodeId) (x : Node) : Except Error Unit :=
  x.operands.forM fun p => do
    if p = Anchor.bad then g.violation block .deadPredecessor
    else
      let y ← g.node p
      if entersBlock block y.op then return ()
      else g.violation block (.invalidPredecessor p y.op)

/-- A phi stands in a block and has an operand for each of its predecessors. -/
def checkPhi (g : Graph) (n : NodeId) (x : Node) : Except Error Unit :=
  match x.block with
  | none => g.violation n .phiOutsideBlock
  | some b => do
    let y ← g.node b
    if y.op ≠ .block then g.violation n .phiOutsideBlock
    else if x.operands.length = y.operands.length then return ()
    else g.violation n (.phiArity x.operands.length y.operands.length)

/-- The first operand has the given mode. -/
def firstHasMode (g : Graph) (x : Node) (mode : Mode) : Except Error (Option NodeId) :=
  match x.operands.head? with
  | none => .ok none
  | some o => do
    let y ← g.node o
    return if y.mode = mode then some o else none

def checkKind (g : Graph) (n : NodeId) (x : Node) : Except Error Unit :=
  match x.op with
  | .block => g.checkPredecessors n x
  | .phi => g.checkPhi n x
  | .cond => do
    match ← g.firstHasMode x .bool with
    | some _ => return ()
    | none => g.violation n .selectorNotBoolean
  | _ => .ok ()

/-- The memory states consumed so far, with the block and the node that consume them. -/
abbrev Consumers := List ((NodeId × NodeId) × NodeId)

/-- A node that acts on memory consumes a state that nothing else in its block consumes. -/
def checkMemoryUse (g : Graph) (consumers : Consumers) (n : NodeId) (x : Node) :
    Except Error Consumers :=
  if x.op.usesMemory then do
    match ← g.firstHasMode x .memory with
    | none => g.violation n .memoryMissing
    | some mem =>
      match x.block with
      | none => return consumers
      | some b =>
        match consumers.lookup (b, mem) with
        | some other => g.violation n (.memoryFork other n mem)
        | none => return ((b, mem), n) :: consumers
  else .ok consumers

/-- A node that leaves a memory state has one projection of it. -/
def checkMemoryResult (g : Graph) (n : NodeId) (x : Node) : Except Error Unit :=
  if x.op.producesMemory then do
    let projections ← g.select (·.op == .proj .memory) x.users
    if projections.length = 1 then return ()
    else g.violation n (.memoryProjections projections.length)
  else .ok ()

def checkNode (g : Graph) (consumers : Consumers) (n : NodeId) : Except Error Consumers := do
  let x ← g.node n
  g.checkUsers n x
  g.checkKind n x
  let consumers ← g.checkMemoryUse consumers n x
  g.checkMemoryResult n x
  return consumers

/-- Checks every rule of well-formedness and reports the first violation. -/
def verify (g : Graph) : Except Error Unit :=
  match Walk.run g with
  | .error (.malformed m) => g.violation none (.malformed m)
  | .error e => .error e
  | .ok walk =>
    match walk.dangling with
    | (user, target) :: _ => g.violation user (.retiredInput target)
    | [] => do
      let _ ← walk.order.foldlM g.checkNode []
      let blocks ← g.select (·.op == .block) walk.order
      let reachable ← g.reachableBlocks blocks
      match blocks.find? fun b => b != Anchor.endBlock && !reachable.contains b with
      | some b => g.violation b .unreachable
      | none => return ()

end Graph

end SeaOfNodes
