import SeaOfNodes.Graph.Edit

/-!
Building a function.

The builder knows the layout of a graph: where constants and arguments live, how memory is
threaded through the nodes that act on it, how returns enter the exit block. Blocks and phis may
be made before all their inputs exist, which is how loops are closed.
-/

namespace SeaOfNodes

/-- A construction on a graph. -/
abbrev Build := StateT Graph (Except Error)

namespace Builder

def add (op : Op) (mode : Mode) (block : Option NodeId) (operands : List NodeId) : Build NodeId :=
  fun g => g.addNode op mode block operands

def link (n operand : NodeId) : Build Unit :=
  fun g => (g.addOperand n operand).map fun h => ((), h)

/-- The mode of a node already built. -/
def modeOf (n : NodeId) : Build Mode :=
  fun g => (g.node n).map fun x => (x.mode, g)

/-- What the start node provides; asking twice gives the same node. -/
def fromStart (kind : Projection) (mode : Mode) : Build NodeId := do
  match ← (fun g => (g.proj Anchor.start kind).map fun p => (p, g) : Build (Option NodeId)) with
  | some n => return n
  | none => add (.proj kind) mode (some Anchor.startBlock) [Anchor.start]

/-- The memory state on entry. -/
def memory : Build NodeId := fromStart .memory .memory

def argument (index : Nat) (mode : Mode) : Build NodeId := fromStart (.argument index) mode

def constant (value : Literal) : Build NodeId :=
  add (.const value) value.mode (some Anchor.startBlock) []

def block (preds : List NodeId) : Build NodeId := add .block .block none preds

def jump (block : NodeId) : Build NodeId := add .jump .control (some block) []

/-- A branch that leaves `block`; the arm taken on `true` comes first. -/
def cond (block selector : NodeId) : Build (NodeId × NodeId) := do
  let branch ← add .cond .tuple (some block) [selector]
  let onTrue ← add (.proj (.arm true)) .control (some block) [branch]
  let onFalse ← add (.proj (.arm false)) .control (some block) [branch]
  return (onTrue, onFalse)

def phi (block : NodeId) (operands : List NodeId) (mode : Mode) : Build NodeId :=
  add .phi mode (some block) operands

/-- A binary operation; its mode is that of the left operand. -/
def binary (block : NodeId) (op : BinaryOp) (left right : NodeId) : Build NodeId := do
  add (.binary op) (← modeOf left) (some block) [left, right]

def cmp (block : NodeId) (r : Relation) (left right : NodeId) : Build NodeId :=
  add (.cmp r) .bool (some block) [left, right]

/-- An operation on one value; its mode is that of the operand. -/
def unary (block : NodeId) (op : Op) (operand : NodeId) : Build NodeId := do
  add op (← modeOf operand) (some block) [operand]

def conv (block operand : NodeId) (mode : Mode) : Build NodeId :=
  add .conv mode (some block) [operand]

/-- A node that acts on memory, with the memory state it leaves. -/
def acting (block : NodeId) (op : Op) (operands : List NodeId) : Build (NodeId × NodeId) := do
  let tuple ← add op .tuple (some block) operands
  let after ← add (.proj .memory) .memory (some block) [tuple]
  return (tuple, after)

def result (block tuple : NodeId) (mode : Mode) : Build NodeId :=
  add (.proj .result) mode (some block) [tuple]

/-- A division of either kind: the memory state it leaves, and its result. -/
def division (op : Op) (block mem left right : NodeId) : Build (NodeId × NodeId) := do
  let mode ← modeOf left
  let (tuple, after) ← acting block op [mem, left, right]
  return (after, ← result block tuple mode)

def div : (block mem left right : NodeId) → Build (NodeId × NodeId) := division .div

def modulo : (block mem left right : NodeId) → Build (NodeId × NodeId) := division .mod

def load (block mem address : NodeId) (mode : Mode) : Build (NodeId × NodeId) := do
  let (tuple, after) ← acting block .load [mem, address]
  return (after, ← result block tuple mode)

def store (block mem address value : NodeId) : Build NodeId := do
  return (← acting block .store [mem, address, value]).2

/-- A call: the memory state it leaves, and its result if one is wanted. -/
def call (block mem : NodeId) (callee : String) (args : List NodeId) (mode : Option Mode) :
    Build (NodeId × Option NodeId) := do
  let (tuple, after) ← acting block (.call callee) (mem :: args)
  match mode with
  | none => return (after, none)
  | some m => return (after, some (← result block tuple m))

/-- A return, entered into the exit block. -/
def ret (block mem : NodeId) (values : List NodeId) : Build NodeId := do
  let n ← add .ret .control (some block) (mem :: values)
  link Anchor.endBlock n
  return n

def keepAlive (n : NodeId) : Build Unit := link Anchor.stop n

/-- A call of the builder. -/
inductive Call where
  | memory
  | argument (index : Nat) (mode : Mode)
  | constant (value : Literal)
  | block (preds : List NodeId)
  | addPred (block pred : NodeId)
  | jump (block : NodeId)
  | cond (block selector : NodeId)
  | phi (block : NodeId) (operands : List NodeId) (mode : Mode)
  | addPhiOperand (phi operand : NodeId)
  | binary (block : NodeId) (op : BinaryOp) (left right : NodeId)
  | cmp (block : NodeId) (relation : Relation) (left right : NodeId)
  | unary (block : NodeId) (op : Op) (operand : NodeId)
  | conv (block operand : NodeId) (mode : Mode)
  | div (block mem left right : NodeId)
  | modulo (block mem left right : NodeId)
  | load (block mem address : NodeId) (mode : Mode)
  | store (block mem address value : NodeId)
  | call (block mem : NodeId) (callee : String) (args : List NodeId) (mode : Option Mode)
  | ret (block mem : NodeId) (values : List NodeId)
  | keepAlive (node : NodeId)
deriving DecidableEq

/-- Carries out a call and lists the ids it hands out. -/
def Call.run : Call → Build (List NodeId)
  | .memory => return [← Builder.memory]
  | .argument i m => return [← Builder.argument i m]
  | .constant v => return [← Builder.constant v]
  | .block ps => return [← Builder.block ps]
  | .addPred b p => do
    link b p
    return []
  | .jump b => return [← Builder.jump b]
  | .cond b s => do
    let (t, f) ← Builder.cond b s
    return [t, f]
  | .phi b os m => return [← Builder.phi b os m]
  | .addPhiOperand p o => do
    link p o
    return []
  | .binary b op l r => return [← Builder.binary b op l r]
  | .cmp b r x y => return [← Builder.cmp b r x y]
  | .unary b op x => return [← Builder.unary b op x]
  | .conv b x m => return [← Builder.conv b x m]
  | .div b m l r => do
    let (after, q) ← Builder.div b m l r
    return [after, q]
  | .modulo b m l r => do
    let (after, q) ← Builder.modulo b m l r
    return [after, q]
  | .load b m p mode => do
    let (after, v) ← Builder.load b m p mode
    return [after, v]
  | .store b m p v => return [← Builder.store b m p v]
  | .call b m f as mode => do
    let (after, v) ← Builder.call b m f as mode
    return after :: v.toList
  | .ret b m vs => return [← Builder.ret b m vs]
  | .keepAlive n => do
    Builder.keepAlive n
    return []

end Builder

end SeaOfNodes
