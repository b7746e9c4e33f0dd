import SeaOfNodes.Counting
import SeaOfNodes.Literal

/-!
Operations: the closed set of node kinds.

`Op.traits` is the one table of what a kind is like (ends a block, threads memory, may stand on a
cycle, ...); the questions that other modules ask are answered from it.
-/

namespace SeaOfNodes

/-- What a projection takes out of a tuple node. -/
inductive Projection where
  | memory
  | result
  | argument (index : Nat)
  | arm (side : Bool)
deriving DecidableEq

namespace Projection

/-- The side of a branch the projection stands for. -/
def side? : Projection → Option Bool
  | arm b => some b
  | _ => none

/-- The two arms of a conditional branch are control edges. -/
def isArm (k : Projection) : Bool := k.side?.isSome

def text : Projection → String
  | memory => "M"
  | result => "res"
  | argument i => s!"arg{i}"
  | arm true => "true"
  | arm false => "false"

end Projection

/-- Operations on two values that cannot trap. -/
inductive BinaryOp where
  | add | sub | mul | and | or | eor | shl | shr | shrs
deriving DecidableEq

namespace BinaryOp

def all : List BinaryOp := [add, sub, mul, and, or, eor, shl, shr, shrs]

def name : BinaryOp → String
  | add => "Add"
  | sub => "Sub"
  | mul => "Mul"
  | and => "And"
  | or => "Or"
  | eor => "Eor"
  | shl => "Shl"
  | shr => "Shr"
  | shrs => "Shrs"

def eval : BinaryOp → Literal → Literal → Option Literal
  | add => Literal.add?
  | sub => Literal.sub?
  | mul => Literal.mul?
  | and => Literal.and?
  | or => Literal.or?
  | eor => Literal.xor?
  | shl => Literal.shl?
  | shr => Literal.shr?
  | shrs => Literal.shrs?

end BinaryOp

/-- Comparisons of two values of one type. -/
inductive Relation where
  | equal | lessGreater | less | lessEqual | greater | greaterEqual
deriving DecidableEq

namespace Relation

def all : List Relation := [equal, lessGreater, less, lessEqual, greater, greaterEqual]

def name : Relation → String
  | equal => "Equal"
  | lessGreater => "LessGreater"
  | less => "Less"
  | lessEqual => "LessEqual"
  | greater => "Greater"
  | greaterEqual => "GreaterEqual"

def text : Relation → String
  | equal => "=="
  | lessGreater => "!="
  | less => "<"
  | lessEqual => "<="
  | greater => ">"
  | greaterEqual => ">="

/-- Whether the relation holds of two values in the given order. -/
def holds : Relation → Ordering → Bool
  | equal => (· == .eq)
  | lessGreater => (· != .eq)
  | less => (· == .lt)
  | lessEqual => (· != .gt)
  | greater => (· == .gt)
  | greaterEqual => (· != .lt)

/-- The relation of two literals, which must have the same type. -/
def eval (r : Relation) (a b : Literal) : Option Bool := (a.compare? b).map r.holds

end Relation

/-- What a kind of node is like. -/
inductive Trait where
  | controlFlow | usesMemory | tuple | loopBreaker | constant | foldable | anchor
deriving DecidableEq

/-- The trait's bit in a set of traits written as one number. -/
def Trait.bit : Trait → Nat
  | controlFlow => 1
  | usesMemory => 2
  | tuple => 4
  | loopBreaker => 8
  | constant => 16
  | foldable => 32
  | anchor => 64

/-- The kinds of nodes. `retired` marks an arena slot whose node was removed. -/
inductive Op where
  | start | stop | block | jump | cond | ret | bad
  | const (value : Literal)
  | proj (kind : Projection)
  | phi
  | binary (op : BinaryOp)
  | cmp (relation : Relation)
  | minus | not | conv | div | mod | load | store
  | call (callee : String)
  | retired
deriving DecidableEq

namespace Op

/-- The kind's name, without what it carries. -/
def name : Op → String
  | start => "Start"
  | stop => "End"
  | block => "Block"
  | jump => "Jmp"
  | cond => "Cond"
  | ret => "Return"
  | bad => "Bad"
  | const _ => "Const"
  | proj _ => "Proj"
  | phi => "Phi"
  | binary _ => "Binary"
  | cmp _ => "Cmp"
  | minus => "Minus"
  | not => "Not"
  | conv => "Conv"
  | div => "Div"
  | mod => "Mod"
  | load => "Load"
  | store => "Store"
  | call _ => "Call"
  | retired => "Deleted"

/-- The operation as printed, with what it carries. -/
def text : Op → String
  | const v => "Const " ++ v.text
  | proj k => "Proj " ++ k.text
  | binary op => op.name
  | cmp r => "Cmp " ++ r.text
  | call f => "Call " ++ f
  | op => op.name

def traits : Op → List Trait
  | start => [.anchor, .tuple]
  | stop => [.anchor]
  | block => [.loopBreaker]
  | jump => [.controlFlow]
  | cond => [.controlFlow, .tuple, .foldable]
  | ret => [.controlFlow, .usesMemory]
  | bad => [.anchor, .controlFlow]
  | const _ => [.constant]
  | proj (.arm _) => [.controlFlow]
  | proj _ => []
  | phi => [.loopBreaker, .foldable]
  | binary _ | cmp _ | minus | not | conv => [.foldable]
  | div | mod => [.usesMemory, .tuple, .foldable]
  | load | store | call _ => [.usesMemory, .tuple]
  | retired => []

/-- The traits as one number. -/
def flags (op : Op) : Nat := (op.traits.map Trait.bit).sum

/-- Kinds that may stand on a dependency cycle: loop headers and loop-carried values. -/
def isLoopBreaker (op : Op) : Bool := op.traits.contains .loopBreaker

/-- Kinds whose first operand is the memory state they act on. -/
def usesMemory (op : Op) : Bool := op.traits.contains .usesMemory

/-- Kinds that leave a new memory state behind. -/
def producesMemory : Op → Bool
  | div | mod | load | store | call _ => true
  | _ => false

/-- Kinds that are control edges into the block that lists them as a predecessor. -/
def isEdge : Op → Bool
  | jump | ret | bad => true
  | proj k => k.isArm
  | _ => false

/-- The kinds of integer division. -/
def isDivision : Op → Bool
  | div | mod => true
  | _ => false

end Op

end SeaOfNodes
