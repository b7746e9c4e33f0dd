/-!
Modes: what kind of thing a node produces.

A mode is a truth value, an integer of one of six types, or one of the kinds that carry no
arithmetic (pointers, memory states, control, tuples, blocks). Only the first seven are
*foldable*: a node of such a mode may be replaced by a literal.
-/

namespace SeaOfNodes

/-- The integer types of the target: three widths, signed and unsigned. -/
inductive IntType where
  | i8 | u8 | i32 | u32 | i64 | u64
deriving DecidableEq

namespace IntType

/-- Number of bits of a value. -/
def width : IntType → Nat
  | i8 | u8 => 8
  | i32 | u32 => 32
  | i64 | u64 => 64

/-- Whether patterns are read in two's complement. -/
def signed : IntType → Bool
  | i8 | i32 | i64 => true
  | u8 | u32 | u64 => false

/-- The name that marks a literal of the type. -/
def suffix : IntType → String
  | i8 => "i8"
  | u8 => "u8"
  | i32 => "i32"
  | u32 => "u32"
  | i64 => "i64"
  | u64 => "u64"

/-- The integer a bit pattern stands for. -/
def read (t : IntType) (a : BitVec t.width) : Int :=
  if t.signed then a.toInt else a.toNat

theorem width_pos (t : IntType) : 0 < t.width := by
  cases t <;> decide

end IntType

/-- What a node produces. -/
inductive Mode where
  | bool
  | int (type : IntType)
  | ptr | memory | control | tuple | block
deriving DecidableEq

namespace Mode

/-- Every mode, in the order of the listing. -/
def all : List Mode :=
  [.bool, .int .i8, .int .u8, .int .i32, .int .u32, .int .i64, .int .u64,
    .ptr, .memory, .control, .tuple, .block]

def name : Mode → String
  | bool => "Bool"
  | int .i8 => "I8"
  | int .u8 => "U8"
  | int .i32 => "I32"
  | int .u32 => "U32"
  | int .i64 => "I64"
  | int .u64 => "U64"
  | ptr => "Ptr"
  | memory => "Memory"
  | control => "Control"
  | tuple => "Tuple"
  | block => "Block"

def isInt : Mode → Bool
  | int _ => true
  | _ => false

/-- Modes whose values a literal can stand for. -/
def isFoldable : Mode → Bool
  | bool | int _ => true
  | _ => false

/-- Modes of values that travel along data edges. -/
def isData : Mode → Bool
  | bool | int _ | ptr => true
  | _ => false

/-- Width of an integer mode. -/
def bits? : Mode → Option Nat
  | int t => some t.width
  | _ => none

end Mode

end SeaOfNodes
