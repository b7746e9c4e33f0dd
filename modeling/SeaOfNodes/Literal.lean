import SeaOfNodes.Mode

/-!
Literals: the values that constants carry and that a run computes with.

An integer literal is a bit pattern of its type's width, so arithmetic wraps by itself and the
integer meant is `Literal.toInt`. Operations without a defined result (operands of different
types, a zero divisor, the one quotient that does not fit) answer `none`.
-/

namespace SeaOfNodes

inductive Literal where
  | bool (b : Bool)
  | int (type : IntType) (bits : BitVec type.width)
deriving DecidableEq

namespace Literal

/-- The mode of a constant that carries the literal. -/
def mode : Literal → Mode
  | bool _ => .bool
  | int t _ => .int t

/-- The integer meant; truth values count as 0 and 1. -/
def toInt : Literal → Int
  | bool b => b.toNat
  | int t a => t.read a

/-- The literal of type `t` congruent to `z` modulo the type's range. -/
def ofInt (t : IntType) (z : Int) : Literal :=
  .int t (BitVec.ofInt t.width z)

def toBool? : Literal → Option Bool
  | bool b => some b
  | int _ _ => none

/-- The value on 64 bits, extended by the sign where the type has one. -/
def extend : Literal → BitVec 64
  | bool b => if b then 1 else 0
  | int t a => if t.signed then a.signExtend 64 else a.setWidth 64

def isZero : Literal → Bool
  | bool b => !b
  | int t a => a == BitVec.zero t.width

/-- The zero of a foldable mode. -/
def zero? : Mode → Option Literal
  | .bool => some (.bool false)
  | .int t => some (.int t (BitVec.zero t.width))
  | _ => none

/-- The literal in another mode: integers are cut to their low bits after extension to 64, and a
truth value tells whether anything was set. -/
def convert? (a : Literal) : Mode → Option Literal
  | .bool => some (.bool (!a.isZero))
  | .int t => some (.int t (a.extend.setWidth t.width))
  | _ => none

/-! ### One operand -/

def neg? : Literal → Option Literal
  | bool _ => none
  | int t a => some (.int t (-a))

/-- Complement of every bit; of a truth value, its negation. -/
def complement : Literal → Literal
  | bool b => .bool (!b)
  | int t a => .int t (~~~a)

/-! ### Two operands of one type -/

/-- Applies `f` to the patterns of two integers of the same type. -/
def onInts (f : (t : IntType) → BitVec t.width → BitVec t.width → Option (BitVec t.width)) :
    Literal → Literal → Option Literal
  | int t a, int u b =>
    if h : u = t then (f t a (b.cast (congrArg IntType.width h))).map (.int t) else none
  | _, _ => none

/-- Applies `p` to two truth values and `f` to two integers of the same type. -/
def onBits (p : Bool → Bool → Bool) (f : (w : Nat) → BitVec w → BitVec w → BitVec w) :
    Literal → Literal → Option Literal
  | bool a, bool b => some (.bool (p a b))
  | a, b => onInts (fun t x y => some (f t.width x y)) a b

def add? : Literal → Literal → Option Literal := onInts fun _ a b => some (a + b)
def sub? : Literal → Literal → Option Literal := onInts fun _ a b => some (a - b)
def mul? : Literal → Literal → Option Literal := onInts fun _ a b => some (a * b)

def and? : Literal → Literal → Option Literal := onBits (· && ·) fun _ a b => a &&& b
def or? : Literal → Literal → Option Literal := onBits (· || ·) fun _ a b => a ||| b
def xor? : Literal → Literal → Option Literal := onBits (· ^^ ·) fun _ a b => a ^^^ b

/-- Whether `a` may be divided by `b`: the divisor is not zero, and the quotient of the least
signed value by minus one, which does not fit, is excluded. -/
def divisible (t : IntType) (a b : BitVec t.width) : Bool :=
  b != BitVec.zero t.width &&
    !(t.signed && a == BitVec.intMin t.width && b == BitVec.allOnes t.width)

/-- Quotient rounded toward zero. -/
def div? : Literal → Literal → Option Literal := onInts fun t a b =>
  if divisible t a b then some (if t.signed then a.sdiv b else a.udiv b) else none

/-- Remainder with the sign of the dividend. -/
def rem? : Literal → Literal → Option Literal := onInts fun t a b =>
  if divisible t a b then some (if t.signed then a.srem b else a.umod b) else none

/-- Order of two literals of the same type; `false` comes before `true`. -/
def compare? (a b : Literal) : Option Ordering :=
  if a.mode = b.mode then some (compare a.toInt b.toInt) else none

/-! ### Shifts -/

/-- Shifts an integer by an amount of any integer type, taken modulo the width. -/
def shiftBy (f : (w : Nat) → BitVec w → Nat → BitVec w) : Literal → Literal → Option Literal
  | int t a, int _ k => some (.int t (f t.width a (k.toNat % t.width)))
  | _, _ => none

def shl? : Literal → Literal → Option Literal := shiftBy fun _ a k => a <<< k

/-- Shift to the right that fills with zeros, whatever the type. -/
def shr? : Literal → Literal → Option Literal := shiftBy fun _ a k => a >>> k

/-- Shift to the right that repeats the top bit, whatever the type. -/
def shrs? : Literal → Literal → Option Literal := shiftBy fun _ a k => a.sshiftRight k

/-! ### Text -/

/-- The literal as printed: integers show their type, except the default `i32`. -/
def text : Literal → String
  | bool true => "true"
  | bool false => "false"
  | int .i32 a => toString (IntType.read .i32 a)
  | int t a => toString (t.read a) ++ ":" ++ t.suffix

end Literal

end SeaOfNodes
