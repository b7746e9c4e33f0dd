import Mathlib.Data.Int.ModEq
import SeaOfNodes.Op

/-!
What the operations on two literals compute.

A literal is a pattern of as many bits as its type has, a truth value one of a single bit. Every
operation stands for an integer (`BinaryOp.value`), said without patterns of fixed width: sums,
differences, products, multiples and quotients by powers of two. The result is the pattern of that
integer in the type of the left operand (`BinaryOp.eval_exact`), whatever the types of the operands.
-/

namespace SeaOfNodes

/-! ### Patterns and the integers they stand for -/

theorem toInt_modEq_toNat {w : Nat} (x : BitVec w) : x.toInt ≡ x.toNat [ZMOD 2 ^ w] := by
  have hpow : ((2 ^ w : Nat) : Int) = 2 ^ w := by push_cast; rfl
  rw [BitVec.toInt_eq_toNat_bmod, ← hpow]
  exact Int.bmod_emod

/-- However a type reads a pattern, the integer is the same up to the range of the type. -/
theorem IntType.read_modEq (t : IntType) (x : BitVec t.width) :
    t.read x ≡ x.toNat [ZMOD 2 ^ t.width] := by
  unfold IntType.read
  split
  next => exact toInt_modEq_toNat x
  next => rfl

theorem IntType.toInt_modEq_read (t : IntType) (x : BitVec t.width) :
    x.toInt ≡ t.read x [ZMOD 2 ^ t.width] :=
  (toInt_modEq_toNat x).trans (t.read_modEq x).symm

/-- Every width is a power of two that divides the range of every type. -/
theorem IntType.width_dvd (t u : IntType) : (t.width : Int) ∣ 2 ^ u.width := by
  cases t <;> cases u <;> decide

/-- A pattern congruent to an integer is what remains of it on as many bits. -/
theorem toNat_eq_emod {w : Nat} {x : BitVec w} {z : Int} (h : (x.toNat : Int) ≡ z [ZMOD 2 ^ w]) :
    (x.toNat : Int) = z % 2 ^ w := by
  have hlt : (x.toNat : Int) < 2 ^ w := by exact_mod_cast x.isLt
  rw [← h.eq, Int.emod_eq_of_lt (Int.natCast_nonneg _) hlt]

namespace Literal

/-- Number of bits of a literal; a truth value has one. -/
def width : Literal → Nat
  | bool _ => 1
  | int t _ => t.width

def bits : (a : Literal) → BitVec a.width
  | bool b => BitVec.ofBool b
  | int _ x => x

/-- The bits read without a sign, whatever the type. -/
def unsigned (a : Literal) : Nat := a.bits.toNat

/-- The bits read in two's complement, whatever the type. -/
def signed (a : Literal) : Int := a.bits.toInt

/-- How far an amount `k` shifts `a`: the integer meant, modulo the width of `a`. -/
def distance (a k : Literal) : Nat := (k.toInt % a.width).toNat

/-- A literal is settled by its mode and its bits. -/
theorem eq_of_unsigned {a b : Literal} (hmode : a.mode = b.mode) (h : a.unsigned = b.unsigned) :
    a = b := by
  cases a with
  | bool p =>
    cases b with
    | bool q => revert h; cases p <;> cases q <;> decide
    | int t y => cases hmode
  | int t x =>
    cases b with
    | bool q => cases hmode
    | int u y =>
      cases hmode
      exact congrArg (int t) (BitVec.eq_of_toNat_eq h)

theorem exists_int {a : Literal} (h : a.mode.isInt = true) : ∃ t x, a = int t x := by
  cases a with
  | bool b => cases h
  | int t x => exact ⟨t, x, rfl⟩

theorem exists_int_of_mode {a : Literal} {t : IntType} (h : a.mode = .int t) :
    ∃ x, a = int t x := by
  cases a with
  | bool b => cases h
  | int u x =>
    cases h
    exact ⟨x, rfl⟩

theorem onInts_int (f : (t : IntType) → BitVec t.width → BitVec t.width → Option (BitVec t.width))
    (t : IntType) (x y : BitVec t.width) :
    onInts f (int t x) (int t y) = (f t x y).map (int t) := by
  simp [onInts]

theorem modes_of_onInts
    {f : (t : IntType) → BitVec t.width → BitVec t.width → Option (BitVec t.width)}
    {a b r : Literal} (h : onInts f a b = some r) : a.mode.isInt = true ∧ b.mode = a.mode := by
  unfold onInts at h
  split at h
  next t x u y =>
    split at h
    next hu => exact ⟨rfl, congrArg Mode.int hu⟩
    next => cases h
  next => cases h

theorem modes_of_onBits {p : Bool → Bool → Bool} {f : (w : Nat) → BitVec w → BitVec w → BitVec w}
    {a b r : Literal} (h : onBits p f a b = some r) : b.mode = a.mode := by
  unfold onBits at h
  split at h
  next => rfl
  next => exact (modes_of_onInts h).2

theorem modes_of_shiftBy {f : (w : Nat) → BitVec w → Nat → BitVec w} {a b r : Literal}
    (h : shiftBy f a b = some r) : a.mode.isInt = true ∧ b.mode.isInt = true := by
  unfold shiftBy at h
  split at h
  next => exact ⟨rfl, rfl⟩
  next => cases h

/-- Extension to 64 bits keeps the integer. -/
theorem extend_modEq (a : Literal) : (a.extend.toNat : Int) ≡ a.toInt [ZMOD 2 ^ 64] := by
  cases a with
  | bool b => cases b <;> rfl
  | int t x =>
    have hle : t.width ≤ 64 := by cases t <;> decide
    have hbound : 2 ^ t.width ≤ 2 ^ 64 := Nat.pow_le_pow_right (by decide) hle
    simp only [extend, toInt, IntType.read]
    split
    next =>
      have h := toInt_modEq_toNat (x.signExtend 64)
      rw [BitVec.toInt_signExtend_of_le hle] at h
      exact h.symm
    next => rw [BitVec.toNat_setWidth, Nat.mod_eq_of_lt (Nat.lt_of_lt_of_le x.isLt hbound)]

/-- An amount may be extended to 64 bits and cut to 32 on its way. -/
theorem distance_eq_extend (a k : Literal) :
    a.distance k = (k.extend.setWidth 32).toNat % a.width := by
  have hdvd : a.width ∣ 2 ^ 32 := by
    cases a with
    | bool b => exact Nat.one_dvd _
    | int t x =>
      have := t.width_dvd .u32
      exact_mod_cast this
  have hwide : (a.width : Int) ∣ 2 ^ 64 := by
    exact_mod_cast hdvd.trans (Nat.pow_dvd_pow 2 (by decide))
  have hmod : (k.extend.toNat : Int) % a.width = k.toInt % a.width := k.extend_modEq.of_dvd hwide
  rw [BitVec.toNat_setWidth, Nat.mod_mod_of_dvd _ hdvd, distance, ← hmod]
  omega

/-- The amount as a shift takes it, off the pattern. -/
theorem distance_int (t u : IntType) (x : BitVec t.width) (k : BitVec u.width) :
    distance (int t x) (int u k) = k.toNat % t.width := by
  have hmod : u.read k % t.width = (k.toNat : Int) % t.width :=
    (u.read_modEq k).of_dvd (t.width_dvd u)
  show (u.read k % t.width).toNat = k.toNat % t.width
  rw [hmod]
  omega

end Literal

namespace BinaryOp

open Literal

/-- The operands an operation is for. -/
def Defined : BinaryOp → Literal → Literal → Prop
  | add, a, b | sub, a, b | mul, a, b => a.mode.isInt = true ∧ b.mode = a.mode
  | and, a, b | or, a, b | eor, a, b => b.mode = a.mode
  | shl, a, b | shr, a, b | shrs, a, b => a.mode.isInt = true ∧ b.mode.isInt = true

instance : (op : BinaryOp) → (a b : Literal) → Decidable (op.Defined a b)
  | add, a, b | sub, a, b | mul, a, b =>
    inferInstanceAs (Decidable (a.mode.isInt = true ∧ b.mode = a.mode))
  | and, a, b | or, a, b | eor, a, b => inferInstanceAs (Decidable (b.mode = a.mode))
  | shl, a, b | shr, a, b | shrs, a, b =>
    inferInstanceAs (Decidable (a.mode.isInt = true ∧ b.mode.isInt = true))

/-- The integer an operation stands for, before it is cut to the bits of the left operand. -/
def value : BinaryOp → Literal → Literal → Int
  | add, a, b => a.toInt + b.toInt
  | sub, a, b => a.toInt - b.toInt
  | mul, a, b => a.toInt * b.toInt
  | and, a, b => (a.unsigned &&& b.unsigned : Nat)
  | or, a, b => (a.unsigned ||| b.unsigned : Nat)
  | eor, a, b => (a.unsigned ^^^ b.unsigned : Nat)
  | shl, a, b => a.toInt * 2 ^ a.distance b
  | shr, a, b => a.unsigned / 2 ^ a.distance b
  | shrs, a, b => a.signed / 2 ^ a.distance b

/-- The result is there, of the left operand's type, with the bits of the integer. -/
def Computes (op : BinaryOp) (a b : Literal) : Prop :=
  ∃ r, op.eval a b = some r ∧ r.mode = a.mode ∧ (r.unsigned : Int) = op.value a b % 2 ^ a.width

/-! ### Wrapping arithmetic -/

theorem bmod_modEq (z : Int) (w : Nat) : z.bmod (2 ^ w) ≡ z [ZMOD 2 ^ w] := by
  have hpow : ((2 ^ w : Nat) : Int) = 2 ^ w := by push_cast; rfl
  rw [← hpow]
  exact Int.bmod_emod

/-- Arithmetic that agrees with that of the integers up to the range of the type. -/
theorem computes_of_toInt {op : BinaryOp}
    {f : (t : IntType) → BitVec t.width → BitVec t.width → BitVec t.width}
    (heval : op.eval = onInts fun t x y => some (f t x y))
    (hf : ∀ t x y, (f t x y).toInt ≡ op.value (int t x) (int t y) [ZMOD 2 ^ t.width])
    {a b : Literal} (hint : a.mode.isInt = true) (hmode : b.mode = a.mode) : op.Computes a b := by
  obtain ⟨t, x, rfl⟩ := exists_int hint
  obtain ⟨y, rfl⟩ := exists_int_of_mode hmode
  refine ⟨int t (f t x y), ?_, rfl, ?_⟩
  · rw [heval, onInts_int]
    rfl
  · exact toNat_eq_emod ((toInt_modEq_toNat _).symm.trans (hf t x y))

theorem computes_add {a b : Literal} (hint : a.mode.isInt = true) (hmode : b.mode = a.mode) :
    add.Computes a b := by
  refine computes_of_toInt (f := fun _ x y => x + y) rfl (fun t x y => ?_) hint hmode
  rw [BitVec.toInt_add]
  exact (bmod_modEq _ _).trans ((t.toInt_modEq_read x).add (t.toInt_modEq_read y))

theorem computes_sub {a b : Literal} (hint : a.mode.isInt = true) (hmode : b.mode = a.mode) :
    sub.Computes a b := by
  refine computes_of_toInt (f := fun _ x y => x - y) rfl (fun t x y => ?_) hint hmode
  rw [BitVec.toInt_sub]
  exact (bmod_modEq _ _).trans ((t.toInt_modEq_read x).sub (t.toInt_modEq_read y))

theorem computes_mul {a b : Literal} (hint : a.mode.isInt = true) (hmode : b.mode = a.mode) :
    mul.Computes a b := by
  refine computes_of_toInt (f := fun _ x y => x * y) rfl (fun t x y => ?_) hint hmode
  rw [BitVec.toInt_mul]
  exact (bmod_modEq _ _).trans ((t.toInt_modEq_read x).mul (t.toInt_modEq_read y))

/-! ### Bit by bit -/

/-- Operations on the bits, which no pattern outgrows; a truth value is a single bit. -/
theorem computes_of_bits {op : BinaryOp} {p : Bool → Bool → Bool}
    {f : (w : Nat) → BitVec w → BitVec w → BitVec w} {n : Nat → Nat → Nat}
    (heval : op.eval = onBits p f) (hvalue : ∀ a b, op.value a b = (n a.unsigned b.unsigned : Nat))
    (hbool : ∀ a b, BitVec.ofBool (p a b) = f 1 (.ofBool a) (.ofBool b))
    (hint : ∀ (w : Nat) (x y : BitVec w), (f w x y).toNat = n x.toNat y.toNat)
    {a b : Literal} (hmode : b.mode = a.mode) : op.Computes a b := by
  cases a with
  | bool c =>
    cases b with
    | bool d =>
      refine ⟨bool (p c d), by rw [heval]; rfl, rfl, ?_⟩
      refine toNat_eq_emod (x := BitVec.ofBool (p c d)) ?_
      rw [hbool, hint, hvalue]
      rfl
    | int u y => cases hmode
  | int t x =>
    obtain ⟨y, rfl⟩ := exists_int_of_mode hmode
    refine ⟨int t (f t.width x y), ?_, rfl, ?_⟩
    · rw [heval]
      exact onInts_int (fun t x y => some (f t.width x y)) t x y
    · refine toNat_eq_emod (x := f t.width x y) ?_
      rw [hint, hvalue]
      rfl

theorem computes_and {a b : Literal} (hmode : b.mode = a.mode) : and.Computes a b :=
  computes_of_bits rfl (fun _ _ => rfl) (by decide) (fun _ x y => BitVec.toNat_and x y) hmode

theorem computes_or {a b : Literal} (hmode : b.mode = a.mode) : or.Computes a b :=
  computes_of_bits rfl (fun _ _ => rfl) (by decide) (fun _ x y => BitVec.toNat_or x y) hmode

theorem computes_eor {a b : Literal} (hmode : b.mode = a.mode) : eor.Computes a b :=
  computes_of_bits rfl (fun _ _ => rfl) (by decide) (fun _ x y => BitVec.toNat_xor x y) hmode

/-! ### Shifts -/

/-- Shifting by the distance is what the operation does, whatever the type of the amount. -/
theorem computes_of_shift {op : BinaryOp} {f : (w : Nat) → BitVec w → Nat → BitVec w}
    (heval : op.eval = shiftBy f)
    (hf : ∀ t x b, ((f t.width x (distance (int t x) b)).toNat : Int) ≡
      op.value (int t x) b [ZMOD 2 ^ t.width])
    {a b : Literal} (ha : a.mode.isInt = true) (hb : b.mode.isInt = true) : op.Computes a b := by
  obtain ⟨t, x, rfl⟩ := exists_int ha
  obtain ⟨u, k, rfl⟩ := exists_int hb
  refine ⟨int t (f t.width x (distance (int t x) (int u k))), ?_, rfl, toNat_eq_emod (hf t x _)⟩
  rw [heval, distance_int]
  rfl

theorem computes_shl {a b : Literal} (ha : a.mode.isInt = true) (hb : b.mode.isInt = true) :
    shl.Computes a b := by
  refine computes_of_shift (f := fun _ x k => x <<< k) rfl (fun t x b => ?_) ha hb
  rw [BitVec.toNat_shiftLeft, Nat.shiftLeft_eq]
  push_cast
  exact (Int.mod_modEq _ _).trans ((t.read_modEq x).symm.mul_right _)

theorem computes_shr {a b : Literal} (ha : a.mode.isInt = true) (hb : b.mode.isInt = true) :
    shr.Computes a b := by
  refine computes_of_shift (f := fun _ x k => x >>> k) rfl (fun t x b => ?_) ha hb
  rw [BitVec.toNat_ushiftRight, Nat.shiftRight_eq_div_pow]
  push_cast
  rfl

theorem computes_shrs {a b : Literal} (ha : a.mode.isInt = true) (hb : b.mode.isInt = true) :
    shrs.Computes a b := by
  refine computes_of_shift (f := fun _ x k => x.sshiftRight k) rfl (fun t x b => ?_) ha hb
  refine (toInt_modEq_toNat _).symm.trans ?_
  rw [BitVec.toInt_sshiftRight, Int.shiftRight_eq_div_pow]
  push_cast
  rfl

/-! ### All operations -/

theorem computes_of_defined {op : BinaryOp} {a b : Literal} (h : op.Defined a b) :
    op.Computes a b :=
  match op, h with
  | add, h => computes_add h.1 h.2
  | sub, h => computes_sub h.1 h.2
  | mul, h => computes_mul h.1 h.2
  | and, h => computes_and h
  | or, h => computes_or h
  | eor, h => computes_eor h
  | shl, h => computes_shl h.1 h.2
  | shr, h => computes_shr h.1 h.2
  | shrs, h => computes_shrs h.1 h.2

/-- Operands an operation is not for have no result. -/
theorem defined_of_eval {op : BinaryOp} {a b r : Literal} (h : op.eval a b = some r) :
    op.Defined a b := by
  cases op with
  | add | sub | mul =>
    simp only [eval, add?, sub?, mul?] at h
    exact modes_of_onInts h
  | and | or | eor =>
    simp only [eval, and?, or?, xor?] at h
    exact modes_of_onBits h
  | shl | shr | shrs =>
    simp only [eval, shl?, shr?, shrs?] at h
    exact modes_of_shiftBy h

/-- An operation has a result on the operands it is for and on no others. The result has the type of
the left operand and is the only literal of that type whose bits are those of the integer that the
operation stands for. The amount of a shift counts modulo the width also if it is extended to 64
bits and cut to 32 first. -/
theorem eval_exact (op : BinaryOp) (a b : Literal) :
    ((op.eval a b).isSome = true ↔ op.Defined a b) ∧
      (∀ r, op.eval a b = some r ↔
        op.Defined a b ∧ r.mode = a.mode ∧ (r.unsigned : Int) = op.value a b % 2 ^ a.width) ∧
      a.distance b = (b.extend.setWidth 32).toNat % a.width := by
  refine ⟨⟨fun h => ?_, fun h => ?_⟩, fun r => ⟨fun h => ?_, fun ⟨h, hmode, hbits⟩ => ?_⟩,
    distance_eq_extend a b⟩
  · obtain ⟨r, hr⟩ := Option.isSome_iff_exists.mp h
    exact defined_of_eval hr
  · obtain ⟨r, hr, -⟩ := computes_of_defined h
    exact Option.isSome_iff_exists.mpr ⟨r, hr⟩
  · have hdefined := defined_of_eval h
    obtain ⟨s, hs, hmode, hbits⟩ := computes_of_defined hdefined
    cases hs.symm.trans h
    exact ⟨hdefined, hmode, hbits⟩
  · obtain ⟨s, hs, hmode', hbits'⟩ := computes_of_defined h
    have heq : r = s := eq_of_unsigned (hmode.trans hmode'.symm) (by omega)
    rw [heq, hs]

/-- A byte shifted right by minus one, an amount of another type. -/
example :
    shrs.Defined (.int .u8 0xC8) (.int .i64 (-1)) ∧
      shrs.value (.int .u8 0xC8) (.int .i64 (-1)) = -1 ∧
      shrs.eval (.int .u8 0xC8) (.int .i64 (-1)) = some (.int .u8 0xFF) := by decide

end BinaryOp

end SeaOfNodes
