import Mathlib.Algebra.Order.Group.Unbundled.Int
import SeaOfNodes.Proofs.Arithmetic

/-!
Division, remainder and conversion over the integers.

Quotients are rounded toward zero and remainders have the sign of the dividend, in every type and
for every pair of operands that has a quotient (`Literal.HasQuotient`). A conversion gives the one
value of the new type that is congruent to the old one (`Literal.convert?_int`), so conversions
through wider types leave no trace. `Literal.division_and_conversion` puts the laws together.
-/

namespace SeaOfNodes

namespace IntType

/-- A type reads different patterns as integers that are not congruent. -/
theorem eq_of_read_modEq {t : IntType} {x y : BitVec t.width}
    (h : t.read x ≡ t.read y [ZMOD 2 ^ t.width]) : x = y := by
  have hbits : (x.toNat : Int) ≡ y.toNat [ZMOD 2 ^ t.width] :=
    (t.read_modEq x).symm.trans (h.trans (t.read_modEq y))
  have hx := toNat_eq_emod hbits
  have hy := toNat_eq_emod (Int.ModEq.refl (y.toNat : Int) (n := 2 ^ t.width))
  exact BitVec.eq_of_toNat_eq (by omega)

variable (t : IntType) (x y : BitVec t.width)

theorem read_zero : t.read (BitVec.zero t.width) = 0 := by
  cases t <;> rfl

theorem read_eq_zero_iff : t.read x = 0 ↔ x = BitVec.zero t.width := by
  refine ⟨fun h => eq_of_read_modEq ?_, fun h => h ▸ t.read_zero⟩
  rw [h, t.read_zero]

/-! ### Quotients -/

/-- The least value of a signed type. -/
theorem read_eq_least_iff (hsigned : t.signed = true) :
    t.read x = -2 ^ (t.width - 1) ↔ x = BitVec.intMin t.width := by
  rw [← BitVec.toInt_intMin_of_pos t.width_pos, ← BitVec.toInt_inj]
  simp [read, hsigned]

theorem read_eq_neg_one_iff (hsigned : t.signed = true) :
    t.read x = -1 ↔ x = BitVec.allOnes t.width := by
  have hones : (BitVec.allOnes t.width).toInt = -1 := by
    rw [BitVec.toInt_allOnes, if_pos t.width_pos]
  rw [← hones, ← BitVec.toInt_inj]
  simp [read, hsigned]

/-- The check on the patterns, said of the integers. -/
theorem divisible_iff :
    Literal.divisible t x y = true ↔
      t.read y ≠ 0 ∧ ¬(t.signed = true ∧ t.read x = -2 ^ (t.width - 1) ∧ t.read y = -1) := by
  rw [Literal.divisible, Ne, read_eq_zero_iff]
  by_cases hsigned : t.signed = true
  · rw [t.read_eq_least_iff x hsigned, t.read_eq_neg_one_iff y hsigned]
    simp [hsigned, ← not_and_or]
  · simp [hsigned]

/-- The pattern of a quotient. -/
def quotient : BitVec t.width := if t.signed then x.sdiv y else x.udiv y

/-- The pattern of a remainder. -/
def remainder : BitVec t.width := if t.signed then x.srem y else x.umod y

theorem read_quotient (h : Literal.divisible t x y = true) :
    t.read (t.quotient x y) = (t.read x).tdiv (t.read y) := by
  by_cases hsigned : t.signed = true
  · have hfits : x ≠ BitVec.intMin t.width ∨ y ≠ -1#t.width := by
      rw [BitVec.neg_one_eq_allOnes, ← not_and_or, ← t.read_eq_least_iff x hsigned,
        ← t.read_eq_neg_one_iff y hsigned]
      exact fun hover => ((t.divisible_iff x y).mp h).2 ⟨hsigned, hover⟩
    simpa [read, quotient, hsigned] using BitVec.toInt_sdiv_of_ne_or_ne x y hfits
  · simp only [read, quotient, hsigned]
    exact (congrArg Nat.cast BitVec.toNat_udiv).trans (Int.ofNat_tdiv ..)

theorem read_remainder : t.read (t.remainder x y) = (t.read x).tmod (t.read y) := by
  by_cases hsigned : t.signed = true
  · simp [read, remainder, hsigned, BitVec.toInt_srem]
  · simp only [read, remainder, hsigned]
    exact (congrArg Nat.cast BitVec.toNat_umod).trans (Int.ofNat_tmod ..)

end IntType

namespace Literal

/-- Operands with a quotient: integers of one type, a divisor that is not zero, and not the least
value of a signed type by minus one. -/
def HasQuotient (a b : Literal) : Prop :=
  ∃ t, a.mode = .int t ∧ b.mode = .int t ∧ b.toInt ≠ 0 ∧
    ¬(t.signed = true ∧ a.toInt = -2 ^ (t.width - 1) ∧ b.toInt = -1)

/-- `q` and `r` share out `a` in parts of `b`: nothing is lost, the rest is smaller than a part, and
it is zero or on the side of zero on which `a` is. -/
structure Shares (a b q r : Literal) : Prop where
  quotient_mode : q.mode = a.mode
  remainder_mode : r.mode = a.mode
  sum : a.toInt = q.toInt * b.toInt + r.toInt
  small : |r.toInt| < |b.toInt|
  side : r.toInt = 0 ∨ r.toInt.sign = a.toInt.sign

/-- Quotients and remainders of two integers of one type are there together. -/
theorem div?_rem?_int (t : IntType) (x y : BitVec t.width) :
    (int t x).div? (int t y) =
        (if divisible t x y then some (int t (t.quotient x y)) else none) ∧
      (int t x).rem? (int t y) =
        (if divisible t x y then some (int t (t.remainder x y)) else none) := by
  rw [div?, rem?, onInts_int, onInts_int]
  by_cases h : divisible t x y = true
  · simp [h, IntType.quotient, IntType.remainder]
  · simp [h]

theorem hasQuotient_int (t : IntType) (x y : BitVec t.width) :
    (int t x).HasQuotient (int t y) ↔ divisible t x y = true := by
  rw [t.divisible_iff]
  constructor
  · rintro ⟨u, hu, -, h⟩
    cases hu
    exact h
  · exact fun h => ⟨t, rfl, rfl, h⟩

/-- Truncated division of the integers shares out. -/
theorem tdiv_tmod_shares {z d : Int} (hd : d ≠ 0) :
    z = z.tdiv d * d + z.tmod d ∧ |z.tmod d| < |d| ∧
      (z.tmod d = 0 ∨ (z.tmod d).sign = z.sign) := by
  refine ⟨(Int.tdiv_mul_add_tmod z d).symm, ?_, ?_⟩
  · rw [Int.abs_eq_natAbs, Int.abs_eq_natAbs, Int.natAbs_tmod]
    exact_mod_cast Nat.mod_lt _ (Int.natAbs_pos.mpr hd)
  · by_cases hdvd : d ∣ z
    · exact .inl (Int.tmod_eq_zero_of_dvd hdvd)
    · exact .inr (by rw [Int.sign_tmod, if_neg hdvd])

theorem modes_of_hasQuotient {a b : Literal} (h : a.HasQuotient b) :
    ∃ t x y, a = int t x ∧ b = int t y := by
  obtain ⟨t, ha, hb, -⟩ := h
  obtain ⟨x, rfl⟩ := exists_int_of_mode ha
  obtain ⟨y, rfl⟩ := exists_int_of_mode hb
  exact ⟨t, x, y, rfl, rfl⟩

theorem exists_shares {a b : Literal} (h : a.HasQuotient b) :
    ∃ q r, a.div? b = some q ∧ a.rem? b = some r ∧ a.Shares b q r := by
  obtain ⟨t, x, y, rfl, rfl⟩ := modes_of_hasQuotient h
  have hdiv := (hasQuotient_int t x y).mp h
  obtain ⟨hq, hr⟩ := div?_rem?_int t x y
  rw [if_pos hdiv] at hq hr
  obtain ⟨hsum, hsmall, hside⟩ := tdiv_tmod_shares (z := t.read x) ((t.divisible_iff x y).mp hdiv).1
  rw [← t.read_quotient x y hdiv, ← t.read_remainder x y] at hsum
  rw [← t.read_remainder x y] at hsmall hside
  exact ⟨_, _, hq, hr, ⟨rfl, rfl, hsum, hsmall, hside⟩⟩

/-- Other operands have neither. -/
theorem div?_rem?_eq_none {a b : Literal} (h : ¬a.HasQuotient b) :
    a.div? b = none ∧ a.rem? b = none := by
  by_cases hmodes : a.mode.isInt = true ∧ b.mode = a.mode
  · obtain ⟨t, x, rfl⟩ := exists_int hmodes.1
    obtain ⟨y, rfl⟩ := exists_int_of_mode hmodes.2
    obtain ⟨hq, hr⟩ := div?_rem?_int t x y
    rw [hasQuotient_int] at h
    rw [hq, hr, if_neg h, if_neg h]
    exact ⟨rfl, rfl⟩
  · exact ⟨Option.eq_none_iff_forall_ne_some.mpr fun _ hr => hmodes (modes_of_onInts hr),
      Option.eq_none_iff_forall_ne_some.mpr fun _ hr => hmodes (modes_of_onInts hr)⟩

/-! ### Conversion -/

/-- A conversion gives the value of the new type that is congruent to the old one. -/
theorem convert?_int (a : Literal) (t : IntType) :
    ∃ r, a.convert? (.int t) = some r ∧ r.mode = .int t ∧
      r.toInt ≡ a.toInt [ZMOD 2 ^ t.width] := by
  refine ⟨_, rfl, rfl, ?_⟩
  have hdvd : (2 ^ t.width : Int) ∣ 2 ^ 64 := pow_dvd_pow 2 (by cases t <;> decide)
  have hcut : ((a.extend.setWidth t.width).toNat : Int) ≡ a.extend.toNat [ZMOD 2 ^ t.width] := by
    rw [BitVec.toNat_setWidth]
    push_cast
    exact Int.mod_modEq _ _
  exact (t.read_modEq _).trans (hcut.trans (a.extend_modEq.of_dvd hdvd))

/-- Literals of one type are equal if they are congruent. -/
theorem eq_of_toInt_modEq {r s : Literal} {t : IntType} (hr : r.mode = .int t)
    (hs : s.mode = .int t) (h : r.toInt ≡ s.toInt [ZMOD 2 ^ t.width]) : r = s := by
  obtain ⟨x, rfl⟩ := exists_int_of_mode hr
  obtain ⟨y, rfl⟩ := exists_int_of_mode hs
  exact congrArg (int t) (IntType.eq_of_read_modEq h)

theorem convert?_eq_of_modEq {a r : Literal} {t : IntType} (hr : r.mode = .int t)
    (h : r.toInt ≡ a.toInt [ZMOD 2 ^ t.width]) : a.convert? (.int t) = some r := by
  obtain ⟨s, hs, hmode, hmod⟩ := a.convert?_int t
  rw [hs, eq_of_toInt_modEq hmode hr (hmod.trans h.symm)]

theorem isZero_eq (a : Literal) : a.isZero = decide (a.toInt = 0) := by
  cases a with
  | bool b => cases b <;> rfl
  | int t x =>
    rw [isZero, toInt, Bool.eq_iff_iff, beq_iff_eq, decide_eq_true_eq, t.read_eq_zero_iff]

theorem convert?_bool (a : Literal) : a.convert? .bool = some (.bool (decide (a.toInt ≠ 0))) := by
  simp [convert?, isZero_eq]

/-- A type at least as wide may stand between. -/
theorem convert?_through (a : Literal) {t u : IntType} (h : u.width ≤ t.width) :
    (a.convert? (.int t)).bind (·.convert? (.int u)) = a.convert? (.int u) := by
  obtain ⟨r, hr, -, hmod⟩ := a.convert?_int t
  obtain ⟨s, hs, hmode, hmod'⟩ := r.convert?_int u
  have hdvd : (2 ^ u.width : Int) ∣ 2 ^ t.width := pow_dvd_pow 2 h
  rw [hr, Option.bind_some, hs, convert?_eq_of_modEq hmode (hmod'.trans (hmod.of_dvd hdvd))]

/-- A truth value can be read back from any integer type. -/
theorem convert?_bool_back (b : Bool) (t : IntType) :
    ((bool b).convert? (.int t)).bind (·.convert? .bool) = some (.bool b) := by
  cases b <;> cases t <;> rfl

/-- Two literals have a quotient if and only if they have a remainder, namely if they are integers
of one type, the divisor is not zero, and the quotient is not that of the least value of a signed
type by minus one; quotient and remainder then share out the dividend over the integers. Converting
to an integer type gives the one value of the type that is congruent to the literal, converting to
a truth value asks whether the literal is zero. So a conversion may go through any type at least as
wide as its target, and converting to such a type and back changes nothing. -/
theorem division_and_conversion (a : Literal) :
    (∀ b, ((a.div? b).isSome = true ↔ a.HasQuotient b) ∧
      ((a.rem? b).isSome = true ↔ a.HasQuotient b) ∧
      ∀ q r, a.div? b = some q → a.rem? b = some r → a.Shares b q r) ∧
    (∀ t, ∃ r, a.convert? (.int t) = some r ∧ r.mode = .int t ∧
      r.toInt ≡ a.toInt [ZMOD 2 ^ t.width] ∧
      ∀ s : Literal, s.mode = .int t → s.toInt ≡ a.toInt [ZMOD 2 ^ t.width] → s = r) ∧
    a.convert? .bool = some (.bool (decide (a.toInt ≠ 0))) ∧
    (∀ t u : IntType, u.width ≤ t.width →
      (a.convert? (.int t)).bind (·.convert? (.int u)) = a.convert? (.int u)) ∧
    (∀ t u : IntType, a.mode = .int t → t.width ≤ u.width →
      (a.convert? (.int u)).bind (·.convert? (.int t)) = some a) ∧
    (a.mode = .bool → ∀ t, (a.convert? (.int t)).bind (·.convert? .bool) = some a) := by
  refine ⟨fun b => ?_, fun t => ?_, a.convert?_bool, fun t u => a.convert?_through,
    fun t u hmode hle => ?_, fun hmode t => ?_⟩
  · by_cases h : a.HasQuotient b
    · obtain ⟨q, r, hq, hr, hshares⟩ := exists_shares h
      simp [hq, hr, h, hshares]
    · obtain ⟨hq, hr⟩ := div?_rem?_eq_none h
      simp [hq, hr, h]
  · obtain ⟨r, hr, hmode, hmod⟩ := a.convert?_int t
    exact ⟨r, hr, hmode, hmod, fun s hs h => eq_of_toInt_modEq hs hmode (h.trans hmod.symm)⟩
  · rw [a.convert?_through hle]
    exact convert?_eq_of_modEq hmode rfl
  · cases a with
    | bool b => exact convert?_bool_back b t
    | int u x => cases hmode

/-- The least value of a byte has no quotient by minus one; the largest of 64 bits is minus one in
the signed type and comes back from it. -/
example :
    (int .i8 0x80).div? (int .i8 0xFF) = none ∧ (int .i8 0x80).rem? (int .i8 0xFF) = none ∧
      (int .u64 (-1)).convert? (.int .i64) = some (int .i64 (-1)) ∧
      (int .i64 (-1)).convert? (.int .u64) = some (int .u64 (-1)) := by decide

end Literal

end SeaOfNodes
