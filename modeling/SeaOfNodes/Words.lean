/-!
Rows of bits, packed 64 to a word.

Bit `i` of a row is bit `i % 64` of word `i / 64`. Bits are set and cleared one at a time through a
mask. The set bits of a word are listed from the lowest up by clearing the lowest one again and
again; `w &&& (w - 1)` is `w` without it.
-/

namespace SeaOfNodes

namespace Words

/-- Bit `i` of a row; beyond its words nothing is set. -/
def bit (ws : List (BitVec 64)) (i : Nat) : Bool := (ws.getD (i / 64) 0#64).getLsbD (i % 64)

/-- The word in which only bit `i` of a row is set. -/
def mask (i : Nat) : BitVec 64 := BitVec.twoPow 64 (i % 64)

def setBit (ws : List (BitVec 64)) (i : Nat) : List (BitVec 64) :=
  ws.modify (i / 64) (· ||| mask i)

def clearBit (ws : List (BitVec 64)) (i : Nat) : List (BitVec 64) :=
  ws.modify (i / 64) (· &&& ~~~mask i)

/-- A word without its lowest set bit. -/
def dropLowest (w : BitVec 64) : BitVec 64 := w &&& (w - 1#64)

/-- The place of the lowest set bit, the one that `dropLowest` clears. -/
def lowest (w : BitVec 64) : Nat := (w ^^^ dropLowest w).toNat.log2

/-- The places of the set bits of a word, ascending; at most `k` of them. -/
def places : (k : Nat) → BitVec 64 → List Nat
  | 0, _ => []
  | k + 1, w => if w = 0#64 then [] else lowest w :: places k (dropLowest w)

/-- The set bits of a row, ascending, each raised by `base`. -/
def listing : (base : Nat) → List (BitVec 64) → List Nat
  | _, [] => []
  | base, w :: ws => (places 64 w).map (base + ·) ++ listing (base + 64) ws

/-! ### Single bits -/

@[simp] theorem bit_nil (i : Nat) : bit [] i = false := by
  simp [bit]

theorem bit_cons (w : BitVec 64) (ws : List (BitVec 64)) (i : Nat) :
    bit (w :: ws) i = if i < 64 then w.getLsbD i else bit ws (i - 64) := by
  unfold bit
  split
  next h => rw [Nat.div_eq_of_lt h, Nat.mod_eq_of_lt h, List.getD_cons_zero]
  next h =>
    obtain ⟨j, rfl⟩ := Nat.exists_eq_add_of_le (Nat.le_of_not_lt h)
    have hdiv : (64 + j) / 64 = j / 64 + 1 := by omega
    rw [hdiv, List.getD_cons_succ, Nat.add_mod_left, Nat.add_sub_cancel_left]

theorem bit_replicate_zero (n i : Nat) : bit (List.replicate n 0#64) i = false := by
  induction n generalizing i with
  | zero => exact bit_nil i
  | succ n ih =>
    rw [List.replicate_succ, bit_cons, ih]
    simp

/-- The bits of a row are those of its words. -/
theorem bit_of_word {ws : List (BitVec 64)} {k : Nat} {w : BitVec 64} (hw : ws[k]? = some w)
    {j : Nat} (hj : j < 64) : bit ws (64 * k + j) = w.getLsbD j := by
  have hdiv : (64 * k + j) / 64 = k := by omega
  have hmod : (64 * k + j) % 64 = j := by omega
  rw [bit, hdiv, hmod, List.getD_eq_getElem?_getD, hw, Option.getD_some]

/-- A row is settled by its length and its bits. -/
theorem eq_of_bit {as bs : List (BitVec 64)} (hlen : as.length = bs.length)
    (h : ∀ i, bit as i = bit bs i) : as = bs := by
  refine List.ext_getElem hlen fun k ha hb => BitVec.eq_of_getLsbD_eq fun j hj => ?_
  rw [← bit_of_word (List.getElem?_eq_getElem ha) hj, h,
    bit_of_word (List.getElem?_eq_getElem hb) hj]

theorem getLsbD_mask (i j : Nat) : (mask i).getLsbD j = decide (j = i % 64) := by
  have hlt : i % 64 < 64 := Nat.mod_lt _ (by decide)
  simp [mask, BitVec.getLsbD_twoPow, hlt, eq_comm]

/-- Two numbers have the same word and the same place in it only if they are equal. -/
theorem eq_iff_place (i j : Nat) : j = i ↔ i / 64 = j / 64 ∧ j % 64 = i % 64 := by
  omega

theorem length_setBit (ws : List (BitVec 64)) (i : Nat) : (setBit ws i).length = ws.length :=
  List.length_modify ..

theorem bit_setBit {ws : List (BitVec 64)} {i : Nat} (h : i / 64 < ws.length) (j : Nat) :
    bit (setBit ws i) j = (decide (j = i) || bit ws j) := by
  have hlt : j % 64 < 64 := Nat.mod_lt _ (by decide)
  simp only [bit, setBit, List.getD_eq_getElem?_getD, List.getElem?_modify]
  by_cases hword : i / 64 = j / 64
  · rw [hword] at h
    simp [eq_iff_place i j, hword, h, getLsbD_mask, Bool.or_comm]
  · simp [eq_iff_place i j, hword]

theorem length_clearBit (ws : List (BitVec 64)) (i : Nat) : (clearBit ws i).length = ws.length :=
  List.length_modify ..

theorem bit_clearBit (ws : List (BitVec 64)) (i j : Nat) :
    bit (clearBit ws i) j = (decide (j ≠ i) && bit ws j) := by
  have hlt : j % 64 < 64 := Nat.mod_lt _ (by decide)
  simp only [bit, clearBit, List.getD_eq_getElem?_getD, List.getElem?_modify]
  by_cases hword : i / 64 = j / 64
  · cases hw : ws[j / 64]? with
    | none => simp
    | some w =>
      have hplace : j % 64 = i % 64 ↔ j = i := by omega
      simp [hword, BitVec.getLsbD_not, getLsbD_mask, hlt, hplace, -BitVec.getLsbD_eq_getElem,
        Bool.and_comm]
  · simp [eq_iff_place i j, hword]

theorem bit_zipWith_or {as bs : List (BitVec 64)} (hlen : as.length = bs.length) (i : Nat) :
    bit (List.zipWith (· ||| ·) as bs) i = (bit as i || bit bs i) := by
  simp only [bit, List.getD_eq_getElem?_getD, List.getElem?_zipWith]
  by_cases hk : i / 64 < as.length
  · simp [hk, hlen ▸ hk]
  · have hb : ¬i / 64 < bs.length := hlen ▸ hk
    simp [hk, hb]

/-! ### The lowest set bit -/

/-- Subtracting one clears the lowest set bit and sets those below it, so that nothing but the
lowest set bit is lost. -/
theorem testBit_and_pred {n t : Nat} (hset : n.testBit t = true)
    (hlow : ∀ j, j < t → n.testBit j = false) (i : Nat) :
    (n &&& (n - 1)).testBit i = (decide (i ≠ t) && n.testBit i) := by
  induction t generalizing n i with
  | zero =>
    have hodd : n % 2 = 1 := by simpa using hset
    rw [Nat.testBit_and]
    cases i with
    | zero =>
      have heven : (n - 1) % 2 = 0 := by omega
      simp [heven]
    | succ i =>
      have hhalf : (n - 1) / 2 = n / 2 := by omega
      simp [Nat.testBit_succ, hhalf]
  | succ t ih =>
    have heven : n % 2 = 0 := by simpa using hlow 0 (Nat.zero_lt_succ t)
    rw [Nat.testBit_succ] at hset
    have hlow' : ∀ j, j < t → (n / 2).testBit j = false := fun j hj => by
      rw [← Nat.testBit_succ]
      exact hlow (j + 1) (by omega)
    rw [Nat.testBit_and]
    cases i with
    | zero => simp [heven]
    | succ i =>
      have hhalf : (n - 1) / 2 = n / 2 - 1 := by omega
      rw [Nat.testBit_succ, Nat.testBit_succ, hhalf, ← Nat.testBit_and, ih hset hlow']
      simp

theorem exists_lowest {w : BitVec 64} (h : w ≠ 0#64) :
    ∃ t, t < 64 ∧ w.getLsbD t = true ∧ ∀ j, j < t → w.getLsbD j = false := by
  have hset := BitVec.getLsbD_true_ctz_of_ne_zero h
  exact ⟨w.ctz.toNat, BitVec.lt_of_getLsbD hset, hset,
    fun j hj => BitVec.getLsbD_false_of_lt_ctz hj⟩

theorem getLsbD_dropLowest {w : BitVec 64} {t : Nat} (hset : w.getLsbD t = true)
    (hlow : ∀ j, j < t → w.getLsbD j = false) (i : Nat) :
    (dropLowest w).getLsbD i = (decide (i ≠ t) && w.getLsbD i) := by
  have hpos : 0 < w.toNat := Nat.pos_of_ne_zero fun hzero => by
    rw [BitVec.getLsbD, hzero, Nat.zero_testBit] at hset
    cases hset
  have hpred : (w - 1#64).toNat = w.toNat - 1 := by
    have := w.isLt
    rw [BitVec.toNat_sub, BitVec.toNat_ofNat]
    omega
  rw [BitVec.getLsbD, dropLowest, BitVec.toNat_and, hpred]
  exact testBit_and_pred hset hlow i

theorem lowest_eq {w : BitVec 64} {t : Nat} (hset : w.getLsbD t = true)
    (hlow : ∀ j, j < t → w.getLsbD j = false) : lowest w = t := by
  have ht : t < 64 := BitVec.lt_of_getLsbD hset
  have hcleared : w ^^^ dropLowest w = BitVec.twoPow 64 t := by
    refine BitVec.eq_of_getLsbD_eq fun i _ => ?_
    rw [BitVec.getLsbD_xor, getLsbD_dropLowest hset hlow, BitVec.getLsbD_twoPow]
    by_cases hi : i = t
    · subst hi
      simp [hset, ht]
    · simp [hi, Ne.symm hi]
  rw [lowest, hcleared, BitVec.toNat_twoPow,
    Nat.mod_eq_of_lt (Nat.pow_lt_pow_right (by decide) ht), Nat.log2_two_pow]

/-! ### Listing the set bits -/

/-- The set bits are among the highest `k`. -/
def AmongHighest (k : Nat) (w : BitVec 64) : Prop := ∀ j, j + k < 64 → w.getLsbD j = false

theorem amongHighest_word (w : BitVec 64) : AmongHighest 64 w := fun _ hj => absurd hj (by omega)

/-- Without the lowest set bit one place less is enough. -/
theorem AmongHighest.dropLowest {k : Nat} {w : BitVec 64} (h : AmongHighest (k + 1) w) {t : Nat}
    (hset : w.getLsbD t = true) (hlow : ∀ j, j < t → w.getLsbD j = false) :
    AmongHighest k (Words.dropLowest w) := by
  intro j hj
  have hplace : 64 ≤ t + (k + 1) := Nat.le_of_not_lt fun hlt => by
    rw [h t hlt] at hset
    cases hset
  rw [getLsbD_dropLowest hset hlow]
  by_cases hjt : j = t
  · simp [hjt]
  · simp [hlow j (by omega)]

theorem mem_places {k : Nat} {w : BitVec 64} (h : AmongHighest k w) (i : Nat) :
    i ∈ places k w ↔ w.getLsbD i = true := by
  induction k generalizing w with
  | zero =>
    constructor
    · intro hi
      cases hi
    · intro hi
      rw [h i (BitVec.lt_of_getLsbD hi)] at hi
      cases hi
  | succ k ih =>
    rw [places]
    split
    next hzero => simp [hzero]
    next hne =>
      obtain ⟨t, -, hset, hlow⟩ := exists_lowest hne
      rw [lowest_eq hset hlow, List.mem_cons, ih (h.dropLowest hset hlow),
        getLsbD_dropLowest hset hlow]
      by_cases hi : i = t
      · simp [hi, hset]
      · simp [hi]

theorem mem_places_word (w : BitVec 64) (i : Nat) : i ∈ places 64 w ↔ w.getLsbD i = true :=
  mem_places (amongHighest_word w) i

theorem pairwise_places {k : Nat} {w : BitVec 64} (h : AmongHighest k w) :
    (places k w).Pairwise (· < ·) := by
  induction k generalizing w with
  | zero => exact .nil
  | succ k ih =>
    rw [places]
    split
    next => exact .nil
    next hne =>
      obtain ⟨t, -, hset, hlow⟩ := exists_lowest hne
      have hrest := h.dropLowest hset hlow
      refine List.pairwise_cons.mpr ⟨fun i hi => ?_, ih hrest⟩
      rw [mem_places hrest, getLsbD_dropLowest hset hlow] at hi
      simp only [Bool.and_eq_true, decide_eq_true_eq] at hi
      rw [lowest_eq hset hlow]
      refine Nat.lt_of_le_of_ne (Nat.le_of_not_lt fun hlt => ?_) (Ne.symm hi.1)
      rw [hlow i hlt] at hi
      cases hi.2

theorem mem_listing {base : Nat} {ws : List (BitVec 64)} {i : Nat} :
    i ∈ listing base ws ↔ base ≤ i ∧ bit ws (i - base) = true := by
  induction ws generalizing base with
  | nil => simp [listing]
  | cons w ws ih =>
    rw [listing, List.mem_append, List.mem_map, ih, bit_cons]
    constructor
    · rintro (⟨j, hj, rfl⟩ | ⟨hle, hbit⟩)
      · rw [mem_places_word] at hj
        rw [Nat.add_sub_cancel_left, if_pos (BitVec.lt_of_getLsbD hj)]
        exact ⟨Nat.le_add_right .., hj⟩
      · rw [if_neg (by omega), show i - base - 64 = i - (base + 64) by omega]
        exact ⟨by omega, hbit⟩
    · rintro ⟨hle, hbit⟩
      by_cases hlow : i - base < 64
      · rw [if_pos hlow] at hbit
        exact .inl ⟨i - base, (mem_places_word ..).mpr hbit, by omega⟩
      · rw [if_neg hlow, show i - base - 64 = i - (base + 64) by omega] at hbit
        exact .inr ⟨by omega, hbit⟩

theorem pairwise_listing (base : Nat) (ws : List (BitVec 64)) :
    (listing base ws).Pairwise (· < ·) := by
  induction ws generalizing base with
  | nil => exact .nil
  | cons w ws ih =>
    rw [listing]
    refine List.pairwise_append.mpr ⟨?_, ih _, fun i hi j hj => ?_⟩
    · exact (pairwise_places (amongHighest_word w)).map _ fun _ _ h => by omega
    · obtain ⟨p, hp, rfl⟩ := List.mem_map.mp hi
      have := BitVec.lt_of_getLsbD ((mem_places_word ..).mp hp)
      have := (mem_listing.mp hj).1
      omega

end Words

end SeaOfNodes
