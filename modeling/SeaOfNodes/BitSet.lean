import SeaOfNodes.Counting
import SeaOfNodes.Error
import SeaOfNodes.Words

/-!
Sets of small numbers, one bit for each number.

The capacity is fixed when a set is made. Asking about a number beyond it answers `false`;
inserting one is a fault. Insertion, removal and union also tell whether the set changed. The last
word may have bits beyond the capacity; they are never set, so equal sets have equal words.
-/

namespace SeaOfNodes

/-- A set of numbers below `capacity`; `i` is a member if bit `i` is set. -/
structure BitSet where
  capacity : Nat
  words : List (BitVec 64)
  length_words : words.length = (capacity + 63) / 64
  unused : ∀ i, capacity ≤ i → Words.bit words i = false
deriving DecidableEq

namespace BitSet

def empty (capacity : Nat) : BitSet where
  capacity
  words := List.replicate ((capacity + 63) / 64) 0#64
  length_words := List.length_replicate
  unused _ _ := Words.bit_replicate_zero ..

def isEmpty (s : BitSet) : Bool := s.words.all (· == 0#64)

/-- Membership; nothing at or beyond the capacity is a member. -/
def contains (s : BitSet) (i : Nat) : Bool := decide (i < s.capacity) && Words.bit s.words i

/-- A number below the capacity has a word. -/
theorem div_lt_length {s : BitSet} {i : Nat} (h : i < s.capacity) : i / 64 < s.words.length := by
  rw [s.length_words]
  omega

/-- Adds `i` and tells whether it is new. -/
def insert (s : BitSet) (i : Nat) : Except Error (BitSet × Bool) :=
  if h : i < s.capacity then
    .ok ({ s with
      words := Words.setBit s.words i
      length_words := (Words.length_setBit ..).trans s.length_words
      unused := fun j hj => by
        have hne : j ≠ i := by omega
        simp [Words.bit_setBit (div_lt_length h), s.unused j hj, hne] },
      !s.contains i)
  else .error (.beyondCapacity i s.capacity)

/-- Removes `i` and tells whether it was a member. -/
def erase (s : BitSet) (i : Nat) : BitSet × Bool :=
  if i < s.capacity then
    ({ s with
      words := Words.clearBit s.words i
      length_words := (Words.length_clearBit ..).trans s.length_words
      unused := fun j hj => by simp [Words.bit_clearBit, s.unused j hj] },
      s.contains i)
  else (s, false)

def clear (s : BitSet) : BitSet :=
  { s with
    words := List.replicate s.words.length 0#64
    length_words := List.length_replicate.trans s.length_words
    unused := fun _ _ => Words.bit_replicate_zero .. }

/-- Adds every member of `t` and tells whether the set changed. -/
def union (s t : BitSet) : Except Error (BitSet × Bool) :=
  if h : t.capacity = s.capacity then
    have hlen : s.words.length = t.words.length := by rw [s.length_words, t.length_words, h]
    .ok ({ s with
      words := List.zipWith (· ||| ·) s.words t.words
      length_words := by rw [List.length_zipWith, ← hlen, Nat.min_self, s.length_words]
      unused := fun j hj => by
        rw [Words.bit_zipWith_or hlen, s.unused j hj, t.unused j (h ▸ hj), Bool.or_false] },
      (s.words.zip t.words).any fun (a, b) => a != a ||| b)
  else .error .unequalCapacity

/-- The members in ascending order. -/
def toList (s : BitSet) : List Nat := Words.listing 0 s.words

/-- Number of members. -/
def count (s : BitSet) : Nat := (s.words.map fun w => w.cpop.toNat).sum

/-- Number of places left. -/
def free (s : BitSet) : Nat := (List.range s.capacity).countP fun i => !s.contains i

def ofList (capacity : Nat) (members : List Nat) : Except Error BitSet :=
  members.foldlM (fun s i => (s.insert i).map Prod.fst) (empty capacity)

/-- The set as printed, `{2, 5}`. -/
def text (s : BitSet) : String := "\x7b" ++ ", ".intercalate (s.toList.map toString) ++ "\x7d"

/-! ### Membership after each operation -/

theorem contains_lt {s : BitSet} {i : Nat} (h : s.contains i = true) : i < s.capacity := by
  simp only [contains, Bool.and_eq_true, decide_eq_true_eq] at h
  exact h.1

/-- The bits alone tell the members. -/
theorem contains_eq_bit (s : BitSet) (i : Nat) : s.contains i = Words.bit s.words i := by
  by_cases h : i < s.capacity
  · simp [contains, h]
  · simp [contains, h, s.unused i (Nat.le_of_not_lt h)]

@[simp] theorem contains_empty (c i : Nat) : (empty c).contains i = false := by
  rw [contains_eq_bit]
  exact Words.bit_replicate_zero ..

/-- All that an insertion does. -/
theorem insert_eq_ok {s t : BitSet} {i : Nat} {fresh : Bool} (h : s.insert i = .ok (t, fresh)) :
    i < s.capacity ∧ t.capacity = s.capacity ∧ fresh = !s.contains i ∧
      ∀ j, t.contains j = (decide (j = i) || s.contains j) := by
  unfold insert at h
  split at h
  next hi =>
    cases h
    refine ⟨hi, rfl, rfl, fun j => ?_⟩
    rw [contains_eq_bit, contains_eq_bit]
    exact Words.bit_setBit (div_lt_length hi) j
  next => cases h

theorem insert_of_lt {s : BitSet} {i : Nat} (h : i < s.capacity) :
    ∃ t, s.insert i = .ok (t, !s.contains i) := by
  unfold insert
  rw [dif_pos h]
  exact ⟨_, rfl⟩

theorem capacity_erase (s : BitSet) (i : Nat) : (s.erase i).1.capacity = s.capacity := by
  unfold erase
  split <;> rfl

/-- Erasing takes away one number, and tells whether it was a member. -/
theorem contains_erase (s : BitSet) (i j : Nat) :
    (s.erase i).1.contains j = (decide (j ≠ i) && s.contains j) := by
  unfold erase
  split
  next =>
    rw [contains_eq_bit, s.contains_eq_bit j]
    exact Words.bit_clearBit ..
  next hi =>
    by_cases hj : j = i
    · simp [contains, hj, hi]
    · simp [hj]

theorem erase_snd (s : BitSet) (i : Nat) : (s.erase i).2 = s.contains i := by
  unfold erase
  split
  next => rfl
  next hi => simp [contains, hi]

theorem contains_clear (s : BitSet) (i : Nat) : s.clear.contains i = false := by
  rw [contains_eq_bit]
  exact Words.bit_replicate_zero ..

/-- All that a union does to membership. -/
theorem union_eq_ok {s t u : BitSet} {changed : Bool} (h : s.union t = .ok (u, changed)) :
    t.capacity = s.capacity ∧ u.capacity = s.capacity ∧
      ∀ j, u.contains j = (s.contains j || t.contains j) := by
  unfold union at h
  split at h
  next hcap =>
    cases h
    have hlen : s.words.length = t.words.length := by rw [s.length_words, t.length_words, hcap]
    refine ⟨hcap, rfl, fun j => ?_⟩
    rw [contains_eq_bit, contains_eq_bit, contains_eq_bit]
    exact Words.bit_zipWith_or hlen j
  next => cases h

/-- A new member takes a free place. -/
theorem free_lt_of_insert {s t : BitSet} {i : Nat} {fresh : Bool}
    (h : s.insert i = .ok (t, fresh)) (hnew : s.contains i = false) : t.free < s.free := by
  obtain ⟨hi, hcap, -, hmem⟩ := insert_eq_ok h
  unfold free
  rw [hcap]
  refine countP_lt_countP (a := i) ?_ (List.mem_range.mpr hi) (by simp [hnew]) (by simp [hmem])
  intro j _ hj
  simp only [hmem, Bool.not_or, Bool.and_eq_true] at hj
  exact hj.2

/-- Sets of one capacity with the same members are equal. -/
theorem eq_of_contains {s t : BitSet} (hcap : s.capacity = t.capacity)
    (h : ∀ i, s.contains i = t.contains i) : s = t := by
  have hwords : s.words = t.words :=
    Words.eq_of_bit (by rw [s.length_words, t.length_words, hcap]) fun i => by
      rw [← contains_eq_bit, ← contains_eq_bit, h]
  obtain ⟨c, ws, hlen, hunused⟩ := s
  obtain ⟨d, vs, hlen', hunused'⟩ := t
  cases hcap
  cases hwords
  rfl

/-! ### Listing the members -/

theorem mem_toList {s : BitSet} {i : Nat} : i ∈ s.toList ↔ s.contains i = true := by
  rw [toList, Words.mem_listing, contains_eq_bit, Nat.sub_zero]
  exact and_iff_right (Nat.zero_le i)

/-- Members are listed ascending, each once. -/
theorem pairwise_toList (s : BitSet) : s.toList.Pairwise (· < ·) := Words.pairwise_listing ..

end BitSet

end SeaOfNodes
