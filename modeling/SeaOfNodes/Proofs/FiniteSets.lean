import Mathlib.Data.Finset.Card
import Mathlib.Data.Finset.Lattice.Basic
import Mathlib.Data.List.Nodup
import SeaOfNodes.BitSet

/-!
Bit sets are finite sets.

The set that a bit set stands for is read off all bits of its words (`BitSet.members`). What the
set says about itself agrees with it (`BitSet.Stands`), and every call does to it what the
operation on finite sets does (`BitSet.onBits_ideal`). So a history of calls on any number of sets
is a history of the finite sets they stand for, with the same answers and the same faults
(`BitSet.history_stands`).
-/

namespace SeaOfNodes

namespace BitSet

/-- The numbers whose bits are set. Bits of the last word beyond the capacity count too. -/
def members (s : BitSet) : Finset Nat :=
  {i ∈ Finset.range (64 * s.words.length) | Words.bit s.words i = true}

theorem mem_members {s : BitSet} {i : Nat} : i ∈ s.members ↔ s.contains i = true := by
  rw [members, Finset.mem_filter, Finset.mem_range, ← contains_eq_bit, and_iff_right_iff_imp]
  intro h
  have := div_lt_length (contains_lt h)
  omega

/-! ### What a set says about itself -/

/-- The population of a word is the number of its set bits. -/
theorem cpop_eq_countP (w : BitVec 64) : w.cpop.toNat = (List.range 64).countP w.getLsbD := by
  have hrec (k : Nat) : w.cpopNatRec k 0 = (List.range k).countP w.getLsbD := by
    induction k with
    | zero => rfl
    | succ k ih =>
      rw [BitVec.cpopNatRec_succ, BitVec.cpopNatRec_add, ih, List.range_succ, List.countP_append,
        List.countP_singleton]
      cases w.getLsbD k <;> rfl
  rw [BitVec.toNat_cpop, hrec]

theorem length_places (w : BitVec 64) : (Words.places 64 w).length = w.cpop.toNat := by
  have hnodup : (Words.places 64 w).Nodup :=
    (Words.pairwise_places (Words.amongHighest_word w)).imp Nat.ne_of_lt
  have hperm : (Words.places 64 w).Perm ((List.range 64).filter w.getLsbD) := by
    refine (List.perm_ext_iff_of_nodup hnodup (List.nodup_range.filter _)).mpr fun i => ?_
    rw [Words.mem_places_word, List.mem_filter, List.mem_range, iff_and_self]
    exact BitVec.lt_of_getLsbD
  rw [hperm.length_eq, cpop_eq_countP, List.countP_eq_length_filter]

theorem length_listing (base : Nat) (ws : List (BitVec 64)) :
    (Words.listing base ws).length = (ws.map fun w => w.cpop.toNat).sum := by
  induction ws generalizing base with
  | nil => rfl
  | cons w ws ih =>
    rw [Words.listing, List.length_append, List.length_map, length_places, ih, List.map_cons,
      List.sum_cons]

theorem toFinset_toList (s : BitSet) : s.toList.toFinset = s.members := by
  ext i
  rw [List.mem_toFinset, mem_toList, mem_members]

theorem count_eq_card (s : BitSet) : s.count = s.members.card := by
  have hnodup : s.toList.Nodup := s.pairwise_toList.imp Nat.ne_of_lt
  rw [← toFinset_toList, List.toFinset_card_of_nodup hnodup, toList, length_listing, count]

/-- A bit of a word belongs to a member. -/
theorem contains_of_word {s : BitSet} {k : Nat} {w : BitVec 64} (hw : s.words[k]? = some w)
    {j : Nat} (hj : w.getLsbD j = true) : s.contains (64 * k + j) = true := by
  rw [contains_eq_bit, Words.bit_of_word hw (BitVec.lt_of_getLsbD hj)]
  exact hj

theorem isEmpty_iff (s : BitSet) : s.isEmpty = true ↔ s.members = ∅ := by
  rw [isEmpty, List.all_eq_true, Finset.eq_empty_iff_forall_notMem]
  constructor
  · intro hzero i hi
    rw [mem_members, contains_eq_bit, Words.bit, List.getD_eq_getElem?_getD] at hi
    cases hw : s.words[i / 64]? with
    | none => simp [hw] at hi
    | some w =>
      have hw0 : w = 0#64 := by simpa using hzero w (List.mem_of_getElem? hw)
      simp [hw, hw0] at hi
  · intro hnone w hw
    obtain ⟨k, hk⟩ := List.mem_iff_getElem?.mp hw
    refine beq_iff_eq.mpr (Decidable.byContradiction fun hne => ?_)
    obtain ⟨t, -, hset, -⟩ := Words.exists_lowest hne
    exact hnone _ (mem_members.mpr (contains_of_word hk hset))

/-- What a set says about itself agrees with the set it stands for. -/
structure Stands (s : BitSet) : Prop where
  bounded : s.members ⊆ Finset.range s.capacity
  /-- No bit at or beyond the capacity is set in any word. -/
  unused : ∀ k w, s.words[k]? = some w → ∀ j, w.getLsbD j = true → 64 * k + j < s.capacity
  contains : ∀ i, s.contains i = true ↔ i ∈ s.members
  beyond : ∀ i, s.capacity ≤ i → s.contains i = false
  count : s.count = s.members.card
  isEmpty : s.isEmpty = true ↔ s.members = ∅
  ascending : s.toList.Pairwise (· < ·)
  listed : ∀ i, i ∈ s.toList ↔ i ∈ s.members

theorem stands (s : BitSet) : s.Stands where
  bounded i hi := Finset.mem_range.mpr (contains_lt (mem_members.mp hi))
  unused _ _ hw _ hj := contains_lt (contains_of_word hw hj)
  contains _ := mem_members.symm
  beyond i hi := by simp [BitSet.contains, Nat.not_lt.mpr hi]
  count := s.count_eq_card
  isEmpty := s.isEmpty_iff
  ascending := s.pairwise_toList
  listed _ := mem_toList.trans mem_members.symm

theorem eq_iff (s t : BitSet) : s = t ↔ s.capacity = t.capacity ∧ s.members = t.members := by
  constructor
  · rintro rfl
    exact ⟨rfl, rfl⟩
  · rintro ⟨hcap, hmem⟩
    refine eq_of_contains hcap fun i => ?_
    rw [Bool.eq_iff_iff, ← mem_members, ← mem_members, hmem]

/-! ### Calls -/

/-- Calls on sets that have names. A new set may be given a name in use. -/
inductive Call where
  | new (x capacity : Nat)
  | insert (x i : Nat)
  | erase (x i : Nat)
  | clear (x : Nat)
  | union (x y : Nat)

/-- The name of the set that a call changes. -/
def Call.target : Call → Nat
  | new x _ | insert x _ | erase x _ | clear x | union x _ => x

/-- The set after a call and its answer, if it has one; nothing if the call is a fault. -/
def Call.onBits (sets : Nat → BitSet) : Call → Option (BitSet × Option Bool)
  | new _ c => some (empty c, none)
  | insert x i => ((sets x).insert i).toOption.map fun (s, fresh) => (s, some fresh)
  | erase x i => some (((sets x).erase i).1, some ((sets x).erase i).2)
  | clear x => some ((sets x).clear, none)
  | union x y => ((sets x).union (sets y)).toOption.map fun (s, changed) => (s, some changed)

/-- A finite set and the capacity it was given. -/
structure Ideal where
  capacity : Nat
  members : Finset Nat
deriving DecidableEq

def ideal (s : BitSet) : Ideal := ⟨s.capacity, s.members⟩

/-- The set with other members, and whether they are others. -/
def Ideal.become (s : Ideal) (members : Finset Nat) : Ideal × Option Bool :=
  ({ s with members }, some (decide (members ≠ s.members)))

/-- The same calls on finite sets. -/
def Call.onIdeal (sets : Nat → Ideal) : Call → Option (Ideal × Option Bool)
  | new _ c => some (⟨c, ∅⟩, none)
  | insert x i =>
    if i < (sets x).capacity then some ((sets x).become (Insert.insert i (sets x).members))
    else none
  | erase x i => some ((sets x).become ((sets x).members.erase i))
  | clear x => some (⟨(sets x).capacity, ∅⟩, none)
  | union x y =>
    if (sets y).capacity = (sets x).capacity then
      some ((sets x).become ((sets x).members ∪ (sets y).members))
    else none

theorem ideal_eq {s : BitSet} {t : Ideal} (hcap : s.capacity = t.capacity)
    (h : ∀ i, s.contains i = true ↔ i ∈ t.members) : s.ideal = t := by
  obtain ⟨c, m⟩ := t
  have hmem : s.members = m := by
    ext i
    rw [mem_members, h]
  rw [ideal, hcap, hmem]

theorem onBits_insert (s : BitSet) (i : Nat) :
    (((s.insert i).toOption.map fun (t, fresh) => (t, some fresh)).map
        fun r => (r.1.ideal, r.2)) =
      if i < s.capacity then some (s.ideal.become (Insert.insert i s.members)) else none := by
  by_cases hi : i < s.capacity
  · obtain ⟨t, ht⟩ := insert_of_lt hi
    obtain ⟨-, hcap, -, hmem⟩ := insert_eq_ok ht
    have hideal : t.ideal = ⟨s.capacity, Insert.insert i s.members⟩ :=
      ideal_eq hcap fun j => by
        rw [hmem, Finset.mem_insert, mem_members]
        simp
    have hfresh : (!s.contains i) = decide (Insert.insert i s.members ≠ s.members) := by
      rw [Bool.eq_iff_iff, decide_eq_true_eq, Ne, Finset.insert_eq_self, mem_members,
        Bool.not_eq_true', Bool.not_eq_true]
    rw [ht, Except.toOption, Option.map_some, Option.map_some, hideal, hfresh, if_pos hi]
    rfl
  · simp [insert, hi, Except.toOption]

theorem onBits_erase (s : BitSet) (i : Nat) :
    ((s.erase i).1.ideal, some (s.erase i).2) = s.ideal.become (s.members.erase i) := by
  have hideal : (s.erase i).1.ideal = ⟨s.capacity, s.members.erase i⟩ :=
    ideal_eq (s.capacity_erase i) fun j => by
      rw [contains_erase, Finset.mem_erase, mem_members]
      simp
  have hpresent : (s.erase i).2 = decide (s.members.erase i ≠ s.members) := by
    rw [erase_snd, Bool.eq_iff_iff, decide_eq_true_eq, Ne, Finset.erase_eq_self, not_not,
      mem_members]
  rw [hideal, hpresent]
  rfl

theorem ideal_clear (s : BitSet) : s.clear.ideal = ⟨s.capacity, ∅⟩ :=
  ideal_eq rfl fun i => by simp [contains_clear]

/-- No word changes exactly if the words stay what they are. -/
theorem any_zip_or_eq_false {as bs : List (BitVec 64)} (hlen : as.length = bs.length) :
    ((as.zip bs).any fun (a, b) => a != a ||| b) = false ↔
      List.zipWith (· ||| ·) as bs = as := by
  induction as generalizing bs with
  | nil => simp
  | cons a as ih =>
    cases bs with
    | nil => cases hlen
    | cons b bs =>
      have hlen : as.length = bs.length := Nat.succ.inj hlen
      rw [List.zip_cons_cons, List.any_cons, Bool.or_eq_false_iff, ih hlen, List.zipWith_cons_cons,
        List.cons_eq_cons, bne_eq_false_iff_eq, eq_comm]

theorem union_changed {s t u : BitSet} {changed : Bool} (h : s.union t = .ok (u, changed)) :
    changed = decide (u.members ≠ s.members) := by
  obtain ⟨hcap, hucap, -⟩ := union_eq_ok h
  have hlen : s.words.length = t.words.length := by rw [s.length_words, t.length_words, hcap]
  unfold union at h
  rw [dif_pos hcap] at h
  cases h
  rw [Bool.eq_iff_iff, decide_eq_true_eq, Ne, ← Bool.not_eq_false, any_zip_or_eq_false hlen,
    not_iff_not]
  constructor
  · intro hwords
    exact ((eq_iff _ s).mp (by cases s; simpa using hwords)).2
  · intro hmem
    exact congrArg words ((eq_iff _ s).mpr ⟨hucap, hmem⟩)

theorem onBits_union (s t : BitSet) :
    (((s.union t).toOption.map fun (u, changed) => (u, some changed)).map
        fun r => (r.1.ideal, r.2)) =
      if t.capacity = s.capacity then some (s.ideal.become (s.members ∪ t.members)) else none := by
  cases h : s.union t with
  | ok r =>
    obtain ⟨u, changed⟩ := r
    obtain ⟨hcap, hucap, hmem⟩ := union_eq_ok h
    have hideal : u.ideal = ⟨s.capacity, s.members ∪ t.members⟩ :=
      ideal_eq hucap fun j => by
        rw [hmem, Finset.mem_union, mem_members, mem_members]
        simp
    have hmembers : u.members = s.members ∪ t.members := congrArg Ideal.members hideal
    rw [union_changed h, hmembers, if_pos hcap, Except.toOption, Option.map_some, Option.map_some,
      hideal]
    rfl
  | error e =>
    have hcap : t.capacity ≠ s.capacity := fun hcap => by
      rw [union, dif_pos hcap] at h
      cases h
    rw [if_neg hcap]
    rfl

/-- Every call does to the sets that bit sets stand for what it does to finite sets. -/
theorem onBits_ideal (sets : Nat → BitSet) (c : Call) :
    (c.onBits sets).map (fun r => (r.1.ideal, r.2)) = c.onIdeal (ideal ∘ sets) := by
  cases c with
  | new x c => exact congrArg some (Prod.ext (ideal_eq rfl fun i => by simp) rfl)
  | insert x i => exact (sets x).onBits_insert i
  | erase x i => exact congrArg some ((sets x).onBits_erase i)
  | clear x => exact congrArg some (Prod.ext (sets x).ideal_clear rfl)
  | union x y => exact (sets x).onBits_union (sets y)

/-! ### Histories -/

/-- The sets after a history of calls, and the answers. -/
def history {σ : Type} (one : (Nat → σ) → Call → Option (σ × Option Bool)) :
    (Nat → σ) → List Call → Option ((Nat → σ) × List (Option Bool))
  | sets, [] => some (sets, [])
  | sets, c :: calls =>
    (one sets c).bind fun (s, answer) =>
      (history one (Function.update sets c.target s) calls).map fun (sets, answers) =>
        (sets, answer :: answers)

/-- Histories agree if every call does. -/
theorem history_map {σ τ : Type} {one : (Nat → σ) → Call → Option (σ × Option Bool)}
    {two : (Nat → τ) → Call → Option (τ × Option Bool)} {f : σ → τ}
    (h : ∀ sets c, (one sets c).map (fun r => (f r.1, r.2)) = two (f ∘ sets) c)
    (sets : Nat → σ) (calls : List Call) :
    (history one sets calls).map (fun r => (f ∘ r.1, r.2)) = history two (f ∘ sets) calls := by
  induction calls generalizing sets with
  | nil => rfl
  | cons c calls ih =>
    rw [history, history, ← h sets c]
    cases one sets c with
    | none => rfl
    | some r =>
      obtain ⟨s, answer⟩ := r
      have hupdate : f ∘ Function.update sets c.target s =
          Function.update (f ∘ sets) c.target (f s) := Function.comp_update ..
      rw [Option.bind_some, Option.map_some, Option.bind_some]
      dsimp only
      rw [← hupdate, ← ih]
      cases history one (Function.update sets c.target s) calls <;> rfl

/-- Any history of calls on bit sets is the history of the same calls on finite sets: it has a fault
exactly if that has one, insertions, removals and unions tell whether the set changed, and the sets
stand for those of the other history. Each stands for numbers below its capacity and says so in
every way it can be asked; two are equal if and only if their capacities and the sets they stand
for are. -/
theorem history_stands (calls : List Call) :
    (history Call.onBits (fun _ => empty 0) calls).map (fun r => (ideal ∘ r.1, r.2)) =
        history Call.onIdeal (fun _ => ⟨0, ∅⟩) calls ∧
      ∀ sets answers, history Call.onBits (fun _ => empty 0) calls = some (sets, answers) →
        ∀ x, (sets x).Stands ∧
          ∀ y, sets x = sets y ↔
            (sets x).capacity = (sets y).capacity ∧ (sets x).members = (sets y).members := by
  constructor
  · have hblank : ideal ∘ (fun _ : Nat => empty 0) = fun _ => ⟨0, ∅⟩ :=
      funext fun _ => ideal_eq rfl fun i => by simp
    rw [history_map onBits_ideal, hblank]
  · intro sets _ _ x
    exact ⟨(sets x).stands, fun y => (sets x).eq_iff (sets y)⟩

/-- Two sets with a second word; the last number of the capacity, one beyond it, and a union. -/
example :
    (history Call.onBits (fun _ => empty 0)
        [.new 0 70, .insert 0 69, .insert 0 69, .erase 0 70, .new 1 70, .insert 1 64, .union 1 0,
          .union 1 0]).map (fun r => (r.2, (r.1 1).toList, (r.1 1).words)) =
      some ([none, some true, some false, some false, none, some true, some true, some false],
        [64, 69], [0#64, 33#64]) := by decide

end BitSet

end SeaOfNodes
