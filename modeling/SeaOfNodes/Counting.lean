/-!
Sums and counts over lists.
-/

namespace SeaOfNodes

/-- Sums of numbers start from the numeral, in every module alike. -/
scoped instance (priority := 2000) zeroNat : Zero Nat := ⟨0⟩

/-- A count goes down when nothing joins and something leaves. -/
theorem countP_lt_countP {α : Type} {p q : α → Bool} {l : List α}
    (himp : ∀ x ∈ l, q x = true → p x = true) {a : α} (ha : a ∈ l) (hp : p a = true)
    (hq : q a = false) : l.countP q < l.countP p := by
  induction l with
  | nil => cases ha
  | cons x l ih =>
    have hmono : l.countP q ≤ l.countP p :=
      List.countP_mono_left fun y hy => himp y (List.mem_cons_of_mem _ hy)
    rcases List.mem_cons.mp ha with rfl | ha
    · simp only [List.countP_cons, hp, hq, if_true]
      simpa using Nat.lt_succ_of_le hmono
    · have hlt := ih (fun y hy => himp y (List.mem_cons_of_mem _ hy)) ha
      have hx := himp x List.mem_cons_self
      have hstep : (if q x = true then 1 else 0) ≤ (if p x = true then 1 else 0) := by
        split
        next hqx => simp [hx hqx]
        next => exact Nat.zero_le _
      simp only [List.countP_cons]
      omega

end SeaOfNodes
