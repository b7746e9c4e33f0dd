import Mathlib.Data.List.Forall2
import SeaOfNodes.Error

/-!
Rules for computations that may fail: what is known when a sequence of steps has succeeded, and how
it can end at all (`Ends`).
-/

namespace SeaOfNodes

variable {ε α β : Type}

/-- A sequence succeeds if both its parts do. -/
theorem bind_eq_ok {x : Except ε α} {f : α → Except ε β} {b : β} :
    (x >>= f) = .ok b ↔ ∃ a, x = .ok a ∧ f a = .ok b := by
  cases x with
  | error e =>
    constructor
    · intro h
      cases h
    · rintro ⟨a, h, -⟩
      cases h
  | ok a =>
    constructor
    · intro h
      exact ⟨a, rfl, h⟩
    · rintro ⟨a', h, hf⟩
      cases h
      exact hf

theorem bind_of_error {x : Except ε α} {f : α → Except ε β} {e : ε} (hx : x = .error e) :
    (x >>= f) = .error e := by
  rw [hx]
  rfl

theorem bind_of_ok {x : Except ε α} {f : α → Except ε β} {a : α} (hx : x = .ok a) :
    (x >>= f) = f a := by
  rw [hx]
  rfl

/-- A sequence succeeds if its second part does after what the first gives. -/
theorem exists_bind {x : Except ε α} {f : α → Except ε β} {a : α} (hx : x = .ok a)
    (h : ∃ b, f a = .ok b) : ∃ b, (x >>= f) = .ok b := by
  obtain ⟨b, hb⟩ := h
  exact ⟨b, bind_eq_ok.mpr ⟨a, hx, hb⟩⟩

theorem exists_of_isOk {x : Except ε α} (h : x.isOk = true) : ∃ a, x = .ok a := by
  cases x with
  | ok a => exact ⟨a, rfl⟩
  | error e => cases h

theorem exists_of_not_isOk {x : Except ε α} (h : x.isOk = false) : ∃ e, x = .error e := by
  cases x with
  | ok a => cases h
  | error e => exact ⟨e, rfl⟩

/-- A list of computations succeeds if each of them does. -/
theorem mapM_eq_ok {f : α → Except ε β} {xs : List α} {ys : List β} (h : xs.mapM f = .ok ys) :
    List.Forall₂ (fun x y => f x = .ok y) xs ys := by
  induction xs generalizing ys with
  | nil =>
    cases h
    exact .nil
  | cons x xs ih =>
    rw [List.mapM_cons] at h
    obtain ⟨y, hy, h⟩ := bind_eq_ok.mp h
    obtain ⟨rest, hrest, h⟩ := bind_eq_ok.mp h
    cases h
    exact .cons hy (ih hrest)

theorem exists_of_mem_mapM {f : α → Except ε β} {xs : List α} {ys : List β}
    (h : xs.mapM f = .ok ys) {y : β} (hy : y ∈ ys) : ∃ x ∈ xs, f x = .ok y := by
  have hall := mapM_eq_ok h
  clear h
  induction hall with
  | nil => cases hy
  | cons hx _ ih =>
    rcases List.mem_cons.mp hy with rfl | hy
    · exact ⟨_, List.mem_cons_self, hx⟩
    · obtain ⟨x, hmem, hf⟩ := ih hy
      exact ⟨x, List.mem_cons_of_mem _ hmem, hf⟩

theorem exists_of_mapM {f : α → Except ε β} {xs : List α} {ys : List β} (h : xs.mapM f = .ok ys)
    {x : α} (hx : x ∈ xs) : ∃ y, f x = .ok y := by
  have hall := mapM_eq_ok h
  clear h
  induction hall with
  | nil => cases hx
  | cons hy _ ih =>
    rcases List.mem_cons.mp hx with rfl | hx
    · exact ⟨_, hy⟩
    · exact ih hx

theorem mapM_eq_map {f : α → Except ε β} {F : α → β} {xs : List α} {ys : List β}
    (h : xs.mapM f = .ok ys) (hf : ∀ x ∈ xs, ∀ y, f x = .ok y → y = F x) : ys = xs.map F := by
  have hall := mapM_eq_ok h
  clear h
  induction hall with
  | nil => rfl
  | cons hx _ ih =>
    rw [List.map_cons, hf _ List.mem_cons_self _ hx,
      ih fun x hmem => hf x (List.mem_cons_of_mem _ hmem)]

theorem mapM_of_eq_ok {f : α → Except ε β} {F : α → β} {xs : List α}
    (h : ∀ x ∈ xs, f x = .ok (F x)) : xs.mapM f = .ok (xs.map F) := by
  induction xs with
  | nil => rfl
  | cons x xs ih =>
    rw [List.mapM_cons, bind_of_ok (h x List.mem_cons_self),
      bind_of_ok (ih fun y hy => h y (List.mem_cons_of_mem _ hy))]
    rfl

theorem mapM_succeeds {f : α → Except ε β} {xs : List α} (h : ∀ x ∈ xs, ∃ y, f x = .ok y) :
    ∃ ys, xs.mapM f = .ok ys := by
  induction xs with
  | nil => exact ⟨[], rfl⟩
  | cons x xs ih =>
    obtain ⟨y, hy⟩ := h x List.mem_cons_self
    obtain ⟨ys, hys⟩ := ih fun z hz => h z (List.mem_cons_of_mem _ hz)
    exact ⟨y :: ys, by rw [List.mapM_cons, bind_of_ok hy, bind_of_ok hys]; rfl⟩

theorem forM_eq_ok {f : α → Except ε Unit} {l : List α} (h : l.forM f = .ok ()) :
    ∀ a ∈ l, f a = .ok () := by
  induction l with
  | nil =>
    intro a ha
    cases ha
  | cons b l ih =>
    have h : (f b >>= fun _ => l.forM f) = .ok () := h
    obtain ⟨⟨⟩, hb, h⟩ := bind_eq_ok.mp h
    intro a ha
    rcases List.mem_cons.mp ha with rfl | ha
    · exact hb
    · exact ih h a ha

theorem forM_of_eq_ok {f : α → Except ε Unit} {l : List α} (h : ∀ a ∈ l, f a = .ok ()) :
    l.forM f = .ok () := by
  induction l with
  | nil => rfl
  | cons b l ih =>
    show (f b >>= fun _ => l.forM f) = .ok ()
    rw [bind_of_ok (h b List.mem_cons_self), ih fun a ha => h a (List.mem_cons_of_mem b ha)]

/-- What a loop over a list has established when it succeeds, from what each turn establishes.
The invariant speaks about the part of the list already worked on. -/
theorem foldlM_eq_ok {f : α → β → Except ε α} {I : List β → α → Prop} {xs : List β} {a r : α}
    (h : xs.foldlM f a = .ok r) (base : I [] a)
    (turn : ∀ done x rest s t, xs = done ++ x :: rest → I done s → f s x = .ok t →
      I (done ++ [x]) t) : I xs r := by
  suffices key : ∀ (todo done : List β) (s : α), xs = done ++ todo → I done s →
      todo.foldlM f s = .ok r → I xs r from key xs [] a rfl base h
  intro todo
  induction todo with
  | nil =>
    intro done s hsplit hs hrun
    cases hrun
    rw [hsplit, List.append_nil]
    exact hs
  | cons x todo ih =>
    intro done s hsplit hs hrun
    rw [List.foldlM_cons] at hrun
    obtain ⟨t, ht, hrun⟩ := bind_eq_ok.mp hrun
    exact ih (done ++ [x]) t (by simpa using hsplit) (turn done x todo s t hsplit hs ht) hrun

/-- A loop over a list succeeds if each turn does, given what the turns before it established. -/
theorem exists_foldlM {f : α → β → Except ε α} {I : List β → α → Prop} {xs : List β} {a : α}
    (base : I [] a)
    (turn : ∀ done x rest s, xs = done ++ x :: rest → I done s →
      ∃ t, f s x = .ok t ∧ I (done ++ [x]) t) : ∃ r, xs.foldlM f a = .ok r ∧ I xs r := by
  suffices key : ∀ (todo done : List β) (s : α), xs = done ++ todo → I done s →
      ∃ r, todo.foldlM f s = .ok r ∧ I xs r from key xs [] a rfl base
  intro todo
  induction todo with
  | nil =>
    intro done s hsplit hs
    rw [List.append_nil] at hsplit
    exact ⟨s, rfl, hsplit ▸ hs⟩
  | cons x todo ih =>
    intro done s hsplit hs
    obtain ⟨t, ht, hI⟩ := turn done x todo s hsplit hs
    rw [List.foldlM_cons, bind_of_ok ht]
    exact ih (done ++ [x]) t (by simpa using hsplit) hI

/-- A loop whose turns change nothing changes nothing. -/
theorem foldlM_eq_self {f : α → β → Except ε α} {xs : List β} {a : α}
    (h : ∀ x ∈ xs, f a x = .ok a) : xs.foldlM f a = .ok a := by
  induction xs with
  | nil => rfl
  | cons x xs ih =>
    rw [List.foldlM_cons, bind_of_ok (h x List.mem_cons_self)]
    exact ih fun y hy => h y (List.mem_cons_of_mem x hy)

/-- A loop over the positions below `n`, the last first. The invariant speaks about the position
below which nothing was looked at. -/
theorem foldlM_reverse_range_eq_ok {f : α → Nat → Except ε α} {I : Nat → α → Prop} {n : Nat}
    {a r : α} (h : (List.range n).reverse.foldlM f a = .ok r) (base : I n a)
    (turn : ∀ i s t, i < n → I (i + 1) s → f s i = .ok t → I i t) : I 0 r := by
  induction n generalizing a with
  | zero =>
    cases h
    exact base
  | succ n ih =>
    rw [List.range_succ, List.reverse_append, List.reverse_singleton, List.singleton_append,
      List.foldlM_cons] at h
    obtain ⟨t, ht, h⟩ := bind_eq_ok.mp h
    exact ih h (turn n a t (Nat.lt_succ_self n) base ht) fun i s t hi =>
      turn i s t (Nat.lt_succ_of_lt hi)

/-! ### How computations end -/

/-- The computation gives a result of which `Q` holds, or fails with an error of which `P` holds. -/
def Ends (P : ε → Prop) (Q : α → Prop) : Except ε α → Prop
  | .ok a => Q a
  | .error e => P e

namespace Ends

variable {P : ε → Prop} {Q : α → Prop} {R : β → Prop}

theorem of_ok {x : Except ε α} {a : α} (h : x = .ok a) (ha : Q a) : Ends P Q x := by
  rw [h]
  exact ha

theorem of_error {x : Except ε α} {e : ε} (h : x = .error e) (he : P e) : Ends P Q x := by
  rw [h]
  exact he

theorem gives {x : Except ε α} (hx : Ends P Q x) {a : α} (h : x = .ok a) : Q a := by
  rw [h] at hx
  exact hx

theorem fails {x : Except ε α} (hx : Ends P Q x) {e : ε} (h : x = .error e) : P e := by
  rw [h] at hx
  exact hx

theorem mono {x : Except ε α} {P' : ε → Prop} {Q' : α → Prop} (hx : Ends P Q x)
    (hP : ∀ e, P e → P' e) (hQ : ∀ a, Q a → Q' a) : Ends P' Q' x := by
  cases x with
  | ok a => exact hQ a hx
  | error e => exact hP e hx

/-- The result itself may be looked at. -/
theorem attach {x : Except ε α} (hx : Ends P Q x) : Ends P (fun a => x = .ok a ∧ Q a) x := by
  cases x with
  | ok a => exact ⟨rfl, hx⟩
  | error e => exact hx

theorem bind {x : Except ε α} {f : α → Except ε β} (hx : Ends P Q x)
    (hf : ∀ a, Q a → Ends P R (f a)) : Ends P R (x >>= f) := by
  cases x with
  | ok a => exact hf a hx
  | error e => exact hx

theorem map {x : Except ε α} {f : α → β} (hx : Ends P Q x) (hf : ∀ a, Q a → R (f a)) :
    Ends P R (x.map f) := by
  cases x with
  | ok a => exact hf a hx
  | error e => exact hx

/-- A loop keeps what each of its turns keeps. -/
theorem foldlM {f : α → β → Except ε α} {xs : List β} {a : α} (base : Q a)
    (turn : ∀ x ∈ xs, ∀ s, Q s → Ends P Q (f s x)) : Ends P Q (xs.foldlM f a) := by
  induction xs generalizing a with
  | nil => exact base
  | cons x xs ih =>
    rw [List.foldlM_cons]
    exact (turn x List.mem_cons_self a base).bind fun s hs =>
      ih hs fun y hy => turn y (List.mem_cons_of_mem x hy)

/-- A loop over the positions below `n`, the last first. -/
theorem foldlM_reverse_range {f : α → Nat → Except ε α} {I : Nat → α → Prop} {n : Nat} {a : α}
    (base : I n a) (turn : ∀ i s, i < n → I (i + 1) s → Ends P (I i) (f s i)) :
    Ends P (I 0) ((List.range n).reverse.foldlM f a) := by
  induction n generalizing a with
  | zero => exact base
  | succ n ih =>
    rw [List.range_succ, List.reverse_append, List.reverse_singleton, List.singleton_append,
      List.foldlM_cons]
    exact (turn n a (Nat.lt_succ_self n) base).bind fun s hs =>
      ih hs fun i s hi => turn i s (Nat.lt_succ_of_lt hi)

theorem mapM {f : α → Except ε β} {xs : List α} (h : ∀ x ∈ xs, Ends P R (f x)) :
    Ends P (fun ys => ∀ y ∈ ys, R y) (xs.mapM f) := by
  induction xs with
  | nil => exact fun y hy => by cases hy
  | cons x xs ih =>
    rw [List.mapM_cons]
    refine (h x List.mem_cons_self).bind fun y hy => ?_
    refine (ih fun z hz => h z (List.mem_cons_of_mem x hz)).bind fun ys hys => ?_
    exact List.forall_mem_cons.mpr ⟨hy, hys⟩

theorem forM {f : α → Except ε Unit} {xs : List α}
    (h : ∀ x ∈ xs, Ends P (fun _ => True) (f x)) : Ends P (fun _ => True) (xs.forM f) := by
  induction xs with
  | nil => exact trivial
  | cons x xs ih =>
    show Ends P _ (f x >>= fun _ => xs.forM f)
    exact (h x List.mem_cons_self).bind fun _ _ => ih fun y hy => h y (List.mem_cons_of_mem x hy)

end Ends

end SeaOfNodes
