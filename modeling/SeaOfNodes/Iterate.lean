/-!
Repeating a step until it answers.

Every loop of the library that is not a recursion on its data is written as a step on a state
and repeated here. The step's continuations come with a rank that goes down, so the repetition
is total; `iterate_preserves` is the rule by which facts are carried through a loop.

Recursion on a rank cannot be unfolded by evaluation. So the first steps of a loop, more than any
closed term in use takes, are counted down on a number instead (`iterate_eq_loop`: that makes no
difference), and loops over concrete data can be evaluated in proofs.
-/

namespace SeaOfNodes

variable {σ ρ α : Type} [WellFoundedRelation α]

/-- Runs `step` from `s` until it answers. -/
def loop (step : σ → σ ⊕ ρ) (rank : σ → α)
    (down : ∀ s t, step s = .inl t → WellFoundedRelation.rel (rank t) (rank s)) (s : σ) : ρ :=
  match _h : step s with
  | .inl t => loop step rank down t
  | .inr r => r
termination_by rank s
decreasing_by exact down s t _h

/-- The same, with the first `n` steps counted. -/
def countedLoop (step : σ → σ ⊕ ρ) (rank : σ → α)
    (down : ∀ s t, step s = .inl t → WellFoundedRelation.rel (rank t) (rank s)) : Nat → σ → ρ
  | 0, s => loop step rank down s
  | n + 1, s =>
    match step s with
    | .inl t => countedLoop step rank down n t
    | .inr r => r

/-- Runs `step` from `s` until it answers. -/
def iterate (step : σ → σ ⊕ ρ) (rank : σ → α)
    (down : ∀ s t, step s = .inl t → WellFoundedRelation.rel (rank t) (rank s)) (s : σ) : ρ :=
  countedLoop step rank down 1000000 s

variable {step : σ → σ ⊕ ρ} {rank : σ → α}
  {down : ∀ s t, step s = .inl t → WellFoundedRelation.rel (rank t) (rank s)}

theorem loop_of_inl {s t : σ} (h : step s = .inl t) :
    loop step rank down s = loop step rank down t := by
  conv => lhs; rw [loop]
  split
  next t' h' =>
    rw [h] at h'
    cases h'
    rfl
  next r h' =>
    rw [h] at h'
    cases h'

theorem loop_of_inr {s : σ} {r : ρ} (h : step s = .inr r) : loop step rank down s = r := by
  rw [loop]
  split
  next t h' =>
    rw [h] at h'
    cases h'
  next r' h' =>
    rw [h] at h'
    cases h'
    rfl

theorem countedLoop_eq_loop (n : Nat) (s : σ) :
    countedLoop step rank down n s = loop step rank down s := by
  induction n generalizing s with
  | zero => rfl
  | succ n ih =>
    rw [countedLoop]
    split
    next t h => rw [ih, loop_of_inl h]
    next r h => rw [loop_of_inr h]

/-- Counting steps makes no difference. -/
theorem iterate_eq_loop (s : σ) : iterate step rank down s = loop step rank down s :=
  countedLoop_eq_loop _ s

theorem iterate_of_inl {s t : σ} (h : step s = .inl t) :
    iterate step rank down s = iterate step rank down t := by
  rw [iterate_eq_loop, iterate_eq_loop, loop_of_inl h]

theorem iterate_of_inr {s : σ} {r : ρ} (h : step s = .inr r) :
    iterate step rank down s = r := by
  rw [iterate_eq_loop, loop_of_inr h]

/-- What holds at the start and is kept by every step holds when the answer is given. -/
theorem iterate_preserves {I : σ → Prop} {P : ρ → Prop}
    (keep : ∀ s t, I s → step s = .inl t → I t)
    (stop : ∀ s r, I s → step s = .inr r → P r) (s : σ) (hs : I s) :
    P (iterate step rank down s) := by
  cases h : step s with
  | inl t =>
    rw [iterate_of_inl h]
    exact iterate_preserves keep stop t (keep s t hs h)
  | inr r =>
    rw [iterate_of_inr h]
    exact stop s r hs h
termination_by rank s
decreasing_by exact down s t h

end SeaOfNodes
