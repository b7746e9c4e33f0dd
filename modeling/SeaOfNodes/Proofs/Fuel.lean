import SeaOfNodes.Proofs.Visits

/-!
Runs with more fuel.

Fuel only says how long a run is watched: a run with `fuel + more` is the run with `fuel`, taken up
where it stood if it had not ended (`Execution.runFrom_add`). So a run that ended stays as it is,
one that failed fails in the same way, and one that was cut off has shown a beginning of what any
longer run shows (`Graph.execute_more_fuel`).
-/

namespace SeaOfNodes

namespace Execution

variable {g : Graph} {s : Schedule} {handler : Handler} {args : List Literal} {m m' : Machine}
  {p q : Position}

/-! ### What was seen stays seen -/

theorem effects_perform {n : NodeId} {action : Action}
    (h : action.perform handler n m = .ok m') : m.effects.toList <+: m'.effects.toList := by
  cases action with
  | value v =>
    obtain ⟨-, heffects⟩ := Prod.mk.inj (state_set h)
    exact heffects ▸ List.prefix_rfl
  | invoke callee vs =>
    obtain ⟨-, heffects⟩ := Prod.mk.inj (state_set h)
    rw [heffects, Array.toList_push]
    exact List.prefix_append _ _
  | write a v =>
    cases h
    rw [Machine.store, Array.toList_push]
    exact List.prefix_append _ _
  | nothing | leave | finish =>
    cases h
    exact List.prefix_rfl

theorem Passes.effects {l : Schedule} {exit exit' : Option NodeId}
    (h : Passes handler args l m exit m' exit') : m.effects.toList <+: m'.effects.toList := by
  induction h with
  | nil => exact List.prefix_rfl
  | cons _ _ hperform _ ih => exact (effects_perform hperform).trans ih

theorem effects_arrive (h : arrive s p m = .ok m') : m'.effects = m.effects := by
  unfold arrive at h
  split at h
  next =>
    cases h
    rfl
  next k _ =>
    obtain ⟨incoming, -, h⟩ := bind_eq_ok.mp h
    refine foldlM_eq_ok (I := fun _ (m₁ : Machine) => m₁.effects = m.effects) h rfl
      fun done i rest m₁ m₂ _ heffects hturn => ?_
    obtain ⟨n, v⟩ := i
    cases v with
    | none => cases hturn
    | some v => exact (Prod.mk.inj (state_set hturn)).2.trans heffects

theorem effects_runBlock (h : runBlock g s handler args p m = .ok (.inl (q, m'))) :
    m.effects.toList <+: m'.effects.toList := by
  obtain ⟨m₀, e, harrive, hpass, -⟩ := runBlock_eq_inl h
  exact effects_arrive harrive ▸ hpass.effects

/-- A block in which the run ends has shown more, if anything, and has not run out of fuel. -/
theorem ending_runBlock {o : Outcome} (h : runBlock g s handler args p m = .ok (.inr (m', o))) :
    m.effects.toList <+: m'.effects.toList ∧ o ≠ .outOfFuel := by
  obtain ⟨m₀, l₁, n, x, l₂, exit, harrive, -, hpass, hfinish⟩ := runBlock_eq_inr h
  refine ⟨effects_arrive harrive ▸ hpass.effects, fun ho => ?_⟩
  have hfits := choose_fits hfinish
  rw [ho] at hfits
  exact hfits

/-! ### Taking up a run -/

/-- Runs `fuel` blocks: where the run stands then, or how it ended before. -/
def proceed (g : Graph) (s : Schedule) (handler : Handler) (args : List Literal) :
    (fuel steps : Nat) → Position → Machine → Except Error ((Position × Machine) ⊕ Execution)
  | 0, _, p, m => .ok (.inl (p, m))
  | fuel + 1, steps, p, m => do
    match ← runBlock g s handler args p m with
    | .inl (p, m) => proceed g s handler args fuel (steps + 1) p m
    | .inr (m, outcome) => return .inr { effects := m.effects, outcome, steps := steps + 1 }

/-- Takes a run up where it stands, unless it has ended. -/
def resume (g : Graph) (s : Schedule) (handler : Handler) (args : List Literal) (fuel steps : Nat) :
    (Position × Machine) ⊕ Execution → Except Error Execution
  | .inl (p, m) => runFrom g s handler args fuel steps p m
  | .inr e => .ok e

/-- A run with more fuel is the run with less, taken up. -/
theorem runFrom_add (fuel more steps : Nat) (p : Position) (m : Machine) :
    runFrom g s handler args (fuel + more) steps p m =
      proceed g s handler args fuel steps p m >>= resume g s handler args more (steps + fuel) := by
  induction fuel generalizing steps p m with
  | zero =>
    rw [Nat.zero_add]
    rfl
  | succ fuel ih =>
    rw [Nat.succ_add]
    unfold runFrom proceed
    cases runBlock g s handler args p m with
    | error e => rfl
    | ok next =>
      cases next with
      | inr r => rfl
      | inl r =>
        show runFrom g s handler args (fuel + more) (steps + 1) r.1 r.2 =
          proceed g s handler args fuel (steps + 1) r.1 r.2 >>= _
        rw [ih, Nat.add_assoc, Nat.add_comm 1 fuel]

/-- What a run that had shown what `m` has seen, and counted `steps`, comes to with `fuel`. -/
structure Continues (steps fuel : Nat) (m : Machine) (r : Execution) : Prop where
  effects : m.effects.toList <+: r.effects.toList
  steps_ge : steps ≤ r.steps
  steps_le : r.steps ≤ steps + fuel

theorem runFrom_continues {fuel steps : Nat} {r : Execution}
    (h : runFrom g s handler args fuel steps p m = .ok r) : Continues steps fuel m r := by
  induction fuel generalizing steps p m with
  | zero =>
    cases h
    exact ⟨List.prefix_rfl, Nat.le_refl _, Nat.le_refl _⟩
  | succ fuel ih =>
    obtain ⟨next, hblock, h⟩ := bind_eq_ok.mp h
    cases next with
    | inl next =>
      have hrest := ih h
      have hge := hrest.steps_ge
      have hle := hrest.steps_le
      exact ⟨(effects_runBlock hblock).trans hrest.effects, by omega, by omega⟩
    | inr next =>
      cases h
      exact ⟨(ending_runBlock hblock).1, Nat.le_succ _, by simp⟩

/-- A run that has ended has not run out of fuel. -/
theorem proceed_eq_inr {fuel steps : Nat} {r : Execution}
    (h : proceed g s handler args fuel steps p m = .ok (.inr r)) : r.outcome ≠ .outOfFuel := by
  induction fuel generalizing steps p m with
  | zero => cases h
  | succ fuel ih =>
    obtain ⟨next, hblock, h⟩ := bind_eq_ok.mp h
    cases next with
    | inl next => exact ih h
    | inr next =>
      cases h
      exact (ending_runBlock hblock).2

/-- How a run with some fuel ends is settled by where it stands after as many blocks. -/
theorem runFrom_eq_proceed (fuel steps : Nat) (p : Position) (m : Machine) :
    runFrom g s handler args fuel steps p m =
      proceed g s handler args fuel steps p m >>= resume g s handler args 0 (steps + fuel) :=
  runFrom_add fuel 0 steps p m

theorem runFrom_eq_error {fuel steps : Nat} {e : Error}
    (h : runFrom g s handler args fuel steps p m = .error e) :
    proceed g s handler args fuel steps p m = .error e := by
  rw [runFrom_eq_proceed] at h
  cases hproceed : proceed g s handler args fuel steps p m with
  | error e' =>
    rw [bind_of_error hproceed] at h
    cases h
    rfl
  | ok next =>
    rw [bind_of_ok hproceed] at h
    cases next with
    | inl next => cases h
    | inr r => cases h

/-- A run that was not cut off has ended, one that was cut off has used its fuel. -/
theorem runFrom_eq_ok {fuel steps : Nat} {r : Execution}
    (h : runFrom g s handler args fuel steps p m = .ok r) :
    (r.outcome ≠ .outOfFuel ∧ proceed g s handler args fuel steps p m = .ok (.inr r)) ∨
      ∃ q m', proceed g s handler args fuel steps p m = .ok (.inl (q, m')) ∧
        r = { effects := m'.effects, outcome := .outOfFuel, steps := steps + fuel } := by
  rw [runFrom_eq_proceed] at h
  obtain ⟨next, hproceed, h⟩ := bind_eq_ok.mp h
  cases next with
  | inl next =>
    cases h
    exact .inr ⟨next.1, next.2, hproceed, rfl⟩
  | inr r' =>
    cases h
    exact .inl ⟨proceed_eq_inr hproceed, hproceed⟩

end Execution

namespace Graph

open Execution

/-- The schedule and the run after it. -/
theorem execute_eq_ok {g : Graph} {args : List Literal} {handler : Handler} {fuel : Nat}
    {r : Execution} (h : g.execute args handler fuel = .ok r) :
    ∃ s, schedule g = .ok s ∧ runFrom g s handler args fuel 0
      { block := Anchor.startBlock, via := none } (Machine.initial g) = .ok r :=
  bind_eq_ok.mp h

/-- More fuel does not change a run that returned or trapped, nor one that failed. A run that was
cut off has used its fuel; a longer run has shown at least as much, in the same order, and entered
at least as many blocks. No run enters more blocks than it has fuel. -/
theorem execute_more_fuel (g : Graph) (args : List Literal) (handler : Handler) (fuel fuel' : Nat)
    (hle : fuel ≤ fuel') :
    (∀ r, g.execute args handler fuel = .ok r → r.outcome ≠ .outOfFuel →
      g.execute args handler fuel' = .ok r) ∧
    (∀ r, g.execute args handler fuel = .ok r → r.outcome = .outOfFuel → r.steps = fuel ∧
      ∀ r', g.execute args handler fuel' = .ok r' →
        r.effects.toList <+: r'.effects.toList ∧ fuel ≤ r'.steps) ∧
    (∀ e, g.execute args handler fuel = .error e → g.execute args handler fuel' = .error e) ∧
    ∀ r, g.execute args handler fuel = .ok r → r.steps ≤ fuel := by
  obtain ⟨more, rfl⟩ := Nat.exists_eq_add_of_le hle
  refine ⟨fun r h hended => ?_, fun r h hcut => ?_, fun e h => ?_, fun r h => ?_⟩
  · obtain ⟨s, hs, hrun⟩ := execute_eq_ok h
    rcases runFrom_eq_ok hrun with ⟨-, hproceed⟩ | ⟨q, m, -, rfl⟩
    · exact (bind_of_ok hs).trans ((runFrom_add fuel more 0 _ _).trans (bind_of_ok hproceed))
    · exact absurd rfl hended
  · obtain ⟨s, hs, hrun⟩ := execute_eq_ok h
    rcases runFrom_eq_ok hrun with ⟨hended, -⟩ | ⟨q, m, hproceed, rfl⟩
    · exact absurd hcut hended
    · refine ⟨Nat.zero_add fuel, fun r' h' => ?_⟩
      have hresume : runFrom g s handler args more (0 + fuel) q m = .ok r' :=
        ((bind_of_ok hs).trans
          ((runFrom_add fuel more 0 _ _).trans (bind_of_ok hproceed))).symm.trans h'
      have hcontinues := runFrom_continues hresume
      exact ⟨hcontinues.effects, Nat.zero_add fuel ▸ hcontinues.steps_ge⟩
  · cases hs : schedule g with
    | error e' =>
      cases (bind_of_error hs).symm.trans h
      exact bind_of_error hs
    | ok s =>
      have hproceed := runFrom_eq_error ((bind_of_ok hs).symm.trans h)
      exact (bind_of_ok hs).trans ((runFrom_add fuel more 0 _ _).trans (bind_of_error hproceed))
  · obtain ⟨s, hs, hrun⟩ := execute_eq_ok h
    exact Nat.zero_add fuel ▸ (runFrom_continues hrun).steps_le

/-- Calls `tick` with its argument, and again with one less, down to zero. -/
def ticking : List Edit :=
  [.addNode (.proj .memory) .memory (some Anchor.startBlock) [Anchor.start],
    .addNode (.proj (.argument 0)) (.int .i32) (some Anchor.startBlock) [Anchor.start],
    .addNode (.const (.int .i32 1)) (.int .i32) (some Anchor.startBlock) [],
    .addNode (.const (.int .i32 0)) (.int .i32) (some Anchor.startBlock) [],
    .addNode .jump .control (some Anchor.startBlock) [],
    .addNode .block .block none [9],
    .addNode .phi .memory (some 10) [5],
    .addNode .phi (.int .i32) (some 10) [6],
    .addNode (.call "tick") .tuple (some 10) [11, 12],
    .addNode (.proj .memory) .memory (some 10) [13],
    .addNode (.binary .sub) (.int .i32) (some 10) [12, 7],
    .addNode (.cmp .equal) .bool (some 10) [12, 8],
    .addNode .cond .tuple (some 10) [16],
    .addNode (.proj (.arm true)) .control (some 10) [17],
    .addNode (.proj (.arm false)) .control (some 10) [17],
    .addOperand 10 19,
    .addOperand 11 14,
    .addOperand 12 15,
    .addNode .block .block none [18],
    .addNode .ret .control (some 20) [14, 12],
    .addOperand Anchor.endBlock 21]

/-- Watched for three blocks, for nine and for fifty; and without its argument. -/
theorem execute_more_fuel_ticking :
    ∃ g cut whole e, ticking.foldlM Graph.apply (.new "f" 1) = .ok g ∧
      g.execute [.int .i32 2] .default 3 = .ok cut ∧ cut.outcome = .outOfFuel ∧ cut.steps = 3 ∧
      g.execute [.int .i32 2] .default 9 = .ok whole ∧
      whole.outcome = .returned [.int .i32 0] ∧ whole.steps = 5 ∧ whole.steps ≤ 9 ∧
      cut.effects.toList <+: whole.effects.toList ∧ 3 ≤ whole.steps ∧
      g.execute [.int .i32 2] .default 50 = .ok whole ∧
      g.execute [] .default 1 = .error e ∧ g.execute [] .default 9 = .error e := by
  have hok : (do
      let g ← ticking.foldlM Graph.apply (.new "f" 1)
      let cut ← g.execute [.int .i32 2] .default 3
      let whole ← g.execute [.int .i32 2] .default 9
      return (decide (cut.outcome = Outcome.outOfFuel),
        decide (whole.outcome = Outcome.returned [.int .i32 0] ∧ whole.steps = 5),
        (g.execute [] .default 1).isOk)) = .ok (true, true, false) := by
    decide +kernel
  obtain ⟨g, hg, hok⟩ := bind_eq_ok.mp hok
  obtain ⟨cut, hcut, hok⟩ := bind_eq_ok.mp hok
  obtain ⟨whole, hwhole, hok⟩ := bind_eq_ok.mp hok
  obtain ⟨hout, hok⟩ := Prod.mk.inj (Except.ok.inj hok)
  obtain ⟨hended, hfails⟩ := Prod.mk.inj hok
  have hout := of_decide_eq_true hout
  obtain ⟨hended, hsteps⟩ := of_decide_eq_true hended
  obtain ⟨e, he⟩ := exists_of_not_isOk hfails
  obtain ⟨-, hlonger, -, -⟩ :=
    execute_more_fuel g [.int .i32 2] .default 3 9 (by decide)
  obtain ⟨hstays, -, -, hbound⟩ :=
    execute_more_fuel g [.int .i32 2] .default 9 50 (by decide)
  obtain ⟨-, -, hfails, -⟩ := execute_more_fuel g [] .default 1 9 (by decide)
  obtain ⟨hspent, hlonger⟩ := hlonger cut hcut hout
  obtain ⟨hbegins, hge⟩ := hlonger whole hwhole
  exact ⟨g, cut, whole, e, hg, hcut, hout, hspent, hwhole, hended, hsteps, hbound whole hwhole,
    hbegins, hge, hstays whole hwhole (by simp [hended]), he, hfails e he⟩

end Graph

end SeaOfNodes
