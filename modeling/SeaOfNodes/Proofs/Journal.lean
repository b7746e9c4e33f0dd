import SeaOfNodes.Execution
import SeaOfNodes.Proofs.Loops

/-!
What happens inside a run.

A run shows its effects and how it ended. `Graph.journal` is the same run with a journal of what it
does on the way: the blocks it enters, the edges it follows, the values it stores. Leaving the
journal out gives the run back (`execute_eq_journal`), so that what is proved about every note of a
journal is proved about the run.
-/

namespace SeaOfNodes

namespace Execution

/-- Something that happens inside a run. -/
inductive Note where
  | entered (block : NodeId)
  | followed (edge : NodeId)
  | stored (node : NodeId) (value : Literal)
deriving DecidableEq

/-- Puts a note in front of a journal. -/
def Note.before {α : Type} (note : Note) : Except Error (List Note × α) → Except Error (List Note × α)
  | .ok (notes, a) => .ok (note :: notes, a)
  | .error e => .error e

/-- `runBody` with a journal. -/
def journalBody (handler : Handler) (args : List Literal) :
    Schedule → Machine → Option NodeId → Except Error (List Note × Ending)
  | [], m, exit => .ok ([], .through m exit)
  | (n, x) :: rest, m, exit => do
    match ← choose args m n x with
    | .value v => (Note.stored n v).before (journalBody handler args rest (← m.set n v) exit)
    | .nothing => journalBody handler args rest m exit
    | .leave => journalBody handler args rest m (some n)
    | .write a v => journalBody handler args rest (m.store a v) exit
    | .invoke callee vs =>
      let answer := handler m.effects callee vs
      let seen := { m with effects := m.effects.push (.call callee vs) }
      (Note.stored n answer).before (journalBody handler args rest (← seen.set n answer) exit)
    | .finish o => .ok ([], .finished m o)

/-- The values that arrive at some phis along predecessor `k`. -/
def arrivals (phis : Schedule) (k : Nat) (m : Machine) :
    Except Error (List (NodeId × Option Literal)) :=
  phis.mapM fun (n, x) => do
    match x.operands[k]? with
    | none => return (n, none)
    | some o => return (n, ← m.get? o)

/-- Stores the values that arrived. -/
def storeAll (incoming : List (NodeId × Option Literal)) (m : Machine) : Except Error Machine :=
  incoming.foldlM (fun m (n, v) =>
    match v with
    | none => .error (.undefinedValue n)
    | some v => m.set n v) m

theorem runPhis_eq (phis : Schedule) (k : Nat) (m : Machine) :
    runPhis phis k m = arrivals phis k m >>= fun incoming => storeAll incoming m := rfl

/-- `runPhis` with a journal. -/
def journalPhis (phis : Schedule) (k : Nat) (m : Machine) : Except Error (List Note × Machine) := do
  let incoming ← arrivals phis k m
  return (incoming.filterMap fun e => e.2.map (.stored e.1), ← storeAll incoming m)

/-- Sets the phis of the block that is entered. -/
def arrive (s : Schedule) (p : Position) (m : Machine) : Except Error Machine :=
  match p.via with
  | none => .ok m
  | some k => runPhis (s.phis p.block) k m

/-- Leaves a block the way its members decided. -/
def depart (g : Graph) (block : NodeId) :
    Ending → Except Error ((Position × Machine) ⊕ (Machine × Outcome))
  | .finished m o => .ok (.inr (m, o))
  | .through _ none => .error (.malformed (.noExit block))
  | .through m (some edge) => do return .inl (← follow g edge, m)

theorem runBlock_eq (g : Graph) (s : Schedule) (handler : Handler) (args : List Literal)
    (p : Position) (m : Machine) :
    runBlock g s handler args p m = (do
      let m ← arrive s p m
      let ending ← runBody handler args (s.body p.block) m none
      depart g p.block ending) := by
  unfold runBlock arrive
  cases p.via <;> rfl

/-- The edge control leaves a block by. -/
def Ending.notes : Ending → List Note
  | .through _ (some edge) => [.followed edge]
  | _ => []

/-- `arrive` with a journal. -/
def journalArrive (s : Schedule) (p : Position) (m : Machine) :
    Except Error (List Note × Machine) :=
  match p.via with
  | none => .ok ([], m)
  | some k => journalPhis (s.phis p.block) k m

/-- `runBlock` with a journal. -/
def journalBlock (g : Graph) (s : Schedule) (handler : Handler) (args : List Literal)
    (p : Position) (m : Machine) :
    Except Error (List Note × ((Position × Machine) ⊕ (Machine × Outcome))) := do
  let (first, m) ← journalArrive s p m
  let (notes, ending) ← journalBody handler args (s.body p.block) m none
  return (.entered p.block :: first ++ notes ++ ending.notes, ← depart g p.block ending)

/-- `runFrom` with a journal. -/
def journalFrom (g : Graph) (s : Schedule) (handler : Handler) (args : List Literal) :
    (fuel steps : Nat) → Position → Machine → Except Error (List Note × Execution)
  | 0, steps, _, m => .ok ([], { effects := m.effects, outcome := .outOfFuel, steps })
  | fuel + 1, steps, p, m => do
    let (notes, next) ← journalBlock g s handler args p m
    match next with
    | .inl (p, m) =>
      let (later, e) ← journalFrom g s handler args fuel (steps + 1) p m
      return (notes ++ later, e)
    | .inr (m, outcome) => return (notes, { effects := m.effects, outcome, steps := steps + 1 })

end Execution

/-- Runs the function and keeps a journal. -/
def Graph.journal (g : Graph) (args : List Literal) (handler : Handler) (fuel : Nat) :
    Except Error (List Execution.Note × Execution) := do
  let s ← Execution.schedule g
  Execution.journalFrom g s handler args fuel 0 { block := Anchor.startBlock, via := none }
    (Execution.Machine.initial g)

/-! ### The journal makes no difference -/

namespace Execution

variable {g : Graph} {s : Schedule} {handler : Handler} {args : List Literal}

theorem Note.map_snd_before {α : Type} (note : Note) (x : Except Error (List Note × α)) :
    (note.before x).map Prod.snd = x.map Prod.snd := by
  cases x <;> rfl

theorem runBody_eq_journal (body : Schedule) (m : Machine) (exit : Option NodeId) :
    runBody handler args body m exit = (journalBody handler args body m exit).map Prod.snd := by
  induction body generalizing m exit with
  | nil => rfl
  | cons e rest ih =>
    obtain ⟨n, x⟩ := e
    unfold runBody journalBody
    cases choose args m n x with
    | error e => rfl
    | ok action =>
      cases action with
      | value v =>
        cases hset : m.set n v with
        | error e => simp [hset, bind, Except.bind, Except.map]
        | ok m' =>
          simp only [hset, bind, Except.bind]
          rw [Note.map_snd_before, ih]
      | invoke callee vs =>
        simp only [bind, Except.bind]
        split
        next => rfl
        next m' _ => rw [Note.map_snd_before, ih]
      | nothing => exact ih m exit
      | leave => exact ih m (some n)
      | write a v => exact ih (m.store a v) exit
      | finish o => rfl

theorem runPhis_eq_journal (phis : Schedule) (k : Nat) (m : Machine) :
    runPhis phis k m = (journalPhis phis k m).map Prod.snd := by
  rw [runPhis_eq, journalPhis]
  cases arrivals phis k m with
  | error e => rfl
  | ok incoming =>
    show storeAll incoming m = Except.map Prod.snd (storeAll incoming m >>= _)
    cases storeAll incoming m <;> rfl

theorem arrive_eq_journal (p : Position) (m : Machine) :
    arrive s p m = (journalArrive s p m).map Prod.snd := by
  unfold arrive journalArrive
  cases p.via with
  | none => rfl
  | some k => exact runPhis_eq_journal _ k m

theorem runBlock_eq_journal (p : Position) (m : Machine) :
    runBlock g s handler args p m = (journalBlock g s handler args p m).map Prod.snd := by
  rw [runBlock_eq, journalBlock, arrive_eq_journal]
  cases journalArrive s p m with
  | error e => rfl
  | ok r =>
    show (runBody handler args (s.body p.block) r.2 none >>= _) =
      Except.map _ (journalBody handler args (s.body p.block) r.2 none >>= _)
    rw [runBody_eq_journal]
    cases journalBody handler args (s.body p.block) r.2 none with
    | error e => rfl
    | ok q =>
      show depart g p.block q.2 = Except.map _ (depart g p.block q.2 >>= _)
      cases depart g p.block q.2 <;> rfl

theorem runFrom_eq_journal (fuel steps : Nat) (p : Position) (m : Machine) :
    runFrom g s handler args fuel steps p m =
      (journalFrom g s handler args fuel steps p m).map Prod.snd := by
  induction fuel generalizing steps p m with
  | zero => rfl
  | succ fuel ih =>
    unfold runFrom journalFrom
    rw [runBlock_eq_journal]
    cases journalBlock g s handler args p m with
    | error e => rfl
    | ok r =>
      obtain ⟨notes, next⟩ := r
      cases next with
      | inr r => rfl
      | inl r =>
        show runFrom g s handler args fuel (steps + 1) r.1 r.2 = _
        rw [ih]
        show _ = Except.map _ (journalFrom g s handler args fuel (steps + 1) r.1 r.2 >>= _)
        cases journalFrom g s handler args fuel (steps + 1) r.1 r.2 <;> rfl

end Execution

/-! ### What a journal lists -/

namespace Execution

variable {g : Graph} {s : Schedule} {handler : Handler} {args : List Literal}

/-- Whether a block is entered. -/
def Note.isEntry : Note → Bool
  | .entered _ => true
  | _ => false

theorem journalBody_isEntry {body : Schedule} {m : Machine} {exit : Option NodeId}
    {notes : List Note} {ending : Ending}
    (h : journalBody handler args body m exit = .ok (notes, ending)) :
    ∀ note ∈ notes, note.isEntry = false := by
  induction body generalizing m exit notes with
  | nil =>
    cases h
    intro note hnote
    cases hnote
  | cons e rest ih =>
    obtain ⟨n, x⟩ := e
    obtain ⟨action, -, h⟩ := bind_eq_ok.mp h
    have hstored {v : Literal} {m' : Machine} (h : (Note.stored n v).before
        (journalBody handler args rest m' exit) = .ok (notes, ending)) :
        ∀ note ∈ notes, note.isEntry = false := by
      cases hrun : journalBody handler args rest m' exit with
      | error e => simp [hrun, Note.before] at h
      | ok r =>
        rw [hrun] at h
        cases h
        intro note hnote
        rcases List.mem_cons.mp hnote with rfl | hnote
        · rfl
        · exact ih hrun note hnote
    cases action with
    | value v =>
      obtain ⟨m', -, h⟩ := bind_eq_ok.mp h
      exact hstored h
    | invoke callee vs =>
      obtain ⟨m', -, h⟩ := bind_eq_ok.mp h
      exact hstored h
    | nothing => exact ih h
    | leave => exact ih h
    | write address v => exact ih h
    | finish o =>
      cases h
      intro note hnote
      cases hnote

theorem journalArrive_isEntry {p : Position} {m m' : Machine} {notes : List Note}
    (h : journalArrive s p m = .ok (notes, m')) : ∀ note ∈ notes, note.isEntry = false := by
  unfold journalArrive at h
  split at h
  next =>
    cases h
    intro note hnote
    cases hnote
  next k _ =>
    obtain ⟨incoming, -, h⟩ := bind_eq_ok.mp h
    obtain ⟨m₂, -, h⟩ := bind_eq_ok.mp h
    cases h
    intro note hnote
    obtain ⟨e, -, hv⟩ := List.mem_filterMap.mp hnote
    obtain ⟨v, -, rfl⟩ := Option.map_eq_some_iff.mp hv
    rfl

/-- The journal of a block begins with its entry and lists no other. -/
theorem countP_journalBlock {p : Position} {m : Machine} {notes : List Note}
    {next : (Position × Machine) ⊕ (Machine × Outcome)}
    (h : journalBlock g s handler args p m = .ok (notes, next)) : notes.countP Note.isEntry = 1 := by
  obtain ⟨⟨first, m₁⟩, harrive, h⟩ := bind_eq_ok.mp h
  obtain ⟨⟨inside, ending⟩, hrun, h⟩ := bind_eq_ok.mp h
  obtain ⟨next', hdepart, h⟩ := bind_eq_ok.mp h
  cases h
  have hzero {l : List Note} (hl : ∀ note ∈ l, note.isEntry = false) :
      l.countP Note.isEntry = 0 := List.countP_eq_zero.mpr fun note hnote => by simp [hl note hnote]
  have hending : ∀ note ∈ ending.notes, note.isEntry = false := by
    intro note hnote
    cases ending with
    | finished m₂ o => cases hnote
    | through m₂ exit =>
      cases exit with
      | none => cases hnote
      | some edge =>
        obtain rfl := List.mem_singleton.mp hnote
        rfl
  show List.countP Note.isEntry (.entered p.block :: first ++ inside ++ ending.notes) = 1
  rw [List.countP_append, List.countP_append, List.countP_cons, hzero (journalArrive_isEntry harrive),
    hzero (journalBody_isEntry hrun), hzero hending]
  rfl

/-- The steps of a run are the entries in its journal. -/
theorem steps_eq_countP {fuel steps : Nat} {p : Position} {m : Machine} {notes : List Note}
    {e : Execution} (h : journalFrom g s handler args fuel steps p m = .ok (notes, e)) :
    e.steps = steps + notes.countP Note.isEntry := by
  induction fuel generalizing steps p m notes with
  | zero =>
    cases h
    rfl
  | succ fuel ih =>
    obtain ⟨⟨here, next⟩, hblock, h⟩ := bind_eq_ok.mp h
    have hone := countP_journalBlock hblock
    cases next with
    | inr r =>
      cases h
      rw [hone]
    | inl r =>
      obtain ⟨⟨later, e'⟩, hlater, h⟩ := bind_eq_ok.mp h
      cases h
      rw [List.countP_append, hone, ih hlater]
      omega

end Execution

/-- A run is a journaled run without its journal. -/
theorem Graph.execute_eq_journal (g : Graph) (args : List Literal) (handler : Handler)
    (fuel : Nat) : g.execute args handler fuel = (g.journal args handler fuel).map Prod.snd := by
  unfold Graph.execute Graph.journal
  cases Execution.schedule g with
  | error e => rfl
  | ok s => exact Execution.runFrom_eq_journal fuel 0 _ _

end SeaOfNodes
