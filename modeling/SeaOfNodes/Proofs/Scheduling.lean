import SeaOfNodes.Proofs.Attribution
import SeaOfNodes.Proofs.Settling

/-!
Functions may be optimized in any order, and at the same time.

A task works on its function alone, in stages, and makes known what a stage came to in actions on
what all tasks share: it appends events, raises the flag and enters its name in lists. Actions take
effect one at a time, in turns that a schedule hands out. What all tasks share is then the same as if
they had run one after the other, up to the order of events about different functions
(`Progress.Like`): whatever happened so far, running what is left in order leads to the same end,
and each turn keeps this, since actions of different tasks commute.
-/

namespace SeaOfNodes

/-! ### Logs -/

theorem insertAscending_comm (a b : String) (l : List String) :
    insertAscending a (insertAscending b l) = insertAscending b (insertAscending a l) := by
  have htrans {x y z : String} : x < y → y < z → x < z := String.lt_trans
  have hasymm {x y : String} : x < y → ¬ y < x := String.lt_asymm
  have heq {x y : String} : ¬ x < y → ¬ y < x → x = y := fun h h' =>
    String.le_antisymm (String.not_lt.mp h') (String.not_lt.mp h)
  induction l with
  | nil => grind [insertAscending]
  | cons c l ih => grind [insertAscending]

namespace EventLog

/-- The logs differ only in how the events of different functions are interleaved. -/
def Like (l m : EventLog) : Prop :=
  ∀ f : Option String, l.events.toList.filter (·.function == f) =
    m.events.toList.filter (·.function == f)

variable {l m k : EventLog}

theorem Like.refl (l : EventLog) : l.Like l := fun _ => rfl

theorem Like.symm (h : l.Like m) : m.Like l := fun f => (h f).symm

theorem Like.trans (h : l.Like m) (h' : m.Like k) : l.Like k := fun f => (h f).trans (h' f)

theorem toList_push (l : EventLog) (e : Event) :
    (l.push e).events.toList = l.events.toList ++ [e] := Array.toList_push

theorem Like.push (h : l.Like m) (e : Event) : (l.push e).Like (m.push e) := by
  intro f
  rw [toList_push, toList_push, List.filter_append, List.filter_append, h f]

theorem push_comm (l : EventLog) {e e' : Event} (h : e.function ≠ e'.function) :
    ((l.push e).push e').Like ((l.push e').push e) := by
  intro f
  simp only [toList_push, List.append_assoc, List.filter_append, List.cons_append, List.nil_append]
  congr 1
  by_cases he : e.function = f
  · have he' : e'.function ≠ f := fun h' => h (he.trans h'.symm)
    simp [he, he']
  · simp [List.filter_cons, he]

/-- Logs that are alike have the same events. -/
theorem Like.perm (h : l.Like m) : l.events.toList.Perm m.events.toList := by
  rw [List.perm_iff_count]
  intro e
  have hcount (k : EventLog) :
      (k.events.toList.filter (·.function == e.function)).count e = k.events.toList.count e :=
    List.count_filter (by simp)
  rw [← hcount l, ← hcount m, h e.function]

theorem Like.tally (h : l.Like m) : l.tally = m.tally := by
  have hcount (kind : EventKind) : l.countKind kind = m.countKind kind := h.perm.countP_eq _
  simp only [EventLog.tally, hcount]

theorem Like.about (h : l.Like m) (f : String) : l.about f = m.about f := h (some f)

end EventLog

/-! ### Actions -/

/-- The sessions agree but for how the events of different functions are interleaved. -/
structure Session.Like (s t : Session) : Prop where
  log : s.log.Like t.log
  rest : { s with log := {} } = { t with log := {} }

namespace Pipeline

/-- What a task does to what all tasks share. -/
inductive Action where
  | record (e : Event)
  | raise
  | markChanged (function : String)
  | markProcessed (function : String)
  | markFailed (function : String)
deriving DecidableEq

def Action.perform : Action → Progress → Progress
  | record e, p => { p with session := { p.session with log := p.session.log.push e } }
  | raise, p => { p with changed := true }
  | markChanged f, p => { p with session := p.session.markChanged f }
  | markProcessed f, p =>
    { p with session := { p.session with processed := insertAscending f p.session.processed } }
  | markFailed f, p =>
    { p with session := { p.session with failed := insertAscending f p.session.failed } }

def performAll (actions : List Action) (p : Progress) : Progress :=
  actions.foldl (fun p a => a.perform p) p

/-- What the action records is about `f`. -/
def Action.Concerns (f : String) (a : Action) : Prop := ∀ e, a = .record e → e.function = some f

/-- The two agree but for how the events of different functions are interleaved. -/
structure Progress.Like (p q : Progress) : Prop where
  session : p.session.Like q.session
  rest : { p with session := {} } = { q with session := {} }

namespace Progress.Like

variable {p q r : Progress}

theorem refl (p : Progress) : p.Like p := ⟨⟨.refl _, rfl⟩, rfl⟩

theorem symm (h : p.Like q) : q.Like p :=
  ⟨⟨h.session.log.symm, h.session.rest.symm⟩, h.rest.symm⟩

theorem trans (h : p.Like q) (h' : q.Like r) : p.Like r :=
  ⟨⟨h.session.log.trans h'.session.log, h.session.rest.trans h'.session.rest⟩,
    h.rest.trans h'.rest⟩

theorem perform (h : p.Like q) (a : Action) : (a.perform p).Like (a.perform q) := by
  obtain ⟨⟨hlog, hsession⟩, hrest⟩ := h
  simp only [Session.mk.injEq, Progress.mk.injEq] at hsession hrest
  cases a with
  | record e => exact ⟨⟨hlog.push e, by simp [Action.perform, hsession]⟩, by simp [Action.perform, hrest]⟩
  | raise => exact ⟨⟨hlog, by simp [Action.perform, hsession]⟩, by simp [Action.perform, hrest]⟩
  | markChanged f | markProcessed f | markFailed f =>
    exact ⟨⟨hlog, by simp [Action.perform, Session.markChanged, hsession]⟩,
      by simp [Action.perform, hrest]⟩

theorem performAll (h : p.Like q) (actions : List Action) :
    (performAll actions p).Like (performAll actions q) := by
  induction actions generalizing p q with
  | nil => exact h
  | cons a actions ih => exact ih (h.perform a)

end Progress.Like

/-- Actions of different tasks commute. -/
theorem Action.perform_comm {f f' : String} (hne : f ≠ f') {a b : Action} (ha : a.Concerns f)
    (hb : b.Concerns f') (p : Progress) : (a.perform (b.perform p)).Like (b.perform (a.perform p)) := by
  cases a with
  | record e =>
    cases b with
    | record e' =>
      refine ⟨⟨EventLog.push_comm _ fun h => hne ?_, rfl⟩, rfl⟩
      rw [ha e rfl, hb e' rfl] at h
      exact (Option.some.inj h).symm
    | _ => exact .refl _
  | raise => cases b <;> exact .refl _
  | markChanged f =>
    cases b with
    | markChanged f' =>
      simp only [perform, Session.markChanged, insertAscending_comm f f']
      exact .refl _
    | _ => exact .refl _
  | markProcessed f =>
    cases b with
    | markProcessed f' =>
      simp only [perform, insertAscending_comm f f']
      exact .refl _
    | _ => exact .refl _
  | markFailed f =>
    cases b with
    | markFailed f' =>
      simp only [perform, insertAscending_comm f f']
      exact .refl _
    | _ => exact .refl _

/-- An action may be performed before what other tasks do. -/
theorem performAll_perform {f : String} {a : Action} (ha : a.Concerns f) {actions : List Action}
    (h : ∀ b ∈ actions, ∃ f', f ≠ f' ∧ b.Concerns f') (p : Progress) :
    (performAll actions (a.perform p)).Like (a.perform (performAll actions p)) := by
  induction actions generalizing p with
  | nil => exact .refl _
  | cons b actions ih =>
    obtain ⟨f', hne, hb⟩ := h b List.mem_cons_self
    have hswap := (Action.perform_comm hne ha hb p).symm.performAll actions
    exact hswap.trans (ih (fun c hc => h c (List.mem_cons_of_mem b hc)) (b.perform p))

/-! ### Tasks in turns -/

/-- A part of a task that concerns its function alone. -/
inductive Stage where
  | pass (p : Pass)
  | processed
  | verify

/-- The function after a stage, and what is then made known of it, in order. -/
def Stage.run (config : Config) (g : Graph) : Stage → Except Error (Graph × List Action)
  | pass p =>
    if p.isGlobal || !p.shouldRun g then .ok (g, [])
    else
      match p.onFunction config { graph := g } with
      | .error e _ => .error e
      | .ok changed d =>
        let marks := if changed then [.raise, .markChanged g.name] else []
        .ok (d.graph, d.log.events.toList.map .record ++ marks)
  | processed => .ok (g, [.markProcessed g.name])
  | verify =>
    match check config { graph := g } with
    | .error e _ => .error e
    | .ok verified d =>
      let marks := if verified then [] else [.markFailed g.name]
      .ok (d.graph, marks ++ d.log.events.toList.map .record)

def stages (passes : List Pass) : List Stage := passes.map .pass ++ [.processed, .verify]

/-- The function after some stages, and all that is made known of it. -/
def runStages (config : Config) : List Stage → Graph → Except Error (Graph × List Action)
  | [], g => .ok (g, [])
  | stage :: rest, g => do
    let (g, first) ← stage.run config g
    let (g, later) ← runStages config rest g
    return (g, first ++ later)

/-- A task under way. -/
structure Worker where
  graph : Graph
  /-- What the last stage has still to make known. -/
  pending : List Action := []
  stages : List Stage

namespace Worker

def isDone (w : Worker) : Bool := w.pending.isEmpty && w.stages.isEmpty

/-- Performs the next action, or runs the next stage if none is pending. -/
def turn (config : Config) (w : Worker) (p : Progress) : Except Error (Worker × Progress) :=
  match w.pending, w.stages with
  | a :: rest, _ => .ok ({ w with pending := rest }, a.perform p)
  | [], [] => .ok (w, p)
  | [], stage :: rest => do
    let (graph, pending) ← stage.run config w.graph
    return ({ graph, pending, stages := rest }, p)

/-- The function as the task will leave it, and the actions it has still to perform. -/
def plan (config : Config) (w : Worker) : Except Error (Graph × List Action) :=
  (runStages config w.stages w.graph).map fun (g, later) => (g, w.pending ++ later)

end Worker

/-- Tasks under way. -/
structure State where
  workers : List Worker
  progress : Progress

namespace State

def isDone (s : State) : Bool := s.workers.all Worker.isDone

def start (passes : List Pass) (p : Program) : State where
  workers := p.functions.map fun g => { graph := g, stages := stages passes }
  progress := {}

/-- Gives task `i` a turn. -/
def turn (config : Config) (s : State) (i : Nat) : Except Error State :=
  match s.workers[i]? with
  | none => .ok s
  | some w => do
    let (w, progress) ← w.turn config s.progress
    return { workers := s.workers.set i w, progress }

/-- Gives the tasks turns in the order of a schedule. -/
def play (config : Config) (s : State) (schedule : List Nat) : Except Error State :=
  schedule.foldlM (turn config) s

end State

/-- A turn either leaves the plan of a task and a stage less to run, or takes the first action of the
plan and performs it. -/
theorem Worker.turn_of_plan {config : Config} {w : Worker} {g : Graph} {actions : List Action}
    (hplan : w.plan config = .ok (g, actions)) (p : Progress) :
    ∃ w' p', w.turn config p = .ok (w', p') ∧
      (w.isDone = true ∧ w' = w ∧ p' = p ∨
        w'.plan config = .ok (g, actions) ∧ p' = p ∧ w'.stages.length < w.stages.length ∨
        ∃ a rest, actions = a :: rest ∧ w'.plan config = .ok (g, rest) ∧ p' = a.perform p ∧
          w'.stages = w.stages) := by
  obtain ⟨graph, pending, stages⟩ := w
  obtain ⟨⟨g', later⟩, hrun, hlater⟩ : ∃ r, runStages config stages graph = .ok r ∧
      (r.1, pending ++ r.2) = (g, actions) := by
    unfold plan at hplan
    cases hrun : runStages config stages graph with
    | error e =>
      rw [hrun] at hplan
      cases hplan
    | ok r =>
      rw [hrun] at hplan
      exact ⟨r, rfl, Except.ok.inj hplan⟩
  cases hlater
  cases pending with
  | cons a rest =>
    refine ⟨_, _, rfl, .inr (.inr ⟨a, rest ++ later, rfl, ?_, rfl, rfl⟩)⟩
    unfold plan
    rw [hrun]
    rfl
  | nil =>
    cases stages with
    | nil => exact ⟨_, _, rfl, .inl ⟨rfl, rfl, rfl⟩⟩
    | cons stage rest =>
      obtain ⟨⟨g₁, first⟩, hstage, hrun⟩ := bind_eq_ok.mp hrun
      obtain ⟨⟨g₂, more⟩, hrest, hrun⟩ := bind_eq_ok.mp hrun
      cases hrun
      refine ⟨{ graph := g₁, pending := first, stages := rest }, p, bind_of_ok hstage,
        .inr (.inl ⟨?_, rfl, Nat.lt_succ_self _⟩)⟩
      unfold plan
      rw [hrest]
      rfl

namespace State

variable {config : Config} {graphs : List Graph} {result : Progress} {s : State}
  {plans : List (Graph × List Action)}

/-- The tasks have the plans given, and carrying them out in order leads to the end given. -/
structure Leads (config : Config) (graphs : List Graph) (result : Progress) (s : State)
    (plans : List (Graph × List Action)) : Prop where
  plan : s.workers.map (Worker.plan config) = plans.map .ok
  graphs : plans.map Prod.fst = graphs
  concerns : ∀ plan ∈ plans, ∀ a ∈ plan.2, a.Concerns plan.1.name
  result : (performAll (plans.flatMap Prod.snd) s.progress).Like result

/-- How many turns are left. -/
def turnsLeft (s : State) (plans : List (Graph × List Action)) : Nat :=
  (s.workers.map fun w => w.stages.length).sum + (plans.flatMap Prod.snd).length

/-- A task that is given a turn has a plan. -/
theorem Leads.exists_plan (h : Leads config graphs result s plans) {i : Nat} {w : Worker}
    (hw : s.workers[i]? = some w) :
    ∃ plan, plans[i]? = some plan ∧ w.plan config = .ok plan := by
  have hplan := congrArg (·[i]?) h.plan
  simp only [List.getElem?_map, hw, Option.map_some] at hplan
  cases hi : plans[i]? with
  | none =>
    rw [hi] at hplan
    cases hplan
  | some plan =>
    rw [hi] at hplan
    exact ⟨plan, rfl, Option.some.inj hplan⟩

/-- The first action of a plan may be performed before the plans of other tasks. -/
theorem performAll_take (hnames : (plans.map fun plan => plan.1.name).Nodup)
    (hconcerns : ∀ plan ∈ plans, ∀ a ∈ plan.2, a.Concerns plan.1.name)
    {before after : List (Graph × List Action)} {g : Graph} {a : Action} {rest : List Action}
    (hplans : plans = before ++ (g, a :: rest) :: after) (p : Progress) :
    (performAll ((before ++ (g, rest) :: after).flatMap Prod.snd) (a.perform p)).Like
      (performAll (plans.flatMap Prod.snd) p) := by
  subst hplans
  have ha : a.Concerns g.name :=
    hconcerns (g, a :: rest) (List.mem_append_right _ List.mem_cons_self) a List.mem_cons_self
  have hbefore : ∀ b ∈ before.flatMap Prod.snd, ∃ f, g.name ≠ f ∧ b.Concerns f := by
    intro b hb
    obtain ⟨plan, hplan, hb⟩ := List.mem_flatMap.mp hb
    refine ⟨plan.1.name, fun heq => ?_, hconcerns plan (List.mem_append_left _ hplan) b hb⟩
    rw [List.map_append, List.map_cons] at hnames
    exact (List.nodup_append.mp hnames).2.2 _ (List.mem_map_of_mem hplan) _ List.mem_cons_self
      heq.symm
  have hswap := performAll_perform ha hbefore p
  simp only [List.flatMap_append, List.flatMap_cons, performAll, List.foldl_append,
    List.foldl_cons] at hswap ⊢
  exact (hswap.performAll rest).performAll (after.flatMap Prod.snd)

/-- A turn leads to the same end and is a step towards it, unless the task is done. -/
theorem Leads.turn (hnames : (graphs.map Graph.name).Nodup)
    (h : Leads config graphs result s plans) (i : Nat) :
    ∃ s' plans', s.turn config i = .ok s' ∧ Leads config graphs result s' plans' ∧
      ∀ w, s.workers[i]? = some w → w.isDone = false →
        s'.turnsLeft plans' < s.turnsLeft plans := by
  cases hw : s.workers[i]? with
  | none =>
    refine ⟨s, plans, by simp only [State.turn, hw], h, fun w hw => by cases hw⟩
  | some w =>
    obtain ⟨⟨g, actions⟩, hi, hplan⟩ := h.exists_plan hw
    obtain ⟨hlt, hget⟩ := List.getElem?_eq_some_iff.mp hi
    obtain ⟨hltw, hgetw⟩ := List.getElem?_eq_some_iff.mp hw
    obtain ⟨w', p', hturn, hcases⟩ := Worker.turn_of_plan hplan s.progress
    obtain ⟨wbefore, wafter, hworkers, -, hset⟩ := @List.exists_of_set _ i w' s.workers hltw
    have hok : s.turn config i = .ok { workers := s.workers.set i w', progress := p' } := by
      simp only [State.turn, hw]
      exact bind_of_ok hturn
    rw [hgetw] at hworkers
    rcases hcases with ⟨hdone, rfl, rfl⟩ | ⟨hplan', rfl, hstages⟩ | ⟨a, rest, rfl, hplan', rfl, hstages⟩
    · -- The task is done.
      rw [hset, ← hworkers] at hok
      exact ⟨s, plans, hok, h, fun w hw' hnot => by
        cases hw'
        rw [hdone] at hnot
        cases hnot⟩
    · -- The task runs a stage: its plan stays.
      refine ⟨_, plans, hok, { h with plan := ?_ }, fun _ _ _ => ?_⟩
      · rw [List.map_set, hplan', h.plan, ← List.map_set, ← hget, List.set_getElem_self]
      · simp only [turnsLeft, hset]
        rw [hworkers]
        simp only [List.map_append, List.map_cons, List.sum_append, List.sum_cons]
        omega
    · -- The task performs an action, before what tasks in front of it have still to do.
      obtain ⟨before, after, hplans, -, hset'⟩ := @List.exists_of_set _ i (g, rest) plans hlt
      rw [hget] at hplans
      have hgraphs : (plans.set i (g, rest)).map Prod.fst = plans.map Prod.fst := by
        rw [hset', hplans, List.map_append, List.map_append, List.map_cons, List.map_cons]
      have hnames' : (plans.map fun plan => plan.1.name).Nodup := by
        rw [← h.graphs, List.map_map] at hnames
        exact hnames
      refine ⟨_, plans.set i (g, rest), hok, ⟨?_, hgraphs.trans h.graphs, ?_, ?_⟩, fun _ _ _ => ?_⟩
      · rw [List.map_set, hplan', h.plan, List.map_set]
      · intro plan hmem b hb
        rw [hset'] at hmem
        have hall := h.concerns
        rw [hplans] at hall
        rcases List.mem_append.mp hmem with hmem | hmem
        · exact hall plan (List.mem_append_left _ hmem) b hb
        · rcases List.mem_cons.mp hmem with rfl | hmem
          · exact hall (g, a :: rest) (List.mem_append_right _ List.mem_cons_self) b
              (List.mem_cons_of_mem a hb)
          · exact hall plan (List.mem_append_right _ (List.mem_cons_of_mem _ hmem)) b hb
      · rw [hset']
        exact (performAll_take hnames' h.concerns hplans s.progress).trans h.result
      · simp only [turnsLeft, hset, hset']
        rw [hworkers, hplans]
        simp only [List.map_append, List.map_cons, List.sum_append, List.sum_cons, hstages,
          List.flatMap_append, List.flatMap_cons, List.length_append, List.length_cons]
        omega

/-- Whatever turns are handed out, the tasks still lead to the same end. -/
theorem Leads.play (hnames : (graphs.map Graph.name).Nodup)
    (h : Leads config graphs result s plans) (schedule : List Nat) :
    ∃ s' plans', s.play config schedule = .ok s' ∧ Leads config graphs result s' plans' := by
  have hrun : ∃ s', schedule.foldlM (State.turn config) s = .ok s' ∧
      ∃ plans', Leads config graphs result s' plans' := by
    refine exists_foldlM (I := fun _ s => ∃ plans, Leads config graphs result s plans) ⟨plans, h⟩
      fun _ i _ s _ ⟨plans, hs⟩ => ?_
    obtain ⟨t, plans', hturn, ht, -⟩ := hs.turn hnames i
    exact ⟨t, hturn, plans', ht⟩
  obtain ⟨s', hplay, plans', h'⟩ := hrun
  exact ⟨s', plans', hplay, h'⟩

/-- More turns bring all tasks to their end. -/
theorem Leads.exists_done (hnames : (graphs.map Graph.name).Nodup)
    (h : Leads config graphs result s plans) :
    ∃ more s', s.play config more = .ok s' ∧ s'.isDone = true := by
  induction hn : s.turnsLeft plans using Nat.strong_induction_on generalizing s plans with
  | _ n ih =>
    by_cases hdone : s.isDone = true
    · exact ⟨[], s, rfl, hdone⟩
    · have hundone : ∃ w ∈ s.workers, w.isDone = false := by
        simpa [isDone] using hdone
      obtain ⟨w, hmem, hw⟩ := hundone
      obtain ⟨i, hi⟩ := List.mem_iff_getElem?.mp hmem
      obtain ⟨t, plans', hturn, ht, hless⟩ := h.turn hnames i
      obtain ⟨more, s', hmore, hs'⟩ := ih _ (hn ▸ hless w hi hw) ht rfl
      exact ⟨i :: more, s', by rw [State.play, List.foldlM_cons, bind_of_ok hturn]; exact hmore, hs'⟩

/-- Tasks that are done have come to the end. -/
theorem Leads.of_isDone (h : Leads config graphs result s plans) (hdone : s.isDone = true) :
    s.workers.map Worker.graph = graphs ∧ s.progress.Like result := by
  have hplan : ∀ w ∈ s.workers, w.plan config = .ok (w.graph, []) := by
    intro w hw
    have hw := List.all_eq_true.mp hdone w hw
    simp only [Worker.isDone, Bool.and_eq_true, List.isEmpty_iff] at hw
    simp only [Worker.plan, hw, runStages]
    rfl
  have hplans : plans = s.workers.map fun w => (w.graph, []) := by
    have hmap : plans.map (fun plan => (.ok plan : Except Error _)) =
        (s.workers.map fun w => (w.graph, [])).map .ok := by
      rw [← h.plan, List.map_map]
      exact List.map_congr_left hplan
    exact List.map_injective_iff.mpr (fun _ _ => Except.ok.inj) hmap
  refine ⟨?_, ?_⟩
  · rw [← h.graphs, hplans, List.map_map]
    rfl
  · have hnone : plans.flatMap Prod.snd = [] := by
      rw [hplans, List.flatMap_map]
      exact List.flatMap_eq_nil_iff.mpr fun _ _ => rfl
    have hresult := h.result
    rw [hnone] at hresult
    exact hresult

end State

/-! ### Tasks in order -/

/-- Recording the events of a log appends it. -/
theorem performAll_record (log : EventLog) (p : Progress) :
    performAll (log.events.toList.map .record) p =
      { p with session := { p.session with log := p.session.log.append log } } := by
  have hlist (l : List Event) (p : Progress) : performAll (l.map .record) p =
      { p with session := { p.session with log := p.session.log.append ⟨l.toArray⟩ } } := by
    induction l generalizing p with
    | nil => simp [performAll, EventLog.append]
    | cons e l ih =>
      show performAll (l.map .record) (Action.perform (.record e) p) = _
      rw [ih]
      simp [Action.perform, EventLog.append, EventLog.push]
  simpa using hlist log.events.toList p

theorem performAll_append (first later : List Action) (p : Progress) :
    performAll (first ++ later) p = performAll later (performAll first p) := List.foldl_append

theorem directory_performAll (actions : List Action) (p : Progress) :
    (performAll actions p).directory = p.directory := by
  induction actions generalizing p with
  | nil => rfl
  | cons a actions ih =>
    refine (ih (a.perform p)).trans ?_
    cases a <;> rfl

/-- Verifying records an event at most. -/
theorem exists_check {g : Graph} (hm : g.Mirrored) (hsize : Anchor.bad < g.size)
    (config : Config) : ∃ verified notes, (∀ e ∈ notes.events, e.function = some g.name) ∧
      ∀ log, check config { graph := g, log } = .ok verified { graph := g, log := log.append notes } := by
  have hnote (kind : EventKind) (message : String) :
      ∃ notes : EventLog, (∀ e ∈ notes.events, e.function = some g.name) ∧
        ∀ log, ({ graph := g, log } : Draft).note kind none none message =
          { graph := g, log := log.append notes } :=
    ⟨⟨#[{ kind, function := some g.name, message }]⟩, by simp, fun log => by
      simp [Draft.note, EventLog.push, EventLog.append]⟩
  unfold check
  cases config.verify with
  | false =>
    refine ⟨true, {}, by simp, fun log => ?_⟩
    simp only [EventLog.append, Array.append_empty]
    rfl
  | true =>
    simp only [↓reduceIte]
    cases hverify : g.verify with
    | ok u =>
      obtain ⟨notes, hnotes, heq⟩ := hnote .graphVerified ""
      refine ⟨true, notes, hnotes, fun log => Editing.change_of_ok ?_⟩
      simp only [hverify, heq]
    | error e =>
      have hreported : e.isFault = false :=
        ((Graph.verify_ends hm hsize).fails hverify).reported
      obtain ⟨notes, hnotes, heq⟩ := hnote .error e.message
      refine ⟨false, notes, hnotes, fun log => Editing.change_of_ok ?_⟩
      simp only [hverify, hreported, heq, Bool.false_eq_true, if_false]

/-- Folding inside a pipeline succeeds if folding does. -/
theorem exists_onFunction {config : Config} {g : Graph} {changed : Bool} {d : Draft}
    (h : Folding.apply config.check config.trace { graph := g } = .ok changed d) :
    ∃ d₁, Folding.onFunction config { graph := g } = .ok changed d₁ ∧ d₁.graph = d.graph ∧
      d₁.Concerns g.name := by
  have hstart : ({ graph := g } : Draft).Concerns g.name := ⟨rfl, by simp⟩
  have hd := Folding.apply_concerns hstart config.check config.trace
  unfold Editing.Ends at hd
  rw [h] at hd
  let first := ({ graph := g } : Draft).note .passStarted none Folding.name ""
  let joined : Draft := { d with log := first.log.append d.log }
  have hjoined : joined.Concerns g.name := by
    refine ⟨hd.name, fun e he => ?_⟩
    rcases Array.mem_append.mp he with he | he
    · exact (hstart.note _ _ _ _).events e he
    · exact hd.events e he
  refine ⟨joined.note .passCompleted none Folding.name "", ?_, rfl, hjoined.note ..⟩
  have hrun : Folding.onFunction config { graph := g } =
      (Folding.apply config.check config.trace >>= fun changed => do
        modify fun d => { d with log := first.log.append d.log }
        modify fun d => d.note .passCompleted none Folding.name ""
        return changed) { graph := g } := rfl
  rw [hrun, Editing.bind_of_ok h]
  rfl

/-- The passes of the default pipeline fold a function and leave it at that. -/
theorem runPasses_passes {config : Config} {d d₁ : Draft} {changed : Bool}
    (h : Folding.onFunction config d = .ok changed d₁) :
    runPasses config config.passes d = .ok changed d₁ := by
  have hfirst : ((do
      if Folding.pass.isGlobal || !Folding.pass.shouldRun (← get).graph then return false
      else return (← Folding.pass.onFunction config) || false : Editing Bool)) d =
        .ok changed d₁ := by
    show (Folding.onFunction config >>= fun changed => pure (changed || false)) d = _
    rw [Editing.bind_of_ok h, Bool.or_false]
    rfl
  unfold runPasses Config.passes
  rw [List.foldlM_cons, Editing.bind_of_ok hfirst]
  split <;> rfl

theorem runStages_cons {config : Config} {stage : Stage} {rest : List Stage} {g g₁ g₂ : Graph}
    {first later : List Action} (hstage : stage.run config g = .ok (g₁, first))
    (hrest : runStages config rest g₁ = .ok (g₂, later)) :
    runStages config (stage :: rest) g = .ok (g₂, first ++ later) := by
  refine (bind_of_ok hstage).trans ?_
  exact bind_of_ok hrest

/-- What the task of a function makes known when folding it recorded `folded` and verifying it
`checked`. -/
def announced (name : String) (changed : Bool) (folded : EventLog) (verified : Bool)
    (checked : EventLog) : List Action :=
  folded.events.toList.map .record ++ (if changed then [.raise, .markChanged name] else []) ++
    ([.markProcessed name] ++ ((if verified then [] else [.markFailed name]) ++
      checked.events.toList.map .record))

/-- The stages of the default pipeline. -/
theorem runStages_passes {config : Config} {g : Graph} {changed verified : Bool} {d₁ d₂ : Draft}
    (hpass : Folding.onFunction config { graph := g } = .ok changed d₁)
    (hname : d₁.graph.name = g.name)
    (hcheck : check config { graph := d₁.graph } = .ok verified d₂) :
    runStages config (stages config.passes) g =
      .ok (d₂.graph, announced g.name changed d₁.log verified d₂.log) := by
  have hfold : (Stage.pass Folding.pass).run config g = .ok (d₁.graph,
      d₁.log.events.toList.map .record ++
        if changed then [.raise, .markChanged g.name] else []) := by
    show (match Folding.onFunction config { graph := g } with
      | .error e _ => Except.error e
      | .ok changed d => _) = _
    rw [hpass]
  have hskip : (Stage.pass (UnusedFunctions.pass config.entry)).run config d₁.graph =
      .ok (d₁.graph, []) := rfl
  have hprocessed : Stage.processed.run config d₁.graph =
      .ok (d₁.graph, [.markProcessed g.name]) := by
    rw [← hname]
    rfl
  have hverify : Stage.verify.run config d₁.graph = .ok (d₂.graph,
      (if verified then [] else [.markFailed g.name]) ++ d₂.log.events.toList.map .record) := by
    show (match check config { graph := d₁.graph } with
      | .error e _ => Except.error e
      | .ok verified d => _) = _
    rw [hcheck, ← hname]
  have hnone : runStages config [] d₂.graph = .ok (d₂.graph, []) := rfl
  have hend := runStages_cons hprocessed (runStages_cons hverify hnone)
  rw [List.append_nil] at hend
  unfold stages Config.passes
  split
  · have hrest := runStages_cons hskip hend
    exact runStages_cons hfold hrest
  · exact runStages_cons hfold hend

/-- Adding what a task came to is carrying out what it makes known. -/
theorem Progress.add_eq_performAll {name : String} {changed verified : Bool}
    {folded checked : EventLog} {p : Progress} (hdir : p.directory = none) :
    p.add name (folded.append checked) { changed, drawing := none, directory := none, verified } =
      performAll (announced name changed folded verified checked) p := by
  unfold announced
  simp only [performAll_append, performAll_record]
  cases changed <;> cases verified <;>
    simp [Progress.add, performAll, Action.perform, Session.markChanged, EventLog.append, hdir]

/-- The task of `g` succeeds, whether alone or in turns. -/
structure Completes (config : Config) (g : Graph) (r : Result) (d : Draft)
    (actions : List Action) : Prop where
  task : task config config.passes none { graph := g } = .ok r d
  directory : r.directory = none
  runStages : runStages config (stages config.passes) g = .ok (d.graph, actions)
  add : ∀ p : Progress, p.directory = none → p.add g.name d.log r = performAll actions p
  name : d.graph.name = g.name
  concerns : ∀ a ∈ actions, a.Concerns g.name
  callees : ∃ calls, d.graph.callees = .ok calls

/-- What the calls of a folded function are can be told. -/
theorem exists_callees {g : Graph} (hm : g.Mirrored) (hsize : Anchor.bad < g.size)
    {check trace changed : Bool} {d : Draft}
    (h : Folding.apply check trace { graph := g } = .ok changed d) :
    ∃ calls, d.graph.callees = .ok calls := by
  have hsize' := ((Folding.apply_ends (d := { graph := g }) hm hsize check trace).gives h).2
  obtain ⟨r, d₁, d₂, d₃, _, _, hr, hd, hsubst, hclean, hend, -⟩ := Folding.exists_of_apply h
  obtain ⟨hm₂, hsize₂⟩ := (Substitution.run_ends (hd ▸ hm) (hd ▸ hsize) r Folding.name).gives hsubst
  have hknot := Cleanup.run_unknotted ⟨hm₂, rfl⟩ hsize₂ hclean
  rw [← hend] at hknot
  obtain ⟨w, hw⟩ := Walk.exists_run hsize' hknot
  have hlive : d.graph.live = .ok w.live := bind_of_ok hw
  have hlt := (Graph.live_ends hsize').gives hlive
  have hends := Graph.callees_ends (P := fun _ => False) (.of_ok hlive hlt)
  cases hcallees : d.graph.callees with
  | ok calls => exact ⟨calls, rfl⟩
  | error e => exact (hends.fails hcallees).elim

/-- A task succeeds if folding its function does. -/
theorem exists_completes {config : Config} {g : Graph} (hbuilt : g.Built) {changed : Bool}
    {d : Draft} (h : Folding.apply config.check config.trace { graph := g } = .ok changed d) :
    ∃ r d' actions, Completes config g r d' actions := by
  have hcallees := exists_callees hbuilt.mirrored hbuilt.bad_lt_size h
  obtain ⟨hm, hsize⟩ := (Folding.apply_ends (d := { graph := g }) hbuilt.mirrored
    hbuilt.bad_lt_size config.check config.trace).gives h
  obtain ⟨d₁, hpass, hgraph, hconcerns⟩ := exists_onFunction h
  rw [← hgraph] at hm hsize hcallees
  obtain ⟨verified, notes, hnotes, hcheck⟩ := exists_check hm hsize config
  have hcheck₀ : check config { graph := d₁.graph } =
      .ok verified { graph := d₁.graph, log := notes } := by
    rw [hcheck]
    simp [EventLog.append]
  refine ⟨{ changed, drawing := none, directory := none, verified },
    { graph := d₁.graph, log := d₁.log.append notes },
    announced g.name changed d₁.log verified notes, ?_, rfl,
    runStages_passes hpass hconcerns.name hcheck₀, fun p hp => Progress.add_eq_performAll hp,
    hconcerns.name, fun a ha e he => ?_, hcallees⟩
  · unfold task
    rw [Editing.bind_of_ok (runPasses_passes hpass)]
    exact (Editing.bind_of_ok (hcheck d₁.log) _).trans rfl
  · rw [he] at ha
    have hmem : e ∈ d₁.log.events ∨ e ∈ notes.events := by
      unfold announced at ha
      cases changed <;> cases verified <;> simpa using ha
    rcases hmem with hmem | hmem
    · exact hconcerns.events e hmem
    · rw [hnotes e hmem, hconcerns.name]

/-- The tasks of some functions one after the other carry out the plans of all. -/
theorem exists_plans {config : Config} {fs : List Graph}
    (h : ∀ g ∈ fs, ∃ r d actions, Completes config g r d actions) :
    ∃ plans : List (Graph × List Action),
      fs.map (runStages config (stages config.passes)) = plans.map .ok ∧
      plans.map (fun plan => plan.1.name) = fs.map Graph.name ∧
      (∀ plan ∈ plans, ∀ a ∈ plan.2, a.Concerns plan.1.name) ∧
      (∀ plan ∈ plans, ∃ calls, plan.1.callees = .ok calls) ∧
      ∀ p : Progress, p.directory = none → runTasks config config.passes fs p =
        (plans.map Prod.fst, .ok (performAll (plans.flatMap Prod.snd) p)) := by
  induction fs with
  | nil => exact ⟨[], rfl, rfl, by simp, by simp, fun p _ => rfl⟩
  | cons g rest ih =>
    obtain ⟨r, d, actions, hc⟩ := h g List.mem_cons_self
    obtain ⟨plans, hstages, hnames, hconcerns, hcallees, hrun⟩ :=
      ih fun g hg => h g (List.mem_cons_of_mem _ hg)
    refine ⟨(d.graph, actions) :: plans, ?_, ?_, ?_, ?_, fun p hp => ?_⟩
    · rw [List.map_cons, List.map_cons, hc.runStages, hstages]
    · rw [List.map_cons, List.map_cons, hnames, hc.name]
    · refine List.forall_mem_cons.mpr ⟨fun a ha => ?_, hconcerns⟩
      show a.Concerns d.graph.name
      rw [hc.name]
      exact hc.concerns a ha
    · exact List.forall_mem_cons.mpr ⟨hc.callees, hcallees⟩
    · have hp' : (performAll actions p).directory = none := (directory_performAll actions p).trans hp
      simp only [runTasks, hp, hc.task, hc.add p hp, hrun _ hp', List.map_cons, List.flatMap_cons,
        performAll_append]

/-! ### Global passes -/

end Pipeline

namespace Session.Like

variable {s t : Session}

theorem push (h : s.Like t) (e : Event) :
    Session.Like { s with log := s.log.push e } { t with log := t.log.push e } :=
  ⟨h.log.push e, h.rest⟩

theorem markRemoved (h : s.Like t) (f : String) : (s.markRemoved f).Like (t.markRemoved f) := by
  have hrest := h.rest
  simp only [Session.mk.injEq] at hrest
  exact ⟨h.log, by simp [Session.markRemoved, hrest]⟩

theorem noteRemoved (h : s.Like t) (fs : List String) :
    (fs.foldl UnusedFunctions.noteRemoved s).Like (fs.foldl UnusedFunctions.noteRemoved t) := by
  induction fs generalizing s t with
  | nil => exact h
  | cons f fs ih => exact ih ((h.markRemoved f).push _)

end Session.Like

/-- What an entry point can reach can be told if the calls of each function can. -/
theorem Program.exists_reachableFrom {p : Program}
    (h : ∀ g ∈ p.functions, ∃ calls, g.callees = .ok calls) (entry : String) :
    ∃ reached, p.reachableFrom entry = .ok reached := by
  have hposition {name : String} {i : Nat} (hi : p.position? name = some i) : i < p.length := by
    unfold position? at hi
    obtain ⟨⟨g, j⟩, hfind, rfl⟩ := Option.map_eq_some_iff.mp hi
    have hmem := List.mem_reverse.mp (List.mem_of_find?_eq_some hfind)
    show j < p.functions.length
    simpa using (List.mem_zipIdx hmem).2.1
  unfold reachableFrom
  cases hroot : p.position? entry with
  | none => exact ⟨none, rfl⟩
  | some root =>
    have hcalls : Ends (fun _ : Error => False)
        (fun rows => ∀ row ∈ rows, ∀ i ∈ row, i < p.length) p.calls := by
      refine .mapM fun g hg => ?_
      obtain ⟨calls, hcallees⟩ := h g hg
      refine Ends.bind (.of_ok (Q := fun _ => True) hcallees trivial) fun calls _ i hi => ?_
      obtain ⟨name, -, hname⟩ := List.mem_filterMap.mp hi
      exact hposition hname
    cases hrows : p.calls with
    | error e => exact (hcalls.fails hrows).elim
    | ok rows =>
      have hrange := hcalls.gives hrows
      have hclosure : ∃ reached,
          BitSet.closure p.length (fun i => rows[i]?.getD []) [root] = .ok reached := by
        refine BitSet.exists_closure (by simpa using hposition hroot) fun i j hj => ?_
        cases hrow : rows[i]? with
        | none => simp [hrow] at hj
        | some row => exact hrange row (List.mem_of_getElem? hrow) j (by simpa [hrow] using hj)
      obtain ⟨reached, hreached⟩ := hclosure
      exact exists_bind rfl (exists_bind hreached ⟨_, rfl⟩)

namespace Pipeline

/-- Global passes end the same way from sessions that are alike. -/
theorem runGlobal_like {p : Program} (h : ∀ g ∈ p.functions, ∃ calls, g.callees = .ok calls)
    (config : Config) {s t : Session} (hlike : s.Like t) :
    ∃ q changed s' t', runGlobal config.passes p s = (q, .ok (changed, s')) ∧
      runGlobal config.passes p t = (q, .ok (changed, t')) ∧ s'.Like t' := by
  cases hunused : config.removeUnused with
  | false =>
    refine ⟨p, false, s, t, ?_, ?_, hlike⟩ <;> simp only [Config.passes, hunused] <;> rfl
  | true =>
    have hglobal {u u' : Session} {changed : Bool} {q : Program}
        (hpass : UnusedFunctions.onProgram config.entry p u = .ok (changed, q, u')) :
        runGlobal config.passes p u = (q, .ok (changed, u')) := by
      simp only [Config.passes, hunused, if_true, runGlobal, Folding.pass, UnusedFunctions.pass,
        hpass, Bool.false_eq_true, if_false]
      simp [Except.map]
    obtain ⟨reached, hreached⟩ := Program.exists_reachableFrom h config.entry
    cases reached with
    | none =>
      exact ⟨_, _, _, _, hglobal (bind_of_ok hreached), hglobal (bind_of_ok hreached),
        hlike.push _⟩
    | some names =>
      exact ⟨_, _, _, _, hglobal (bind_of_ok hreached), hglobal (bind_of_ok hreached),
        hlike.noteRemoved _⟩

/-! ### Whole runs -/

/-- How a run ends once all tasks are done. -/
def conclude (passes : List Pass) (functions : List Graph) (progress : Progress) :
    Program × Except Error Report :=
  match progress.session.failed with
  | [] =>
    match runGlobal passes { functions } progress.session with
    | (p, .error e) => (p, .error e)
    | (p, .ok (changed, s)) =>
      (p, .ok {
        changed := progress.changed || changed
        optimized := s.processed
        changedFunctions := s.changed
        removed := s.removed
        drawings := (progress.directory.map (Report.files · progress.drawings)).getD []
        log := s.log })
  | failed => ({ functions }, .error (.verificationFailed failed))

theorem run_eq_conclude {config : Config} {passes : List Pass} {p : Program}
    {functions : List Graph} {progress : Progress}
    (h : runTasks config passes p.functions { directory := config.dump } =
      (functions, .ok progress)) :
    run config passes p = conclude passes functions progress := by
  unfold run
  rw [h]
  rfl

def State.conclude (passes : List Pass) (s : State) : Program × Except Error Report :=
  Pipeline.conclude passes (s.workers.map Worker.graph) s.progress

end Pipeline

/-- The reports agree but for how the events of different functions are interleaved. -/
structure Report.Matches (r s : Report) : Prop where
  changed : r.changed = s.changed
  optimized : r.optimized = s.optimized
  changedFunctions : r.changedFunctions = s.changedFunctions
  removed : r.removed = s.removed
  drawings : r.drawings = s.drawings
  tally : r.log.tally = s.log.tally
  about : ∀ f, r.log.about f = s.log.about f

namespace Pipeline

/-- Both runs succeed with reports that match, or graphs of the same functions fail verification in
both; and they leave the same program. -/
def Agree : Program × Except Error Report → Program × Except Error Report → Prop
  | (p, .ok r), (q, .ok s) => p = q ∧ r.Matches s
  | (p, .error (.verificationFailed f)), (q, .error (.verificationFailed f')) => p = q ∧ f = f'
  | _, _ => False

/-- Progress that is alike leads to runs that agree. -/
theorem conclude_agree {config : Config} {functions : List Graph} {p q : Progress}
    (hcallees : ∀ g ∈ functions, ∃ calls, g.callees = .ok calls) (h : p.Like q) :
    Agree (conclude config.passes functions p) (conclude config.passes functions q) := by
  obtain ⟨hsession, hrest⟩ := h
  have hnames := hsession.rest
  simp only [Session.mk.injEq, Progress.mk.injEq] at hnames hrest
  unfold conclude
  rw [← hnames.2.2.2.1]
  cases hfailed : p.session.failed with
  | cons f failed => exact ⟨rfl, rfl⟩
  | nil =>
    obtain ⟨r, changed, s, t, hp, hq, hlike⟩ :=
      runGlobal_like (p := { functions }) hcallees config hsession
    have hnames' := hlike.rest
    simp only [Session.mk.injEq] at hnames'
    simp only [hp, hq]
    exact ⟨rfl, {
      changed := by simp only [hrest]
      optimized := hnames'.2.1
      changedFunctions := hnames'.2.2.1
      removed := hnames'.2.2.2.2
      drawings := by simp only [hrest]
      tally := hlike.log.tally
      about := hlike.log.about }⟩

/-- In a program whose functions have different names and can all be folded, no schedule makes a task
fail or keeps the tasks from being completed; and once they are, the run ends as it does when the
functions are optimized one after the other. -/
theorem any_schedule (config : Config) {p : Program} (hbuilt : ∀ g ∈ p.functions, g.Built)
    (hnames : p.names.Nodup) (hdump : config.dump = none)
    (hfold : ∀ g ∈ p.functions, ∃ changed d,
      Folding.apply config.check config.trace { graph := g } = .ok changed d)
    (schedule : List Nat) :
    ∃ s, (State.start config.passes p).play config schedule = .ok s ∧
      (∃ more s', s.play config more = .ok s' ∧ s'.isDone = true) ∧
      (s.isDone = true → Agree (s.conclude config.passes) (run config config.passes p)) := by
  have hcompletes : ∀ g ∈ p.functions, ∃ r d actions, Completes config g r d actions := by
    intro g hg
    obtain ⟨changed, d, h⟩ := hfold g hg
    exact exists_completes (hbuilt g hg) h
  obtain ⟨plans, hstages, hplans, hconcerns, hcallees, hrun⟩ := exists_plans hcompletes
  have hstart : State.Leads config (plans.map Prod.fst)
      (performAll (plans.flatMap Prod.snd) {}) (.start config.passes p) plans := by
    refine ⟨?_, rfl, hconcerns, .refl _⟩
    rw [← hstages, State.start, List.map_map]
    refine List.map_congr_left fun g _ => ?_
    show (runStages config (stages config.passes) g).map _ = _
    cases runStages config (stages config.passes) g <;> rfl
  have hnodup : ((plans.map Prod.fst).map Graph.name).Nodup := by
    rw [List.map_map]
    exact hplans ▸ hnames
  obtain ⟨s, plans', hplay, hs⟩ := hstart.play hnodup schedule
  refine ⟨s, hplay, hs.exists_done hnodup, fun hdone => ?_⟩
  obtain ⟨hgraphs, hlike⟩ := hs.of_isDone hdone
  have hconclude : run config config.passes p =
      conclude config.passes (plans.map Prod.fst) (performAll (plans.flatMap Prod.snd) {}) :=
    run_eq_conclude (by rw [hdump]; exact hrun {} rfl)
  rw [hconclude, State.conclude, hgraphs]
  refine conclude_agree (fun g hg => ?_) hlike
  obtain ⟨plan, hplan, rfl⟩ := List.mem_map.mp hg
  exact hcallees plan hplan

/-- A function that returns the negation of a constant. -/
def negation : List Edit :=
  [.addNode (.proj .memory) .memory (some Anchor.startBlock) [Anchor.start],
    .addNode (.const (.bool true)) .bool (some Anchor.startBlock) [],
    .addNode .not .bool (some Anchor.startBlock) [6],
    .addNode .ret .control (some Anchor.startBlock) [5, 7],
    .addOperand Anchor.endBlock 8]

def negations : Except Error Program := do
  return { functions := ← ["main", "spare"].mapM fun name =>
    negation.foldlM Graph.apply (.new name 0) }

/-- Whether the function can be folded. -/
def folds (config : Config) (g : Graph) : Bool :=
  match Folding.apply config.check config.trace { graph := g } with
  | .ok .. => true
  | .error .. => false

/-- Whether the schedule completes the tasks, and whether the events come in the same order as when
the functions are optimized one after the other. -/
def compareLogs (config : Config) (p : Program) (schedule : List Nat) : Option (Bool × Bool) :=
  match (State.start config.passes p).play config schedule with
  | .error _ => none
  | .ok s =>
    match s.conclude config.passes, run config config.passes p with
    | (_, .ok r), (_, .ok r') => some (s.isDone, r.log = r'.log)
    | _, _ => none

theorem any_schedule_negations :
    ∃ p s q r r', negations = .ok p ∧
      (State.start (Config.passes {}) p).play {} ((List.range 26).map (· % 2)) = .ok s ∧
      s.isDone = true ∧ s.conclude (Config.passes {}) = (q, .ok r) ∧
      run {} (Config.passes {}) p = (q, .ok r') ∧ r.Matches r' ∧ r.log ≠ r'.log := by
  have hok : negations.map (fun p => (decide p.names.Nodup, p.functions.all (folds {}),
      compareLogs {} p ((List.range 26).map (· % 2)))) = .ok (true, true, some (true, false)) := by
    decide +kernel
  cases hp : negations with
  | error e =>
    rw [hp] at hok
    cases hok
  | ok p =>
    rw [hp] at hok
    obtain ⟨hnames, hrest⟩ := Prod.mk.inj (Except.ok.inj hok)
    obtain ⟨hfolds, hlogs⟩ := Prod.mk.inj hrest
    have hbuilt : ∀ g ∈ p.functions, g.Built := by
      intro g hg
      obtain ⟨functions, hmap, h⟩ := bind_eq_ok.mp hp
      cases h
      obtain ⟨name, -, hedits⟩ := exists_of_mem_mapM hmap hg
      exact (Graph.Built.new name 0).foldlM hedits
    have hfold : ∀ g ∈ p.functions, ∃ changed d,
        Folding.apply true false { graph := g } = .ok changed d := by
      intro g hg
      have hg := List.all_eq_true.mp hfolds g hg
      unfold folds at hg
      split at hg
      next changed d h => exact ⟨changed, d, h⟩
      next => cases hg
    obtain ⟨s, hplay, -, hagree⟩ := any_schedule {} hbuilt (of_decide_eq_true hnames) rfl hfold
      ((List.range 26).map (· % 2))
    unfold compareLogs at hlogs
    rw [hplay] at hlogs
    dsimp only at hlogs
    split at hlogs
    next q r q' r' hs hrun =>
      obtain ⟨hdone, hlog⟩ := Prod.mk.inj (Option.some.inj hlogs)
      have hagree := hagree hdone
      rw [hs, hrun] at hagree
      obtain ⟨rfl, hmatches⟩ := hagree
      exact ⟨p, s, q, r, r', rfl, hplay, hdone, hs, hrun, hmatches, of_decide_eq_false hlog⟩
    next => cases hlogs

end Pipeline

end SeaOfNodes
