import SeaOfNodes.Graph.Dot
import SeaOfNodes.Graph.Verify
import SeaOfNodes.Pipeline.Passes

/-!
Running a pipeline over a program.

Every function is a task of its own: its passes, then its drawing, then its verification. A task
sees nothing of the others but the files they wrote, so without drawings what it leaves depends on
its function alone. Global passes run after all tasks, and only if every graph passed verification.
-/

namespace SeaOfNodes

namespace Pipeline

/-- A drawing that was written: its path, and where that led. -/
structure Drawing where
  path : String
  location : Location

/-- What the task of a function came to. -/
structure Result where
  changed : Bool
  drawing : Option Drawing
  /-- The directory with the drawing in it. -/
  directory : Option Directory
  verified : Bool

/-- Runs the passes that work on functions and tells whether one changed the graph. -/
def runPasses (config : Config) (passes : List Pass) : Editing Bool :=
  passes.foldlM (fun changed pass => do
    if pass.isGlobal || !pass.shouldRun (← get).graph then return changed
    else return (← pass.onFunction config) || changed) false

/-- Writes the drawing of the graph, if there is a directory for it. -/
def draw : Option Directory → Editing (Option Drawing × Option Directory)
  | none => return (none, none)
  | some directory =>
    Editing.change fun d => do
      let contents ← d.graph.toDot
      let file := d.graph.name ++ "-opt.dot"
      let path := directory.pathOf file
      match directory.write file contents with
      | .error cause => .error (.unwritten cause)
      | .ok (location, written) =>
        return ((some { path, location }, some written), d.note .graphDumped none none path)

/-- Verifies the graph, if that is wanted; a violation is noted. -/
def check (config : Config) : Editing Bool :=
  if config.verify then
    Editing.change fun d =>
      match d.graph.verify with
      | .ok () => .ok (true, d.note .graphVerified none none "")
      | .error e => if e.isFault then .error e else .ok (false, d.note .error none none e.message)
  else return true

/-- The task of a function, which finds the directory as the tasks before it left it. -/
def task (config : Config) (passes : List Pass) (directory : Option Directory) :
    Editing Result := do
  let changed ← runPasses config passes
  let (drawing, directory) ← draw directory
  let verified ← check config
  return { changed, drawing, directory, verified }

/-- What the tasks of the functions so far came to. -/
structure Progress where
  session : Session := {}
  changed : Bool := false
  drawings : List Drawing := []
  directory : Option Directory := none

/-- Adds what one task came to. -/
def Progress.add (p : Progress) (name : String) (log : EventLog) (r : Result) : Progress where
  session :=
    { p.session with
      log := p.session.log.append log
      processed := insertAscending name p.session.processed
      changed := if r.changed then insertAscending name p.session.changed else p.session.changed
      failed := if r.verified then p.session.failed else insertAscending name p.session.failed }
  changed := p.changed || r.changed
  drawings := p.drawings ++ r.drawing.toList
  directory := r.directory

/-- Runs the tasks of some functions in order. A task that fails ends the run; its function is
left as far as the task got, the functions behind it as they were. -/
def runTasks (config : Config) (passes : List Pass) :
    List Graph → Progress → List Graph × Except Error Progress
  | [], p => ([], .ok p)
  | g :: rest, p =>
    match task config passes p.directory { graph := g } with
    | .error e d => (d.graph :: rest, .error e)
    | .ok r d =>
      let (graphs, result) := runTasks config passes rest (p.add g.name d.log r)
      (d.graph :: graphs, result)

/-- Runs the global passes in order and tells whether one changed the program. A pass that fails
leaves the program as the passes before it left it. -/
def runGlobal : List Pass → Program → Session → Program × Except Error (Bool × Session)
  | [], p, s => (p, .ok (false, s))
  | pass :: rest, p, s =>
    if pass.isGlobal then
      match pass.onProgram p s with
      | .error e => (p, .error e)
      | .ok (first, p, s) =>
        let (p, later) := runGlobal rest p s
        (p, later.map fun (changed, s) => (first || changed, s))
    else runGlobal rest p s

end Pipeline

/-- What a run reports. The lists of names are ascending. -/
structure Report where
  changed : Bool
  optimized : List String
  changedFunctions : List String
  removed : List String
  /-- Names of the files written, with what they hold after the run. -/
  drawings : List (String × String)
  log : EventLog

namespace Report

def text (r : Report) (elapsed : String) : String :=
  toString r.optimized.length ++ " functions optimized (" ++
    toString r.changedFunctions.length ++ " changed, " ++ toString r.removed.length ++
    " removed) in " ++ elapsed ++ ": " ++ r.log.tally.text

/-- The files of some drawings in order of their paths. Drawings that led to the same file both
show what was written last. -/
def files (directory : Directory) (drawings : List Pipeline.Drawing) : List (String × String) :=
  let sorted := drawings.mergeSort fun a b => (Path.parse a.path).le (Path.parse b.path)
  sorted.map fun d => (d.location.name, (directory.read? d.location).getD "")

end Report

namespace Pipeline

/-- Optimizes a program. The program is answered even if the run fails, as far as the run got. -/
def run (config : Config) (passes : List Pass) (p : Program) : Program × Except Error Report :=
  match runTasks config passes p.functions { directory := config.dump } with
  | (functions, .error e) => ({ functions }, .error e)
  | (functions, .ok progress) =>
    let p : Program := { functions }
    match progress.session.failed with
    | [] =>
      match runGlobal passes p progress.session with
      | (p, .error e) => (p, .error e)
      | (p, .ok (changed, s)) =>
        (p, .ok {
          changed := progress.changed || changed
          optimized := s.processed
          changedFunctions := s.changed
          removed := s.removed
          drawings := (progress.directory.map (Report.files · progress.drawings)).getD []
          log := s.log })
    | failed => (p, .error (.verificationFailed failed))

end Pipeline

namespace EventLog

/-- The events sorted by function, those about none first; the events of one function keep their
order. This is what remains fixed when functions are optimized in any order. -/
def byFunction (log : EventLog) : EventLog :=
  let le (a b : Event) : Bool :=
    match a.function, b.function with
    | none, _ => true
    | some _, none => false
    | some f, some g => decide (f ≤ g)
  { events := (log.events.toList.mergeSort le).toArray }

end EventLog

end SeaOfNodes
