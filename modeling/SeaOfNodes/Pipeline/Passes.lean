import SeaOfNodes.CallGraph
import SeaOfNodes.Folding
import SeaOfNodes.Pipeline.Basic

/-!
The passes of the default pipeline: folding each function, and removing the functions that the
entry point cannot reach.
-/

namespace SeaOfNodes

namespace Folding

/-- Runs `apply` with a log of its own, which joins the function's log if it succeeds. -/
def onFunction (config : Config) : Editing Bool := do
  modify fun d => d.note .passStarted none name ""
  let before := (← get).log
  modify fun d => { d with log := {} }
  let changed ← apply config.check config.trace
  modify fun d => { d with log := before.append d.log }
  modify fun d => d.note .passCompleted none name ""
  return changed

def pass : Pass := { name, description, onFunction }

end Folding

namespace UnusedFunctions

def name : String := "unused-functions"

def description : String := "Removes functions not reachable from the entry point"

/-- Records the removal of a function. -/
def noteRemoved (s : Session) (function : String) : Session :=
  let s := s.markRemoved function
  { s with log := s.log.push { kind := .functionRemoved, function, pass := name } }

/-- Keeps the functions that the entry point can reach. Without an entry point all are kept. -/
def onProgram (entry : String) (p : Program) (s : Session) :
    Except Error (Bool × Program × Session) := do
  match ← p.reachableFrom entry with
  | none =>
    let message := "entry point '" ++ entry ++ "' not found, keeping all functions"
    return (false, p, { s with log := s.log.say .warning message })
  | some reached =>
    let removed := p.names.filter fun f => !reached.contains f
    return (!removed.isEmpty, p.retain reached.contains, removed.foldl noteRemoved s)

def pass (entry : String) : Pass :=
  { name, description, isGlobal := true, onProgram := onProgram entry }

end UnusedFunctions

/-- The passes that a configuration asks for. -/
def Config.passes (config : Config) : List Pass :=
  Folding.pass :: if config.removeUnused then [UnusedFunctions.pass config.entry] else []

end SeaOfNodes
