import SeaOfNodes.Ascending
import SeaOfNodes.Directory
import SeaOfNodes.Draft
import SeaOfNodes.Program

/-!
The parts of a pipeline: how a run is configured, what it keeps track of, and what a pass is.
-/

namespace SeaOfNodes

structure Config where
  /-- Verify every graph after its passes. -/
  verify : Bool := true
  /-- Write a drawing of every graph after its passes into this directory. -/
  dump : Option Directory := none
  removeUnused : Bool := true
  entry : String := "main"
  /-- Functions may be optimized in any order. -/
  parallel : Bool := true
  /-- Check that cleaning up has settled. -/
  check : Bool := true
  /-- Record every fact the analysis assigns. -/
  trace : Bool := false
deriving DecidableEq

/-- What a run keeps track of. The lists of names are ascending. -/
structure Session where
  log : EventLog := {}
  processed : List String := []
  changed : List String := []
  failed : List String := []
  removed : List String := []
deriving DecidableEq

namespace Session

def markChanged (s : Session) (name : String) : Session :=
  { s with changed := insertAscending name s.changed }

def markRemoved (s : Session) (name : String) : Session :=
  { s with removed := insertAscending name s.removed }

def isChanged (s : Session) (name : String) : Bool := s.changed.contains name

end Session

/-- A pass over each function, or over the whole program if it is global. -/
structure Pass where
  name : String
  description : String := "No description available"
  isGlobal : Bool := false
  shouldRun : Graph → Bool := fun _ => true
  /-- Works on one function and tells whether it changed. -/
  onFunction : Config → Editing Bool := fun _ => return false
  /-- Works on the program and tells whether it changed. -/
  onProgram : Program → Session → Except Error (Bool × Program × Session) :=
    fun p s => .ok (false, p, s)

end SeaOfNodes
