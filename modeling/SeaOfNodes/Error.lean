import SeaOfNodes.Fact
import SeaOfNodes.NodeId
import SeaOfNodes.Op

/-!
Every way a computation can end without a result.

An error names its cause; `Error.message` is the only place that words it. *Faults* are apart
from the rest: a lookup outside its table, after which nothing about the computation is
reported.
-/

namespace SeaOfNodes

/-- A graph the passes cannot make sense of. -/
inductive Malformation where
  /-- A dependency cycle without a loop breaker, closed by an edge to `node`. -/
  | cycle (node : NodeId) (op : Op)
  | missingOperand (node : NodeId) (index : Nat)
  | noExit (block : NodeId)
  | deadEnd (edge : NodeId)
deriving DecidableEq

/-- The ways a graph can break well-formedness. -/
inductive Violation where
  | malformed (cause : Malformation)
  | retiredInput (target : NodeId)
  | userMismatch (edges : Nat) (operand : NodeId) (recorded : Nat)
  | deadPredecessor
  | invalidPredecessor (edge : NodeId) (op : Op)
  | phiOutsideBlock
  | phiArity (operands predecessors : Nat)
  | selectorNotBoolean
  | memoryMissing
  | memoryFork (first second memory : NodeId)
  | memoryProjections (found : Nat)
  | unreachable
deriving DecidableEq

/-- The ways a file can fail to be written. -/
inductive WriteFailure where
  | nulInName
  | notFound
  /-- A file stands where the path goes on. -/
  | notDirectory
  | isDirectory
  | nameTooLong
deriving DecidableEq

inductive Error where
  | malformed (cause : Malformation)
  /-- A retired node was reached. -/
  | retiredNode (node : NodeId)
  /-- A fact moved against the order of knowledge. -/
  | factRegressed (node : NodeId) (old new : Fact)
  /-- An edge decided as not taken was to be taken. -/
  | edgeRegressed (edge : NodeId)
  | invalidGraph (function : String) (node : Option NodeId) (cause : Violation)
  | verificationFailed (functions : List String)
  | cleanupDiverged (function : String)
  | unwritten (cause : WriteFailure)
  | undefinedValue (node : NodeId)
  | illTyped (node : NodeId)
  | missingArgument (index : Nat)
  /-- A failure worded by the pass that raised it. -/
  | refused (reason : String)
  /-- Fault: an id or a position outside its table. -/
  | outOfRange
  /-- Fault: an element beyond the capacity of a set. -/
  | beyondCapacity (index capacity : Nat)
  /-- Fault: a union of sets of unequal capacity. -/
  | unequalCapacity
deriving DecidableEq

namespace Malformation

def message : Malformation → String
  | cycle n op =>
    "dependency cycle through " ++ NodeId.text n ++ " (" ++ op.text ++ ") without a Phi or Block"
  | missingOperand n i => NodeId.text n ++ " lacks operand " ++ toString i
  | noExit b => "block " ++ NodeId.text b ++ " has no control exit"
  | deadEnd e => "control edge " ++ NodeId.text e ++ " leads nowhere"

end Malformation

namespace Violation

def message : Violation → String
  | malformed m => "Malformed: " ++ m.message
  | retiredInput n => "edge to retired node " ++ NodeId.text n
  | userMismatch edges o recorded =>
    toString edges ++ " edge(s) to " ++ NodeId.text o ++ " but " ++ toString recorded ++
      " user entries"
  | deadPredecessor => "dead control edge left behind"
  | invalidPredecessor p op =>
    NodeId.text p ++ " (" ++ op.text ++ ") is not a valid control predecessor"
  | phiOutsideBlock => "phi outside a block"
  | phiArity a p =>
    "phi has " ++ toString a ++ " operands but its block has " ++ toString p ++ " predecessors"
  | selectorNotBoolean => "selector is not a boolean"
  | memoryMissing => "memory operand missing"
  | memoryFork first second m =>
    "memory chain forks: " ++ NodeId.text first ++ " and " ++ NodeId.text second ++
      " both consume " ++ NodeId.text m
  | memoryProjections k => "expected one memory projection, found " ++ toString k
  | unreachable => "block unreachable from entry"

end Violation

namespace WriteFailure

def message : WriteFailure → String
  | nulInName => "file name contained an unexpected NUL byte"
  | notFound => "No such file or directory (os error 2)"
  | notDirectory => "Not a directory (os error 20)"
  | isDirectory => "Is a directory (os error 21)"
  | nameTooLong => "File name too long (os error 36)"

end WriteFailure

namespace Error

/-- Faults leave nothing to report. -/
def isFault : Error → Bool
  | outOfRange | beyondCapacity .. | unequalCapacity => true
  | _ => false

/-- How a report writes the node it concerns, if any. -/
def site : Option NodeId → String
  | none => "None"
  | some n => "Some(NodeId(" ++ toString n ++ "))"

def regression (n : NodeId) (old new : String) : String :=
  "Lattice violation at " ++ NodeId.text n ++ ": " ++ old ++ " -> " ++ new

def message : Error → String
  | malformed m => m.message
  | retiredNode n => "No handler for node " ++ NodeId.text n ++ " (" ++ Op.retired.text ++ ")"
  | factRegressed n old new => regression n old.text new.text
  | edgeRegressed e => regression e "not taken" "taken"
  | invalidGraph f n v => "Invalid graph '" ++ f ++ "' at " ++ site n ++ ": " ++ v.message
  | verificationFailed fs =>
    toString fs.length ++ " graph(s) failed verification: " ++ ", ".intercalate fs
  | cleanupDiverged f => "Cleanup of '" ++ f ++ "' did not converge after two rounds"
  | unwritten cause => cause.message
  | undefinedValue n => "value of " ++ NodeId.text n ++ " used before definition"
  | illTyped n => "operands of " ++ NodeId.text n ++ " are ill-typed"
  | missingArgument i => "missing argument " ++ toString i
  | refused reason => reason
  | outOfRange => "index out of range"
  | beyondCapacity i c => "index " ++ toString i ++ " out of bounds (" ++ toString c ++ ")"
  | unequalCapacity => "bit sets must have same length"

end Error

end SeaOfNodes
