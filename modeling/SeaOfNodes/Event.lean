import SeaOfNodes.NodeId
import SeaOfNodes.Text.Quoted

/-!
Events: what passes report.

Passes record what they change in a log, in order. A `Tally` counts the kinds of changes of a
log.
-/

namespace SeaOfNodes

inductive EventKind where
  | constantFolded | branchSimplified | memorySpliced | edgeRemoved | blockRemoved
  | phiSimplified | nodesRemoved | functionRemoved
  | passStarted | passCompleted | graphDumped | graphVerified
  | info | warning | error
deriving DecidableEq

namespace EventKind

def all : List EventKind :=
  [constantFolded, branchSimplified, memorySpliced, edgeRemoved, blockRemoved, phiSimplified,
    nodesRemoved, functionRemoved, passStarted, passCompleted, graphDumped, graphVerified,
    info, warning, error]

def name : EventKind → String
  | constantFolded => "ConstantFolded"
  | branchSimplified => "BranchSimplified"
  | memorySpliced => "MemorySpliced"
  | edgeRemoved => "EdgeRemoved"
  | blockRemoved => "BlockRemoved"
  | phiSimplified => "PhiSimplified"
  | nodesRemoved => "NodesRemoved"
  | functionRemoved => "FunctionRemoved"
  | passStarted => "PassStarted"
  | passCompleted => "PassCompleted"
  | graphDumped => "GraphDumped"
  | graphVerified => "GraphVerified"
  | info => "Info"
  | warning => "Warning"
  | error => "Error"

def description : EventKind → String
  | constantFolded => "constant folded"
  | branchSimplified => "branch simplified"
  | memorySpliced => "memory chain spliced"
  | edgeRemoved => "dead edge removed"
  | blockRemoved => "unreachable block removed"
  | phiSimplified => "phi simplified"
  | nodesRemoved => "garbage removed"
  | functionRemoved => "unused function removed"
  | passStarted => "pass started"
  | passCompleted => "pass completed"
  | graphDumped => "graph dumped"
  | graphVerified => "graph verified"
  | info => "info"
  | warning => "warning"
  | error => "error"

/-- Kinds that say that the program changed. -/
def isChange : EventKind → Bool
  | constantFolded | branchSimplified | memorySpliced | edgeRemoved | blockRemoved
  | phiSimplified | nodesRemoved | functionRemoved => true
  | _ => false

end EventKind

structure Event where
  kind : EventKind
  function : Option String := none
  node : Option NodeId := none
  /-- The pass that recorded the event. -/
  pass : Option String := none
  message : String := ""
deriving DecidableEq

namespace Event

/-- The event as printed: `[Kind] pass function@n3: message`, without the parts it lacks. -/
def text (e : Event) : String :=
  let pass := (e.pass.map (" " ++ ·)).getD ""
  let function := (e.function.map (" " ++ ·)).getD ""
  let node := (e.node.map fun n => "@" ++ NodeId.text n).getD ""
  let message := if e.message.isEmpty then "" else ": " ++ e.message
  "[" ++ e.kind.name ++ "]" ++ pass ++ function ++ node ++ message

/-- An optional part of a record. -/
def optional {α : Type} (render : α → String) : Option α → String
  | none => "None"
  | some a => "Some(" ++ render a ++ ")"

/-- The event with every part named. -/
def record (e : Event) : String :=
  "Event \x7b kind: " ++ e.kind.name ++
    ", function: " ++ optional Quoted.encode e.function ++
    ", node: " ++ optional (fun n => "NodeId(" ++ toString n ++ ")") e.node ++
    ", pass: " ++ optional Quoted.encode e.pass ++
    ", message: " ++ Quoted.encode e.message ++ " \x7d"

end Event

/-- Counts of the kinds of events. -/
structure Tally where
  constants : Nat
  branches : Nat
  spliced : Nat
  edges : Nat
  blocks : Nat
  phis : Nat
  garbage : Nat
  functions : Nat
  warnings : Nat
  errors : Nat
deriving DecidableEq

namespace Tally

/-- Number of changes. -/
def total (t : Tally) : Nat :=
  t.constants + t.branches + t.spliced + t.edges + t.blocks + t.phis + t.garbage + t.functions

def text (t : Tally) : String :=
  let changes := s!"{t.constants} constants, {t.branches} branches, {t.spliced} spliced, " ++
    s!"{t.edges} edges, {t.blocks} blocks, {t.phis} phis, {t.functions} functions removed"
  if t.warnings > 0 || t.errors > 0 then
    changes ++ s!" ({t.warnings} warnings, {t.errors} errors)"
  else changes

end Tally

/-- Events in the order they were recorded. -/
structure EventLog where
  events : Array Event := #[]
deriving DecidableEq

namespace EventLog

def empty : EventLog := {}

def push (log : EventLog) (e : Event) : EventLog := { events := log.events.push e }

def append (log other : EventLog) : EventLog := { events := log.events ++ other.events }

def length (log : EventLog) : Nat := log.events.size

/-- A message of the given kind about nothing in particular. -/
def say (log : EventLog) (kind : EventKind) (message : String) : EventLog :=
  log.push { kind, message }

/-- The events about a function. -/
def about (log : EventLog) (function : String) : List Event :=
  log.events.toList.filter fun e => e.function == some function

def countKind (log : EventLog) (kind : EventKind) : Nat :=
  log.events.toList.countP fun e => e.kind == kind

def hasChanges (log : EventLog) : Bool := log.events.toList.any fun e => e.kind.isChange

def lines (log : EventLog) : List String := log.events.toList.map Event.text

def tally (log : EventLog) : Tally where
  constants := log.countKind .constantFolded
  branches := log.countKind .branchSimplified
  spliced := log.countKind .memorySpliced
  edges := log.countKind .edgeRemoved
  blocks := log.countKind .blockRemoved
  phis := log.countKind .phiSimplified
  garbage := log.countKind .nodesRemoved
  functions := log.countKind .functionRemoved
  warnings := log.countKind .warning
  errors := log.countKind .error

/-- The log with every part of every event named. -/
def record (log : EventLog) : String :=
  "[" ++ ", ".intercalate (log.events.toList.map Event.record) ++ "]"

end EventLog

end SeaOfNodes
