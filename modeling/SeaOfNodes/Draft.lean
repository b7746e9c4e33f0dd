import SeaOfNodes.Event
import SeaOfNodes.Graph.Edit

/-!
Drafts: a graph while passes change it, with the log of what they did.

An edit that stops with an error leaves the draft as far as it got.
-/

namespace SeaOfNodes

structure Draft where
  graph : Graph
  log : EventLog := {}

namespace Draft

def edit (d : Draft) (f : Graph → Except Error Graph) : Except Error Draft :=
  (f d.graph).map fun graph => { d with graph }

/-- Records an event about the function, and a node of it if one is given. -/
def note (d : Draft) (kind : EventKind) (node : Option NodeId) (pass : Option String)
    (message : String) : Draft :=
  { d with log := d.log.push { kind, function := some d.graph.name, node, pass, message } }

end Draft

/-- A computation on a draft, which is kept when the computation fails. -/
abbrev Editing := EStateM Error Draft

namespace Editing

/-- Changes the draft, or fails and leaves it as it was. -/
def change {α : Type} (f : Draft → Except Error (α × Draft)) : Editing α := fun d =>
  match f d with
  | .ok (a, d') => .ok a d'
  | .error e => .error e d

/-- Leaves no trace in the log, whether it succeeds or not. -/
def silently {α : Type} (act : Editing α) : Editing α := fun d =>
  match act d with
  | .ok a d' => .ok a { d' with log := d.log }
  | .error e d' => .error e { d' with log := d.log }

end Editing

end SeaOfNodes
