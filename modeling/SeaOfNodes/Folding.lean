import SeaOfNodes.Cleanup
import SeaOfNodes.Substitution

/-!
Constant folding: find the facts of a function, substitute them, remove what became dead.
-/

namespace SeaOfNodes

namespace Folding

def name : String := "constant-propagation"

def description : String :=
  "Sparse conditional constant propagation with dead branch and dead code elimination"

/-- Analyses the graph; if asked to trace, records every fact assigned. -/
def analyze (trace : Bool) : Editing Solution :=
  Editing.change fun d => do
    let r ← d.graph.analyze
    let steps := if trace then r.trace.toList else []
    let d := steps.foldl (fun d (n, a) => d.note .info n name ("value -> " ++ a.text)) d
    return (r, d)

/-- Closes with a line on what was found. -/
def summary (r : Solution) : String :=
  toString r.constants.length ++ " constants, " ++ toString r.reachable.count ++
    " reachable blocks, " ++ toString r.stats.visits ++ " visits"

/-- Folds the function in the draft and tells whether anything changed. -/
def apply (check trace : Bool) : Editing Bool := do
  let r ← analyze trace
  let substituted ← Substitution.run r name
  let cleaned ← Cleanup.run check
  modify fun d => d.note .info none name (summary r)
  return substituted.changed || cleaned.changed

end Folding

/-- The graph after folding. If asked to check, cleaning up must have settled. -/
def Graph.optimize (g : Graph) (check : Bool := true) : Except Error Graph :=
  match Folding.apply check false { graph := g } with
  | .ok _ d => .ok d.graph
  | .error e _ => .error e

end SeaOfNodes
