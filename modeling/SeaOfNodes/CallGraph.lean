import SeaOfNodes.Ascending
import SeaOfNodes.Closure
import SeaOfNodes.Graph.Walk
import SeaOfNodes.Program

/-!
Which functions of a program an entry point can reach by calls.

Only live calls count, and calls of names that the program does not define lead nowhere.
-/

namespace SeaOfNodes

/-- The names that the live calls of a graph mention, in the order of the nodes, once each. -/
def Graph.callees (g : Graph) : Except Error (List String) := do
  let live ← g.live
  live.toList.foldlM (fun names n => do
    match (← g.node n).op with
    | .call f => return if names.contains f then names else names ++ [f]
    | _ => return names) []

namespace Program

/-- The position of a name; of several functions of one name, the last. -/
def position? (p : Program) (name : String) : Option Nat :=
  (p.functions.zipIdx.reverse.find? fun (g, _) => g.name == name).map Prod.snd

/-- For each function the positions of the functions it calls. -/
def calls (p : Program) : Except Error (List (List Nat)) :=
  p.functions.mapM fun g => do return (← g.callees).filterMap p.position?

/-- The names of the functions that `entry` can reach, ascending; `none` if there is no `entry`. -/
def reachableFrom (p : Program) (entry : String) : Except Error (Option (List String)) :=
  match p.position? entry with
  | none => .ok none
  | some root => do
    let calls ← p.calls
    let reached ← BitSet.closure p.length (fun i => calls[i]?.getD []) [root]
    let names := reached.toList.filterMap fun i => p.functions[i]?.map Graph.name
    return some (ascending names)

end Program

end SeaOfNodes
