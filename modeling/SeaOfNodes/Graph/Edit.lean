import SeaOfNodes.Ascending
import SeaOfNodes.Graph.Basic

/-!
The seven primitives that change a graph.

Each keeps the user lists in step with the operand lists. A user entry is added at the end of its
list; taking one away removes the first that matches and moves the last one into its place. Ids
outside the arena and positions past the end are faults, found before anything is changed.
-/

namespace SeaOfNodes

/-- Removes the first `a`, and puts the last element in its place. -/
def swapErase {α : Type} [DecidableEq α] (a : α) : List α → List α
  | [] => []
  | b :: l =>
    if b = a then
      match l.getLast? with
      | none => []
      | some z => z :: l.dropLast
    else b :: swapErase a l

namespace Graph

/-! ### Changes of one slot -/

/-- Changes the node in slot `n`. -/
def update (g : Graph) (n : NodeId) (f : Node → Node) : Graph :=
  { g with nodes := g.nodes.modify n f }

def addUser (g : Graph) (n user : NodeId) : Graph :=
  g.update n fun x => { x with users := x.users ++ [user] }

def dropUser (g : Graph) (n user : NodeId) : Graph :=
  g.update n fun x => { x with users := swapErase user x.users }

/-! ### Primitives -/

/-- Appends a node and enters it in the user lists of its operands. -/
def addNode (g : Graph) (op : Op) (mode : Mode) (block : Option NodeId)
    (operands : List NodeId) : Except Error (NodeId × Graph) :=
  if operands.all (· < g.size) then
    let linked := operands.foldl (fun h o => h.addUser o g.size) g
    .ok (g.size, { linked with nodes := linked.nodes.push { op, mode, block, operands } })
  else .error .outOfRange

/-- Replaces the operand of `n` at position `i`. -/
def setOperand (g : Graph) (n : NodeId) (i : Nat) (new : NodeId) : Except Error Graph := do
  let x ← g.node n
  match x.operands[i]? with
  | none => .error .outOfRange
  | some old =>
    if old = new then .ok g
    else if new < g.size then
      let moved := (g.dropUser old n).update n fun y => { y with operands := y.operands.set i new }
      .ok (moved.addUser new n)
    else .error .outOfRange

/-- Appends an operand to `n`. -/
def addOperand (g : Graph) (n operand : NodeId) : Except Error Graph :=
  if n < g.size ∧ operand < g.size then
    .ok ((g.update n fun x => { x with operands := x.operands ++ [operand] }).addUser operand n)
  else .error .outOfRange

/-- Removes the operand of `n` at position `i`; the ones behind it move up. -/
def removeOperand (g : Graph) (n : NodeId) (i : Nat) : Except Error Graph := do
  let x ← g.node n
  match x.operands[i]? with
  | none => .error .outOfRange
  | some old =>
    .ok ((g.update n fun y => { y with operands := y.operands.eraseIdx i }).dropUser old n)

/-- Keeps `n` alive even if nothing the function does depends on it. -/
def keepAlive (g : Graph) (n : NodeId) : Except Error Graph := g.addOperand Anchor.stop n

/-- Detaches the node in slot `n`, whose record is `x`, from its operands and retires it. -/
def detach (g : Graph) (n : NodeId) (x : Node) : Graph :=
  let cut := g.update n fun y => { y with operands := [] }
  (x.operands.foldl (fun h o => h.dropUser o n) cut).update n fun y => { y with op := .retired }

/-- Retires `n`. Edges from its users are left dangling. -/
def kill (g : Graph) (n : NodeId) : Except Error Graph := do
  let x ← g.node n
  return g.detach n x

/-- Lets every edge of `user` to `old` point at `new`. -/
def redirect (g : Graph) (old new user : NodeId) : Graph :=
  let edges := ((g.nodes[user]?).map fun x => x.operands.count old).getD 0
  let moved := g.update user fun x =>
    { x with operands := x.operands.map fun o => if o = old then new else o }
  (List.replicate edges user).foldl (fun h u => h.addUser new u) moved

/-- Puts `new` in the place of `old`: every edge to `old` points at `new` afterwards, at the same
position, and `old` is retired. -/
def exchange (g : Graph) (old new : NodeId) : Except Error Graph :=
  if old = new then .ok g
  else do
    let x ← g.node old
    let users := ascending x.users
    if new < g.size ∨ users = [] then
      let cut := g.update old fun y => { y with users := [] }
      (users.foldl (fun h u => h.redirect old new u) cut).kill old
    else .error .outOfRange

end Graph

/-- A call of one primitive. -/
inductive Edit where
  | addNode (op : Op) (mode : Mode) (block : Option NodeId) (operands : List NodeId)
  | setOperand (node : NodeId) (index : Nat) (new : NodeId)
  | addOperand (node operand : NodeId)
  | removeOperand (node : NodeId) (index : Nat)
  | keepAlive (node : NodeId)
  | exchange (old new : NodeId)
  | kill (node : NodeId)
deriving DecidableEq

namespace Graph

def apply (g : Graph) : Edit → Except Error Graph
  | .addNode op mode block operands => (g.addNode op mode block operands).map Prod.snd
  | .setOperand n i new => g.setOperand n i new
  | .addOperand n o => g.addOperand n o
  | .removeOperand n i => g.removeOperand n i
  | .keepAlive n => g.keepAlive n
  | .exchange old new => g.exchange old new
  | .kill n => g.kill n

end Graph

end SeaOfNodes
