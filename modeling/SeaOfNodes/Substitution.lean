import SeaOfNodes.Draft
import SeaOfNodes.Propagation

/-!
Substituting the facts found about a graph into it.

Live nodes are taken in the order of the walk. A value known to be constant is exchanged with a
constant of the start block. A division with a constant result is taken out of the memory chain:
its memory state becomes the one it consumed, its result a constant. An arm of a branch on a
constant becomes a jump if it is the one chosen, and dead control otherwise.
-/

namespace SeaOfNodes

/-- The exchanges made so far, the latest first: a node, and what was put in its place. -/
abbrev Renaming := List (NodeId × NodeId)

namespace Renaming

/-- The node that now stands in for `n`: the exchanges are replayed, the earliest first. -/
def resolve : Renaming → NodeId → NodeId
  | [], n => n
  | (old, new) :: r, n =>
    let m := resolve r n
    if m = old then new else m

/-- Lets `new` stand in for `old`, and for all that `old` stood in for. -/
def replace (r : Renaming) (old new : NodeId) : Renaming := (old, new) :: r

end Renaming

namespace Substitution

/-- How much was substituted. -/
structure Counts where
  folded : Nat := 0
  spliced : Nat := 0
  branches : Nat := 0
deriving DecidableEq

def Counts.changed (c : Counts) : Bool := c.folded + c.spliced + c.branches > 0

structure State where
  draft : Draft
  /-- The constant that carries a value; the latest comes first. -/
  constants : List (Literal × NodeId)
  standIns : Renaming := []
  counts : Counts := {}

/-- The constants of the start block, the latest first. -/
def knownConstants (g : Graph) : List (Literal × NodeId) :=
  (g.nodes.toList.zipIdx.filterMap fun (x, n) =>
    match x.op with
    | .const v => if x.block = some Anchor.startBlock then some (v, n) else none
    | _ => none).reverse

def State.ofDraft (d : Draft) : State := { draft := d, constants := knownConstants d.graph }

/-- Exchanges `old` with what stands in for `new`. -/
def replace (s : State) (old new : NodeId) : Except Error State := do
  let new := s.standIns.resolve new
  let draft ← s.draft.edit fun g => g.exchange old new
  return { s with draft, standIns := s.standIns.replace old new }

/-- A constant of the start block that carries `v`, made if there is none. -/
def constantNode (s : State) (v : Literal) : Except Error (NodeId × State) :=
  match s.constants.lookup v with
  | some n => .ok (n, s)
  | none => do
    let (n, graph) ← s.draft.graph.addNode (.const v) v.mode (some Anchor.startBlock) []
    return (n, { s with draft := { s.draft with graph }, constants := (v, n) :: s.constants })

/-- Retires a node that nothing uses any more. -/
def killUnused (s : State) (n : NodeId) : Except Error State := do
  let x ← s.draft.graph.node n
  if x.users.isEmpty then return { s with draft := ← s.draft.edit fun g => g.kill n }
  else return s

/-- Exchanges a value known to be constant with that constant. -/
def fold (r : Solution) (pass : String) (s : State) (n : NodeId) (x : Node) :
    Except Error State :=
  if x.mode.isFoldable then
    match r.constant? n with
    | none => .ok s
    | some v => do
      let (c, s) ← constantNode s v
      let s ← replace s n c
      return { s with
        counts := { s.counts with folded := s.counts.folded + 1 }
        draft := s.draft.note .constantFolded n pass (x.op.name ++ " -> " ++ v.text) }
  else .ok s

/-- Replaces one user of a division with a constant result `v`: its memory state by the state
`mem` that the division consumed, its result by a constant. -/
def bypass (v : Literal) (mem : NodeId) (s : State) (n : NodeId) : Except Error State := do
  let x ← s.draft.graph.node n
  match x.op with
  | .proj .memory => replace s n mem
  | .proj .result =>
    let (c, s) ← constantNode s ((v.convert? x.mode).getD v)
    replace s n c
  | _ => return s

/-- Takes a division with a constant result out of the memory chain. -/
def splice (r : Solution) (pass : String) (s : State) (n : NodeId) (x : Node) :
    Except Error State :=
  match r.constant? n, x.operands.head? with
  | some v, some mem => do
    let s ← x.users.foldlM (bypass v mem) s
    let s ← killUnused s n
    return { s with
      counts := { s.counts with spliced := s.counts.spliced + 1 }
      draft := s.draft.note .memorySpliced n pass (x.op.name ++ " -> " ++ v.text) }
  | _, _ => .ok s

/-- Decides an arm of a branch on a constant. -/
def foldArm (r : Solution) (pass : String) (s : State) (n : NodeId) (x : Node) (side : Bool) :
    Except Error State :=
  match x.operands.head? with
  | none => .ok s
  | some branch =>
    match (r.constant? branch).bind Literal.toBool?, x.block with
    | some selected, some block => do
      if selected = side then
        let (jump, graph) ← s.draft.graph.addNode .jump .control (some block) []
        let s ← replace { s with draft := { s.draft with graph } } n jump
        killUnused { s with
          counts := { s.counts with branches := s.counts.branches + 1 }
          draft := s.draft.note .branchSimplified branch pass
            ("always " ++ (Projection.arm side).text) } branch
      else
        let s ← replace s n Anchor.bad
        killUnused s branch
    | _, _ => .ok s

/-- Substitutes the facts about one live node, unless an earlier step retired it. -/
def visit (r : Solution) (pass : String) (s : State) (n : NodeId) : Except Error State := do
  let x ← s.draft.graph.node n
  match x.op with
  | .proj (.arm side) => foldArm r pass s n x side
  | .div | .mod => splice r pass s n x
  | .phi | .binary _ | .cmp _ | .minus | .not | .conv => fold r pass s n x
  | _ => return s

/-- Substitutes the facts about every live node. -/
def run (r : Solution) (pass : String) : Editing Counts :=
  Editing.change fun d => do
    let walk ← Walk.run d.graph
    let s ← walk.order.foldlM (visit r pass) (State.ofDraft d)
    return (s.counts, s.draft)

end Substitution

end SeaOfNodes
