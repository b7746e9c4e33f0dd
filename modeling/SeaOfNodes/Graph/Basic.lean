import SeaOfNodes.Error

/-!
The graph of one function: an arena of nodes named by their positions.

A node lists its operands in order; `users` is the reverse adjacency, with one entry for each
edge that points at the node. Slots are never reused: a removed node stays as a `retired` one.
-/

namespace SeaOfNodes

structure Node where
  op : Op
  mode : Mode
  /-- The block the node stands in; blocks stand in none. -/
  block : Option NodeId
  operands : List NodeId
  users : List NodeId := []
deriving DecidableEq

namespace Node

def isRetired (x : Node) : Bool := x.op == .retired

/-- What the node depends on: its block first, then its operands. -/
def inputs (x : Node) : List NodeId := x.block.toList ++ x.operands

end Node

structure Graph where
  name : String
  /-- Number of arguments of the function. -/
  params : Nat
  nodes : Array Node
deriving DecidableEq

namespace Graph

/-- A graph that holds the anchors only. -/
def new (name : String) (params : Nat) : Graph where
  name := name
  params := params
  nodes := #[
    { op := .block, mode := .block, block := none, operands := [] },
    { op := .block, mode := .block, block := none, operands := [] },
    { op := .start, mode := .tuple, block := some Anchor.startBlock, operands := [] },
    { op := .stop, mode := .control, block := some Anchor.endBlock, operands := [] },
    { op := .bad, mode := .control, block := some Anchor.startBlock, operands := [] }]

/-- Number of slots, retired ones included. -/
def size (g : Graph) : Nat := g.nodes.size

/-- The node named `n`; an id outside the arena is a fault. -/
def node (g : Graph) (n : NodeId) : Except Error Node :=
  match g.nodes[n]? with
  | some x => .ok x
  | none => .error .outOfRange

/-- Whether `n` names no usable node: its slot is retired or outside the arena. -/
def isRetired (g : Graph) (n : NodeId) : Bool :=
  match g.nodes[n]? with
  | some x => x.isRetired
  | none => true

/-- Those of `ns` whose nodes satisfy `p`, in their order. -/
def select (g : Graph) (p : Node → Bool) : List NodeId → Except Error (List NodeId)
  | [] => .ok []
  | n :: ns => do
    let x ← g.node n
    let rest ← g.select p ns
    return if p x then n :: rest else rest

/-- The nodes in use, in order of creation. -/
def ids (g : Graph) : List NodeId := (List.range g.size).filter fun n => !g.isRetired n

def activeCount (g : Graph) : Nat := g.ids.length

/-- Number of operand edges of the nodes in use. -/
def edgeCount (g : Graph) : Nat :=
  ((g.nodes.toList.filter fun x => !x.isRetired).map fun x => x.operands.length).sum

/-- The operands of the stop node, which are kept alive. -/
def keepAlives (g : Graph) : Except Error (List NodeId) := do
  return (← g.node Anchor.stop).operands

/-- The projection of the given kind that hangs off `tuple`, the first if there are several. -/
def proj (g : Graph) (tuple : NodeId) (kind : Projection) : Except Error (Option NodeId) := do
  let x ← g.node tuple
  return (← g.select (·.op == .proj kind) x.users).head?

/-! ### What a lookup that succeeds tells -/

theorem node_eq_ok {g : Graph} {n : NodeId} {x : Node} (h : g.node n = .ok x) :
    g.nodes[n]? = some x := by
  unfold Graph.node at h
  split at h
  next y hy =>
    cases h
    exact hy
  next => cases h

theorem lt_size_of_node {g : Graph} {n : NodeId} {x : Node} (h : g.node n = .ok x) :
    n < g.size := by
  have := node_eq_ok h
  exact (Array.getElem?_eq_some_iff.mp this).1

/-- Selecting keeps a part of the list, whose nodes satisfy the test. -/
theorem select_eq_ok {g : Graph} {p : Node → Bool} {ns out : List NodeId}
    (h : g.select p ns = .ok out) :
    out.length ≤ ns.length ∧ ∀ n ∈ out, ∃ x, g.nodes[n]? = some x ∧ p x = true := by
  induction ns generalizing out with
  | nil =>
    cases h
    exact ⟨Nat.le_refl _, fun n hn => by cases hn⟩
  | cons m ns ih =>
    simp only [Graph.select, bind, Except.bind] at h
    split at h
    next => cases h
    next x hx =>
      split at h
      next => cases h
      next rest hrest =>
        obtain ⟨hlen, hall⟩ := ih hrest
        cases h
        split
        next hp =>
          refine ⟨Nat.succ_le_succ hlen, fun n hn => ?_⟩
          rcases List.mem_cons.mp hn with rfl | hn
          · exact ⟨x, node_eq_ok hx, hp⟩
          · exact hall n hn
        next => exact ⟨Nat.le_succ_of_le hlen, hall⟩

end Graph

end SeaOfNodes
