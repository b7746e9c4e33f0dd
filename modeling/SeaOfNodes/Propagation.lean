import SeaOfNodes.Graph.Flow
import SeaOfNodes.Tracker
import SeaOfNodes.Worklist.Engine

/-!
Sparse conditional constant propagation.

Two fixpoints feed each other: facts about values, and marks of control edges. A computed node is
looked at only once its block is reachable, a branch opens only the arms its selector allows, and
a phi combines only the operands that arrive along taken edges. So a loop header is not spoiled by
its back edge before the loop is known to run, and arms that agree still merge to a constant.

`Graph.analyze` runs both to their common end and settles the edges that nothing opened.
-/

namespace SeaOfNodes

/-- The facts and marks found so far. -/
structure Propagation where
  values : Array Fact
  tracker : Tracker
  /-- Every fact assigned, in order. -/
  trace : Array (NodeId × Fact)

namespace Propagation

/-- What an analysis looks at: a graph, its live nodes, and the members of each block. -/
structure Scope where
  graph : Graph
  live : BitSet
  members : IdMap (List NodeId)

def start (g : Graph) : Propagation :=
  { values := Array.replicate g.size .unknown, tracker := Tracker.new g, trace := #[] }

/-- The fact about a node; nothing can be said about ids outside the arena. -/
def value (s : Propagation) (n : NodeId) : Fact := s.values[n]?.getD .varying

/-- The fact about an operand; a missing one is unpredictable. -/
def operand (s : Propagation) (x : Node) (i : Nat) : Fact :=
  match x.operands[i]? with
  | some o => s.value o
  | none => .varying

def assign (s : Propagation) (n : NodeId) (a : Fact) : Except Error Propagation :=
  if n < s.values.size then
    .ok { s with values := s.values.setIfInBounds n a, trace := s.trace.push (n, a) }
  else .error .outOfRange

/-- Whether a node stands in a block known to be reachable. -/
def isEntered (s : Propagation) (x : Node) : Bool :=
  match x.block with
  | some b => s.tracker.isReachable b
  | none => false

/-! ### Transfer functions -/

/-- Whether a node projects from an integer division. -/
def isQuotient (g : Graph) (x : Node) : Except Error Bool :=
  match x.operands.head? with
  | none => .ok false
  | some tuple => do return (← g.node tuple).op.isDivision

/-- Whether the fact about a node is computed from other facts. -/
def isComputed (g : Graph) (x : Node) : Except Error Bool :=
  match x.op with
  | .binary _ | .cmp _ | .minus | .not | .conv | .cond | .div | .mod => .ok true
  | .phi => .ok x.mode.isFoldable
  | .proj .result => isQuotient g x
  | _ => .ok false

/-- Combines the operands that arrive along taken predecessor edges. -/
def mergePhi (s : Propagation) (x : Node) (preds : List NodeId) : Fact :=
  preds.zipIdx.foldl (fun acc (p, i) =>
    if s.tracker.isTaken p then acc.meet (s.operand x i) else acc) .unknown

/-- The fact about a computed node that follows from the facts about its operands. -/
def evaluate (g : Graph) (s : Propagation) (x : Node) : Except Error Fact :=
  match x.op with
  | .binary op => .ok ((s.operand x 0).combine op.eval (s.operand x 1))
  | .cmp r => .ok ((s.operand x 0).combine (fun a b => (r.eval a b).map .bool) (s.operand x 1))
  | .minus => .ok ((s.operand x 0).map Literal.neg?)
  | .not => .ok ((s.operand x 0).map fun a => some a.complement)
  | .conv => .ok ((s.operand x 0).map fun a => a.convert? x.mode)
  | .div => .ok ((s.operand x 1).combine Literal.div? (s.operand x 2))
  | .mod => .ok ((s.operand x 1).combine Literal.rem? (s.operand x 2))
  | .cond | .proj .result => .ok (s.operand x 0)
  | .phi =>
    match x.block with
    | none => .ok .varying
    | some b => do return s.mergePhi x (← g.node b).operands
  | _ => .ok .varying

/-- Whether a selector with the given fact lets control into the arm `side`. -/
def opens (side : Bool) : Fact → Bool
  | .unknown => false
  | .varying => true
  | .constant c =>
    match c.toBool? with
    | some b => b == side
    | none => true

/-! ### Visits -/

/-- The fact a live node starts with. -/
def init (g : Graph) (s : Propagation) (n : NodeId) : Except Error Propagation := do
  let x ← g.node n
  let s := if x.op.isEdge then { s with tracker := s.tracker.register n } else s
  match x.op with
  | .const v => s.assign n (.constant v)
  | .retired => .error (.retiredNode n)
  | _ => s.assign n (if ← isComputed g x then .unknown else .varying)

/-- Stores a fact; if it is new, the live users of the node are to be visited. -/
def update (c : Scope) (s : Propagation) (n : NodeId) (x : Node) (new : Fact) :
    Except Error (Propagation × List NodeId) :=
  let old := s.value n
  if old = new then .ok (s, [])
  else if old.le new then do
    return (← s.assign n new, x.users.filter c.live.contains)
  else .error (.factRegressed n old new)

/-- Takes an edge; if that is new, the live blocks it enters are to be visited. -/
def takeEdge (c : Scope) (s : Propagation) (n : NodeId) (x : Node) :
    Except Error (Propagation × List NodeId) := do
  let (tracker, changed) ← s.tracker.take n
  if changed then
    let blocks ← c.graph.select (·.op == .block) x.users
    return ({ s with tracker }, blocks.filter c.live.contains)
  else return ({ s with tracker }, [])

/-- Looks at a block: all its members are to be visited when it becomes reachable, and its phis
when it was reachable, since a new edge changes what they combine. -/
def visitBlock (c : Scope) (s : Propagation) (n : NodeId) :
    Except Error (Propagation × List NodeId) := do
  let (tracker, changed) ← s.tracker.updateBlock c.graph n
  let s := { s with tracker }
  if changed then return (s, c.members.filed n)
  else if tracker.isReachable n then
    return (s, ← c.graph.select (·.op == .phi) (c.members.filed n))
  else return (s, [])

def visit (c : Scope) (s : Propagation) (n : NodeId) : Except Error (Propagation × List NodeId) := do
  let x ← c.graph.node n
  match x.op with
  | .block => visitBlock c s n
  | .jump | .ret => if s.isEntered x then takeEdge c s n x else return (s, [])
  | .proj (.arm side) =>
    if s.isEntered x && opens side (s.operand x 0) then takeEdge c s n x else return (s, [])
  | .retired => .error (.retiredNode n)
  | _ =>
    if (← isComputed c.graph x) && s.isEntered x then update c s n x (← evaluate c.graph s x)
    else return (s, [])

def handlers (c : Scope) : Handlers Propagation := .queueing (init c.graph) (visit c)

/-! ### The analysis ends

Facts, marks and blocks only move one way, and whenever one of them moves the height goes down. A
visit that moves none queues nothing, except that a block queues its phis, which weigh less. -/

/-- How far the facts about one node are from their end. -/
def heightAt (s : Propagation) (i : NodeId) : Nat :=
  (s.value i).height + (if s.tracker.isTaken i then 0 else 1) +
    (if s.tracker.isReachable i then 0 else 1)

theorem heightAt_le_four (s : Propagation) (i : NodeId) : s.heightAt i ≤ 4 := by
  have hvalue := Fact.height_le_two (s.value i)
  unfold heightAt
  split <;> split <;> omega

/-- The steps that the facts about all nodes are from their end, at most four for each node. -/
def height (c : Scope) (s : Propagation) : Nat :=
  (List.range (4 * c.graph.size)).countP fun k => k % 4 < s.heightAt (k / 4)

/-- A block weighs more than its members, any other node weighs one. -/
def weight (c : Scope) (n : NodeId) : Nat :=
  match c.graph.nodes[n]? with
  | some x => if x.op = .block then (c.members.filed n).length + 1 else 1
  | none => 1

theorem weight_pos (c : Scope) (n : NodeId) : 0 < weight c n := by
  unfold weight
  split
  · split <;> omega
  · omega

theorem height_lt {c : Scope} {s t : Propagation} {n : Nat} (hn : n < c.graph.size)
    (hle : ∀ i, t.heightAt i ≤ s.heightAt i) (hlt : t.heightAt n < s.heightAt n) :
    height c t < height c s := by
  have hfour := s.heightAt_le_four n
  -- The step above the new height of the node is made.
  have hdiv : (4 * n + t.heightAt n) / 4 = n := by omega
  have hmod : (4 * n + t.heightAt n) % 4 = t.heightAt n := by omega
  refine countP_lt_countP (a := 4 * n + t.heightAt n) (fun k _ hk => ?_)
    (List.mem_range.mpr (by omega)) ?_ ?_
  · exact decide_eq_true (Nat.lt_of_lt_of_le (of_decide_eq_true hk) (hle _))
  · simpa [hdiv, hmod] using hlt
  · simp [hdiv, hmod]

/-- Facts about a node that did not go back leave its height where it was or lower. -/
theorem heightAt_le {s t : Propagation} {i : NodeId} (hv : t.value i = s.value i)
    (ht : s.tracker.isTaken i = true → t.tracker.isTaken i = true)
    (hr : s.tracker.isReachable i = true → t.tracker.isReachable i = true) :
    t.heightAt i ≤ s.heightAt i := by
  unfold heightAt
  rw [hv]
  cases hs : s.tracker.isTaken i <;> cases hb : s.tracker.isReachable i <;> simp_all <;> split <;>
    (try split) <;> omega

theorem heightAt_lt_of_taken {s t : Propagation} {i : NodeId} (hv : t.value i = s.value i)
    (hs : s.tracker.isTaken i = false) (ht : t.tracker.isTaken i = true)
    (hr : t.tracker.isReachable i = s.tracker.isReachable i) : t.heightAt i < s.heightAt i := by
  unfold heightAt
  rw [hv, hs, ht, hr]
  simp only [if_true, Bool.false_eq_true, if_false]
  omega

theorem heightAt_lt_of_reachable {s t : Propagation} {i : NodeId} (hv : t.value i = s.value i)
    (ht : t.tracker.isTaken i = s.tracker.isTaken i) (hs : s.tracker.isReachable i = false)
    (hr : t.tracker.isReachable i = true) : t.heightAt i < s.heightAt i := by
  unfold heightAt
  rw [hv, hs, ht, hr]
  simp only [if_true, Bool.false_eq_true, if_false]
  omega

theorem update_down {c : Scope} {s t : Propagation} {n : NodeId} {x : Node} {new : Fact}
    {out : List NodeId} (hn : n < c.graph.size) (h : update c s n x new = .ok (t, out)) :
    height c t < height c s ∨ t = s ∧ out = [] := by
  simp only [update] at h
  split at h
  next =>
    cases h
    exact .inr ⟨rfl, rfl⟩
  next hne =>
    split at h
    next hle =>
      simp only [assign, bind, Except.bind] at h
      split at h
      next => cases h
      next u hu =>
        cases h
        split at hu
        next hsize =>
          cases hu
          have hself : ∀ i, (Propagation.value { s with
              values := s.values.setIfInBounds n new, trace := s.trace.push (n, new) } i) =
              if i = n then new else s.value i := by
            intro i
            by_cases hi : i = n
            · subst hi
              simp [value, hsize]
            · simp [value, hi, Ne.symm hi]
          have hdown := Fact.height_lt_of_le hle hne
          refine .inl (height_lt hn (fun i => ?_) ?_)
          · simp only [heightAt, hself]
            by_cases hi : i = n
            · subst hi
              simp only [if_true]
              omega
            · simp [hi]
          · simp only [heightAt, hself, if_true]
            omega
        next => cases hu
    next => cases h

theorem takeEdge_down {c : Scope} {s t : Propagation} {n : NodeId} {x : Node} {out : List NodeId}
    (hn : n < c.graph.size) (h : takeEdge c s n x = .ok (t, out)) :
    height c t < height c s ∨ t = s ∧ out = [] := by
  unfold takeEdge at h
  cases htake : s.tracker.take n with
  | error e => simp [htake, bind, Except.bind] at h
  | ok r =>
    obtain ⟨tracker, changed⟩ := r
    simp only [htake, bind, Except.bind] at h
    cases changed with
    | true =>
      obtain ⟨hbefore, hreach, hafter⟩ := Tracker.take_eq_true htake
      simp only [if_true] at h
      split at h
      next => cases h
      next blocks hblocks =>
        cases h
        have hblock : ∀ i, tracker.isReachable i = s.tracker.isReachable i := by
          simp [Tracker.isReachable, hreach]
        refine .inl (height_lt hn (fun i => ?_) ?_)
        · exact heightAt_le rfl (fun h => by simp [hafter, h]) (fun h => by simpa [hblock] using h)
        · exact heightAt_lt_of_taken rfl hbefore (by simp [hafter]) (hblock n)
    | false =>
      have := Tracker.take_eq_false htake
      subst this
      simp only [Bool.false_eq_true, if_false] at h
      cases h
      exact .inr ⟨rfl, rfl⟩

theorem visitBlock_down {c : Scope} {s t : Propagation} {n : NodeId} {x : Node} {out : List NodeId}
    (hx : c.graph.nodes[n]? = some x) (hop : x.op = .block)
    (h : visitBlock c s n = .ok (t, out)) :
    height c t < height c s ∨ t = s ∧ (out.map (weight c)).sum < weight c n := by
  have hn : n < c.graph.size := (Array.getElem?_eq_some_iff.mp hx).1
  have hweight : weight c n = (c.members.filed n).length + 1 := by simp [weight, hx, hop]
  unfold visitBlock at h
  cases hupd : s.tracker.updateBlock c.graph n with
  | error e => simp [hupd, bind, Except.bind] at h
  | ok r =>
    obtain ⟨tracker, changed⟩ := r
    simp only [hupd, bind, Except.bind] at h
    cases changed with
    | true =>
      obtain ⟨hbefore, hmarks, hafter⟩ := Tracker.updateBlock_eq_true hupd
      simp only [if_true] at h
      cases h
      have htaken : ∀ i, tracker.isTaken i = s.tracker.isTaken i := by
        simp [Tracker.isTaken, Tracker.mark?, hmarks]
      refine .inl (height_lt hn (fun i => ?_) ?_)
      · exact heightAt_le rfl (fun h => by simpa [htaken] using h) (fun h => by simp [hafter, h])
      · exact heightAt_lt_of_reachable rfl (htaken n) hbefore (by simp [hafter])
    | false =>
      have := Tracker.updateBlock_eq_false hupd
      subst this
      simp only [Bool.false_eq_true, if_false] at h
      split at h
      next =>
        split at h
        next => cases h
        next phis hphis =>
          simp only [pure, Except.pure, Except.ok.injEq, Prod.mk.injEq] at h
          obtain ⟨rfl, rfl⟩ := h
          obtain ⟨hlen, hall⟩ := Graph.select_eq_ok hphis
          have hone : phis.map (weight c) = phis.map fun _ => 1 := by
            refine List.map_congr_left fun m hm => ?_
            obtain ⟨y, hy, hphi⟩ := hall m hm
            have hphi : y.op = .phi := by simpa using hphi
            simp [weight, hy, hphi]
          refine .inr ⟨rfl, ?_⟩
          rw [hone, hweight]
          simp only [List.map_const', List.sum_replicate_nat]
          omega
      next =>
        cases h
        exact .inr ⟨rfl, by simpa using weight_pos c n⟩

theorem visit_down (c : Scope) (s : Propagation) (n : NodeId) (t : Propagation)
    (out : List NodeId) (h : visit c s n = .ok (t, out)) :
    height c t < height c s ∨
      height c t = height c s ∧ (out.map (weight c)).sum < weight c n := by
  have hpos := weight_pos c n
  have settle : (height c t < height c s ∨ t = s ∧ out = []) →
      height c t < height c s ∨
        height c t = height c s ∧ (out.map (weight c)).sum < weight c n := by
    rintro (hlt | ⟨rfl, rfl⟩)
    · exact .inl hlt
    · exact .inr ⟨rfl, hpos⟩
  unfold visit at h
  cases hnode : c.graph.node n with
  | error e => simp [hnode, bind, Except.bind] at h
  | ok x =>
    have hn := Graph.lt_size_of_node hnode
    simp only [hnode, bind, Except.bind] at h
    split at h
    next hop =>
      rcases visitBlock_down (Graph.node_eq_ok hnode) hop h with hlt | ⟨rfl, hlt⟩
      · exact .inl hlt
      · exact .inr ⟨rfl, hlt⟩
    next =>
      split at h
      next => exact settle (takeEdge_down hn h)
      next => cases h; exact settle (.inr ⟨rfl, rfl⟩)
    next =>
      split at h
      next => exact settle (takeEdge_down hn h)
      next => cases h; exact settle (.inr ⟨rfl, rfl⟩)
    next =>
      split at h
      next => exact settle (takeEdge_down hn h)
      next => cases h; exact settle (.inr ⟨rfl, rfl⟩)
    next => cases h
    next =>
      split at h
      next => cases h
      next computed hcomputed =>
        split at h
        next =>
          split at h
          next => cases h
          next new hnew => exact settle (update_down hn h)
        next => cases h; exact settle (.inr ⟨rfl, rfl⟩)

def progress (c : Scope) : (handlers c).Progress := .queueing (height c) (weight c) (visit_down c)

end Propagation

/-- What the analysis found out about a graph. -/
structure Solution where
  values : Array Fact
  marks : IdMap EdgeMark
  reachable : BitSet
  stats : Worklist.Stats
  /-- Every fact assigned, in order. -/
  trace : Array (NodeId × Fact)

namespace Solution

def value? (r : Solution) (n : NodeId) : Option Fact := r.values[n]?

def constant? (r : Solution) (n : NodeId) : Option Literal := (r.value? n).bind Fact.constant?

def isReachable (r : Solution) (block : NodeId) : Bool := r.reachable.contains block

def mark? (r : Solution) (edge : NodeId) : Option EdgeMark := r.marks.find? edge

/-- The nodes known to be constant, with their values. -/
def constants (r : Solution) : List (NodeId × Literal) :=
  r.values.toList.zipIdx.filterMap fun (a, n) => a.constant?.map fun c => (n, c)

end Solution

/-- Finds the facts of a graph. -/
def Graph.analyze (g : Graph) : Except Error Solution := do
  let walk ← Walk.run g
  let members ← g.membersByBlock walk.live.toList
  let scope : Propagation.Scope := { graph := g, live := walk.live, members }
  let (s, stats) ← Handlers.run (Propagation.progress scope) g walk (Propagation.start g)
  let tracker := s.tracker.finalize
  return { values := s.values, marks := tracker.marks, reachable := tracker.reachable, stats,
           trace := s.trace }

end SeaOfNodes
