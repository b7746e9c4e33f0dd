import SeaOfNodes.BitSet
import SeaOfNodes.Graph.Basic
import SeaOfNodes.Iterate

/-!
The dependency walk.

The walk starts at the stop, start and bad nodes and lists a node after its block and operands.
Blocks and phis are the exception that cuts legal cycles: they count as live from the moment they
are entered. Any other node is entered again if the walk comes back to it while it is unfinished,
provided a block or phi was entered in between; a cycle without one is malformed.

What the walk reaches is *live*. Edges to retired slots are noted as dangling and not followed.
-/

namespace SeaOfNodes

structure Walk where
  /-- The live nodes, each after its inputs. -/
  order : List NodeId
  live : BitSet
  /-- Edges `(user, target)` whose target is retired or outside the arena. -/
  dangling : List (NodeId × NodeId)

namespace Walk

/-- A visit in progress: the inputs of `node` still to be looked at. -/
structure Frame where
  node : NodeId
  breaker : Bool
  rest : List NodeId

/-- A walk in progress, with the visits not yet finished, innermost first. -/
structure State where
  walk : Walk
  stack : List Frame

def begin (g : Graph) : Walk := { order := [], live := BitSet.empty g.size, dangling := [] }

/-- Whether reaching `n` closes a cycle without a breaker: `n` was entered after the last one. -/
def closesCycle (stack : List Frame) (n : NodeId) : Bool :=
  (stack.takeWhile fun f => !f.breaker).any fun f => f.node == n

/-- Starts the visit of `n`. Breakers are live from here on. -/
def enter (s : State) (n : NodeId) (x : Node) : Except Error State :=
  let frame := { node := n, breaker := x.op.isLoopBreaker, rest := x.inputs }
  if x.op.isLoopBreaker then
    match s.walk.live.insert n with
    | .error e => .error e
    | .ok (live, _) => .ok { walk := { s.walk with live }, stack := frame :: s.stack }
  else .ok { s with stack := frame :: s.stack }

/-- Ends the innermost visit. A visit further in may have listed the node already. -/
def leave (w : Walk) (f : Frame) (below : List Frame) : Except Error State :=
  if f.breaker then .ok { walk := { w with order := w.order ++ [f.node] }, stack := below }
  else if w.live.contains f.node then .ok { walk := w, stack := below }
  else
    match w.live.insert f.node with
    | .error e => .error e
    | .ok (live, _) => .ok { walk := { w with live, order := w.order ++ [f.node] }, stack := below }

/-- Looks at the input `i` of the innermost visit, which has the inputs `rest` left. -/
def look (g : Graph) (w : Walk) (f : Frame) (i : NodeId) (rest : List NodeId)
    (below : List Frame) : Except Error State :=
  let s : State := { walk := w, stack := { f with rest } :: below }
  let dangles : State := { s with walk := { w with dangling := w.dangling ++ [(f.node, i)] } }
  match g.nodes[i]? with
  | none => .ok dangles
  | some x =>
    if x.isRetired then .ok dangles
    else if w.live.contains i then .ok s
    else if closesCycle s.stack i then .error (.malformed (.cycle i x.op))
    else enter s i x

def resume : Except Error State → State ⊕ Except Error Walk
  | .ok s => .inl s
  | .error e => .inr (.error e)

/-- One step of the walk; it answers when no visit is left. -/
def step (g : Graph) (s : State) : State ⊕ Except Error Walk :=
  match s.stack with
  | [] => .inr (.ok s.walk)
  | f :: below =>
    match f.rest with
    | [] => resume (leave s.walk f below)
    | i :: rest => resume (look g s.walk f i rest below)

/-- What one step can do. -/
inductive Step (g : Graph) : State → State → Prop where
  | leaveBreaker {w : Walk} {f : Frame} {below : List Frame} :
    f.rest = [] → f.breaker = true →
    Step g ⟨w, f :: below⟩ ⟨{ w with order := w.order ++ [f.node] }, below⟩
  | leaveAgain {w : Walk} {f : Frame} {below : List Frame} :
    f.rest = [] → f.breaker = false → w.live.contains f.node = true →
    Step g ⟨w, f :: below⟩ ⟨w, below⟩
  | leave {w : Walk} {f : Frame} {below : List Frame} {live : BitSet} {fresh : Bool} :
    f.rest = [] → f.breaker = false → w.live.contains f.node = false →
    w.live.insert f.node = .ok (live, fresh) →
    Step g ⟨w, f :: below⟩ ⟨{ w with live, order := w.order ++ [f.node] }, below⟩
  | dangle {w : Walk} {f : Frame} {below : List Frame} {i : NodeId} {rest : List NodeId} :
    f.rest = i :: rest → g.isRetired i = true →
    Step g ⟨w, f :: below⟩
      ⟨{ w with dangling := w.dangling ++ [(f.node, i)] }, { f with rest } :: below⟩
  | skip {w : Walk} {f : Frame} {below : List Frame} {i : NodeId} {rest : List NodeId} :
    f.rest = i :: rest → g.isRetired i = false → w.live.contains i = true →
    Step g ⟨w, f :: below⟩ ⟨w, { f with rest } :: below⟩
  | enterBreaker {w : Walk} {f : Frame} {below : List Frame} {i : NodeId} {rest : List NodeId}
      {x : Node} {live : BitSet} {fresh : Bool} :
    f.rest = i :: rest → g.nodes[i]? = some x → x.isRetired = false →
    w.live.contains i = false → closesCycle ({ f with rest } :: below) i = false →
    x.op.isLoopBreaker = true → w.live.insert i = .ok (live, fresh) →
    Step g ⟨w, f :: below⟩
      ⟨{ w with live }, { node := i, breaker := true, rest := x.inputs } :: { f with rest } :: below⟩
  | enter {w : Walk} {f : Frame} {below : List Frame} {i : NodeId} {rest : List NodeId} {x : Node} :
    f.rest = i :: rest → g.nodes[i]? = some x → x.isRetired = false →
    w.live.contains i = false → closesCycle ({ f with rest } :: below) i = false →
    x.op.isLoopBreaker = false →
    Step g ⟨w, f :: below⟩
      ⟨w, { node := i, breaker := false, rest := x.inputs } :: { f with rest } :: below⟩

theorem resume_eq_inl {r : Except Error State} {t : State} (h : resume r = .inl t) :
    r = .ok t := by
  cases r with
  | ok s => cases h; rfl
  | error e => cases h

/-- The step function does nothing else. -/
theorem Step.of_step {g : Graph} {s t : State} (h : step g s = .inl t) : Step g s t := by
  obtain ⟨w, stack⟩ := s
  cases stack with
  | nil => cases h
  | cons f below =>
    simp only [step] at h
    split at h
    next hrest =>
      have h := resume_eq_inl h
      unfold Walk.leave at h
      split at h
      next hb => cases h; exact .leaveBreaker hrest hb
      next hb =>
        split at h
        next hl => cases h; exact .leaveAgain hrest (by simpa using hb) hl
        next hl =>
          split at h
          next => cases h
          next live fresh hins =>
            cases h
            exact .leave hrest (by simpa using hb) (by simpa using hl) hins
    next i rest hrest =>
      have h := resume_eq_inl h
      simp only [look] at h
      split at h
      next hnone =>
        cases h
        exact .dangle hrest (by simp [Graph.isRetired, hnone])
      next x hx =>
        split at h
        next hret =>
          cases h
          exact .dangle hrest (by simp [Graph.isRetired, hx, hret])
        next hret =>
          have hret : x.isRetired = false := by simpa using hret
          split at h
          next hl =>
            cases h
            exact .skip hrest (by simp [Graph.isRetired, hx, hret]) hl
          next hl =>
            have hl : w.live.contains i = false := by simpa using hl
            split at h
            next => cases h
            next hc =>
              have hc : closesCycle ({ f with rest } :: below) i = false := by simpa using hc
              unfold Walk.enter at h
              split at h
              next hb =>
                split at h
                next => cases h
                next live fresh hins =>
                  cases h
                  rw [hb]
                  exact .enterBreaker hrest hx hret hl hc hb hins
              next hb =>
                cases h
                have hb : x.op.isLoopBreaker = false := by simpa using hb
                rw [hb]
                exact .enter hrest hx hret hl hc hb

/-! ### The walk ends

Free places of the live set first. While they stay the same, every visit begun takes a node off
those that are neither live nor on the open path, the innermost visits of nodes that are not
live. While that stays the same too, inputs are used up and visits end. -/

/-- The innermost visits of nodes that are not live. -/
def openPath (s : State) : List NodeId :=
  (s.stack.takeWhile fun f => !f.breaker && !s.walk.live.contains f.node).map Frame.node

def unvisited (g : Graph) (s : State) : Nat :=
  (List.range g.size).countP fun n => !s.walk.live.contains n && !(openPath s).contains n

def pendingInputs (s : State) : Nat := (s.stack.map fun f => f.rest.length + 1).sum

def rank (g : Graph) (s : State) : Nat × Nat × Nat :=
  (s.walk.live.free, unvisited g s, pendingInputs s)

theorem rank_lt_of_pending {g : Graph} {s t : State} (hlive : t.walk.live = s.walk.live)
    (hopen : ∀ n, n ∈ openPath s → n ∈ openPath t) (hlt : pendingInputs t < pendingInputs s) :
    WellFoundedRelation.rel (rank g t) (rank g s) := by
  have hle : unvisited g t ≤ unvisited g s := by
    refine List.countP_mono_left fun n _ hn => ?_
    simp only [hlive, Bool.and_eq_true, Bool.not_eq_true', List.contains_eq_mem,
      decide_eq_false_iff_not] at hn ⊢
    exact ⟨hn.1, fun hmem => hn.2 (hopen n hmem)⟩
  have hfree : t.walk.live.free = s.walk.live.free := by rw [hlive]
  unfold rank
  rw [hfree]
  refine Prod.Lex.right _ ?_
  rcases Nat.lt_or_eq_of_le hle with h | h
  · exact Prod.Lex.left _ _ h
  · rw [h]
    exact Prod.Lex.right _ hlt

/-- A node entered while `closesCycle` denies it is not on the open path. -/
theorem not_mem_openPath {w : Walk} {stack : List Frame} {n : NodeId}
    (h : closesCycle stack n = false) : n ∉ openPath ⟨w, stack⟩ := by
  intro hmem
  obtain ⟨f, hf, rfl⟩ := List.mem_map.mp hmem
  have hall : ∀ l : List Frame, f ∈ l.takeWhile (fun f => !f.breaker && !w.live.contains f.node) →
      f ∈ l.takeWhile fun f => !f.breaker := by
    intro l
    induction l with
    | nil => intro h; exact h
    | cons x l ih =>
      intro h
      simp only [List.takeWhile_cons] at h ⊢
      cases hb : x.breaker <;> cases hl : w.live.contains x.node <;> simp_all
      rcases h with h | h
      · exact .inl h
      · exact .inr (ih h)
  have : closesCycle stack f.node = true := by
    simp only [closesCycle, List.any_eq_true]
    exact ⟨f, hall _ hf, by simp⟩
  rw [h] at this
  cases this

theorem Step.rank_down {g : Graph} {s t : State} (h : Step g s t) :
    WellFoundedRelation.rel (rank g t) (rank g s) := by
  cases h with
  | leaveBreaker hrest hb =>
    refine rank_lt_of_pending rfl ?_ (by simp [pendingInputs])
    intro n hn
    simp [openPath, hb] at hn
  | leaveAgain hrest hb hl =>
    refine rank_lt_of_pending rfl ?_ (by simp [pendingInputs])
    intro n hn
    simp [openPath, hb, hl] at hn
  | leave hrest hb hl hins => exact Prod.Lex.left _ _ (BitSet.free_lt_of_insert hins hl)
  | dangle hrest hret =>
    refine rank_lt_of_pending rfl ?_ (by simp [pendingInputs, hrest])
    intro n hn
    simpa [openPath, List.takeWhile_cons, apply_ite] using hn
  | skip hrest hret hl =>
    refine rank_lt_of_pending rfl ?_ (by simp [pendingInputs, hrest])
    intro n hn
    simpa [openPath, List.takeWhile_cons, apply_ite] using hn
  | enterBreaker hrest hx hret hl hc hb hins =>
    exact Prod.Lex.left _ _ (BitSet.free_lt_of_insert hins hl)
  | @enter w f below i rest x hrest hx hret hl hc hb =>
    refine Prod.Lex.right _ (Prod.Lex.left _ _ ?_)
    have hi : i < g.size := by
      simp only [Graph.size]
      exact (Array.getElem?_eq_some_iff.mp hx).1
    have hold : openPath ⟨w, { f with rest } :: below⟩ = openPath ⟨w, f :: below⟩ := by
      simp [openPath, List.takeWhile_cons, apply_ite]
    have hnot : i ∉ openPath ⟨w, f :: below⟩ := hold ▸ not_mem_openPath hc
    have hnew : openPath ⟨w, { node := i, breaker := false, rest := x.inputs } ::
        { f with rest } :: below⟩ = i :: openPath ⟨w, f :: below⟩ := by
      rw [← hold]
      simp [openPath, hl]
    refine countP_lt_countP (a := i) ?_ (List.mem_range.mpr hi) ?_ ?_
    · intro n _ hn
      rw [hnew] at hn
      simp only [Bool.and_eq_true, Bool.not_eq_true', List.contains_eq_mem,
        decide_eq_false_iff_not, List.mem_cons, not_or] at hn ⊢
      exact ⟨hn.1, hn.2.2⟩
    · simp [hl, hnot]
    · rw [hnew]
      simp

/-! ### Running the walk -/

/-- Walks from `root`, unless an earlier root reached it. -/
def visitFrom (g : Graph) (w : Walk) (root : NodeId) : Except Error Walk :=
  if w.live.contains root then .ok w
  else do
    let x ← g.node root
    let s ← enter { walk := w, stack := [] } root x
    iterate (step g) (rank g) (fun _ _ h => (Step.of_step h).rank_down) s

/-- The walk of a graph from its anchors. -/
def run (g : Graph) : Except Error Walk :=
  [Anchor.stop, Anchor.start, Anchor.bad].foldlM (visitFrom g) (begin g)

end Walk

/-- The nodes something the function does depends on. -/
def Graph.live (g : Graph) : Except Error BitSet := do
  return (← Walk.run g).live

end SeaOfNodes
