import SeaOfNodes.Graph.Basic
import SeaOfNodes.BitSet
import SeaOfNodes.IdMap

/-!
Marks of control edges, and the blocks they make reachable.

An edge starts undecided and may become taken; a block is reachable once it is the entry or one of
its predecessor edges is taken. When the analysis has settled, `finalize` turns every edge still
undecided into one that is not taken, and such an edge can no longer be taken.
-/

namespace SeaOfNodes

/-- What is known about a control edge. -/
inductive EdgeMark where
  | undecided | taken | notTaken
deriving DecidableEq

def EdgeMark.text : EdgeMark → String
  | undecided => "undecided"
  | taken => "taken"
  | notTaken => "not taken"

structure Tracker where
  marks : IdMap EdgeMark
  reachable : BitSet
  finalized : Bool

namespace Tracker

/-- Nothing is reachable yet. -/
def new (g : Graph) : Tracker :=
  { marks := [], reachable := BitSet.empty g.size, finalized := false }

def mark? (t : Tracker) (edge : NodeId) : Option EdgeMark := t.marks.find? edge

def isTaken (t : Tracker) (edge : NodeId) : Bool := t.mark? edge == some .taken

def isReachable (t : Tracker) (block : NodeId) : Bool := t.reachable.contains block

/-- Starts tracking an edge, undecided unless it has a mark. -/
def register (t : Tracker) (edge : NodeId) : Tracker :=
  match t.mark? edge with
  | some _ => t
  | none => { t with marks := t.marks.insert edge .undecided }

/-- Marks an edge as taken and tells whether the mark changed. -/
def take (t : Tracker) (edge : NodeId) : Except Error (Tracker × Bool) :=
  match t.mark? edge with
  | some .taken => .ok (t, false)
  | some .notTaken => .error (.edgeRegressed edge)
  | _ => .ok ({ t with marks := t.marks.insert edge .taken }, true)

/-- Whether control can enter a block as far as the marks tell. -/
def isEntered (t : Tracker) (g : Graph) (block : NodeId) : Except Error Bool :=
  if block = Anchor.startBlock then .ok true
  else do return (← g.node block).operands.any t.isTaken

/-- Looks at the predecessor edges of a block again, and tells whether it became reachable. -/
def updateBlock (t : Tracker) (g : Graph) (block : NodeId) : Except Error (Tracker × Bool) :=
  if t.isReachable block then .ok (t, false)
  else do
    if ← t.isEntered g block then
      match t.reachable.insert block with
      | .error e => .error e
      | .ok (reachable, _) => return ({ t with reachable }, true)
    else return (t, false)

/-- Settles every undecided edge as not taken. -/
def finalize (t : Tracker) : Tracker :=
  { t with
    marks := t.marks.map fun (n, m) => (n, if m = .undecided then .notTaken else m)
    finalized := true }

/-! ### What each operation changes -/

theorem take_eq_true {t u : Tracker} {e : NodeId} (h : t.take e = .ok (u, true)) :
    t.isTaken e = false ∧ u.reachable = t.reachable ∧
      ∀ i, u.isTaken i = (decide (i = e) || t.isTaken i) := by
  unfold take at h
  split at h
  next => cases h
  next => cases h
  next hother _ =>
    cases h
    refine ⟨?_, rfl, fun i => ?_⟩
    · simpa [isTaken] using hother
    · by_cases hi : i = e
      · subst hi
        simp [isTaken, mark?]
      · simp [isTaken, mark?, IdMap.find?_insert_ne hi, hi]

theorem take_eq_false {t u : Tracker} {e : NodeId} (h : t.take e = .ok (u, false)) : u = t := by
  unfold take at h
  split at h <;> cases h
  rfl

theorem updateBlock_eq_true {t u : Tracker} {g : Graph} {b : NodeId}
    (h : t.updateBlock g b = .ok (u, true)) :
    t.isReachable b = false ∧ u.marks = t.marks ∧
      ∀ i, u.isReachable i = (decide (i = b) || t.isReachable i) := by
  unfold updateBlock at h
  split at h
  next => cases h
  next hb =>
    cases hentered : t.isEntered g b with
    | error e => simp [hentered, bind, Except.bind] at h
    | ok entered =>
      simp only [hentered, bind, Except.bind] at h
      split at h
      next =>
        split at h
        next => cases h
        next reachable fresh hins =>
          cases h
          exact ⟨by simpa using hb, rfl, (BitSet.insert_eq_ok hins).2.2.2⟩
      next => cases h

theorem updateBlock_eq_false {t u : Tracker} {g : Graph} {b : NodeId}
    (h : t.updateBlock g b = .ok (u, false)) : u = t := by
  unfold updateBlock at h
  split at h
  next =>
    cases h
    rfl
  next hb =>
    cases hentered : t.isEntered g b with
    | error e => simp [hentered, bind, Except.bind] at h
    | ok entered =>
      simp only [hentered, bind, Except.bind] at h
      split at h
      next =>
        split at h
        next => cases h
        next => cases h
      next =>
        cases h
        rfl

end Tracker

end SeaOfNodes
