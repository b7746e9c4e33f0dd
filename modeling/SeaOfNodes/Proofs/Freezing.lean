import SeaOfNodes.Proofs.Fixpoint

/-!
Which marks are final once a tracker is finalized.

Every edge has its mark for itself: a call turns the mark of an edge into another one without a look
at the rest of the tracker (`Tracker.mark?_call`), so a sequence of calls is followed edge by edge.
A decided mark never changes. What finalizing leaves is decided, but edges without a mark are not
settled by it: a later call gives them the mark that it would give in a new tracker
(`Tracker.marks_after_finalize`).
-/

namespace SeaOfNodes

namespace Tracker

/-- The calls that change a tracker. Blocks are looked up in any graph. -/
inductive Call where
  | register (edge : NodeId)
  | take (edge : NodeId)
  | updateBlock (g : Graph) (block : NodeId)
  | finalize

/-- The edge that a call is about. -/
def Call.edge? : Call → Option NodeId
  | register e | take e => some e
  | updateBlock _ _ | finalize => none

/-- The tracker after a call. One that fails leaves it as it was. -/
def call (t : Tracker) : Call → Tracker
  | .register e => t.register e
  | .take e => ((t.take e).map Prod.fst).toOption.getD t
  | .updateBlock g b => ((t.updateBlock g b).map Prod.fst).toOption.getD t
  | .finalize => t.finalize

def runCalls (t : Tracker) (calls : List Call) : Tracker := calls.foldl call t

/-! ### The mark of one edge -/

def settle (m : EdgeMark) : EdgeMark := if m = .undecided then .notTaken else m

/-- What becomes of the mark of the edge `e`. -/
def Call.remark (e : NodeId) : Call → Option EdgeMark → Option EdgeMark
  | register d, m => if e = d then m.or (some .undecided) else m
  | take d, m => if e = d then (if m = some .notTaken then m else some .taken) else m
  | updateBlock _ _, m => m
  | finalize, m => m.map settle

/-- Taking an edge fails exactly if it is settled as not taken. -/
theorem take_eq_error_iff {t : Tracker} {d : NodeId} :
    (∃ err, t.take d = .error err) ↔ t.mark? d = some .notTaken := by
  unfold take
  split <;> simp_all

theorem mark?_of_take {t u : Tracker} {d : NodeId} {changed : Bool}
    (h : t.take d = .ok (u, changed)) (e : NodeId) :
    u.mark? e = if e = d then some .taken else t.mark? e := by
  unfold take at h
  split at h
  next hmark =>
    cases h
    split
    next he => rw [he, hmark]
    next => rfl
  next => cases h
  next =>
    cases h
    split
    next he => rw [he, mark?, IdMap.find?_insert_self]
    next he => rw [mark?, IdMap.find?_insert_ne he, mark?]

theorem mark?_take (t : Tracker) (d e : NodeId) :
    (t.call (.take d)).mark? e = (Call.take d).remark e (t.mark? e) := by
  simp only [call, Call.remark]
  cases h : t.take d with
  | error err =>
    have hmark := take_eq_error_iff.mp ⟨err, h⟩
    by_cases he : e = d
    · simp [he, hmark, Except.map, Except.toOption]
    · simp [he, Except.map, Except.toOption]
  | ok r =>
    obtain ⟨u, changed⟩ := r
    have hmark : t.mark? d ≠ some .notTaken := fun hmark => by
      obtain ⟨err, herr⟩ := take_eq_error_iff.mpr hmark
      cases herr.symm.trans h
    refine (mark?_of_take h e).trans ?_
    by_cases he : e = d
    · simp [he, hmark]
    · simp [he]

theorem mark?_updateBlock (t : Tracker) (g : Graph) (b e : NodeId) :
    (t.call (.updateBlock g b)).mark? e = t.mark? e := by
  simp only [call]
  cases h : t.updateBlock g b with
  | error => rfl
  | ok r =>
    obtain ⟨u, changed⟩ := r
    cases changed with
    | true => exact congrArg (IdMap.find? e) (updateBlock_eq_true h).2.1
    | false =>
      rw [updateBlock_eq_false h]
      rfl

/-- What a call does to the mark of an edge depends on that mark alone. -/
theorem mark?_call (t : Tracker) (c : Call) (e : NodeId) :
    (t.call c).mark? e = c.remark e (t.mark? e) := by
  cases c with
  | register d =>
    rw [call, Propagation.mark?_register, Call.remark]
    by_cases he : e = d
    · subst he
      cases hmark : t.mark? e <;> simp
    · simp [he]
  | take d => exact t.mark?_take d e
  | updateBlock g b => exact t.mark?_updateBlock g b e
  | finalize => exact t.mark?_finalize e

theorem mark?_runCalls (t : Tracker) (calls : List Call) (e : NodeId) :
    (t.runCalls calls).mark? e = calls.foldl (fun m c => c.remark e m) (t.mark? e) := by
  induction calls generalizing t with
  | nil => rfl
  | cons c calls ih =>
    rw [List.foldl_cons, ← mark?_call]
    exact ih (t.call c)

theorem Call.remark_decided (c : Call) (e : NodeId) {m : EdgeMark} (h : m ≠ .undecided) :
    c.remark e (some m) = some m := by
  cases c with
  | register d => simp [remark]
  | take d => cases m <;> simp_all [remark]
  | updateBlock g b => rfl
  | finalize => simp [remark, settle, h]

theorem remarks_decided (calls : List Call) (e : NodeId) {m : EdgeMark} (h : m ≠ .undecided) :
    calls.foldl (fun m c => c.remark e m) (some m) = some m := by
  induction calls with
  | nil => rfl
  | cons c calls ih => rw [List.foldl_cons, c.remark_decided e h, ih]

/-- Only a call about the edge itself gives it its first mark, and no call takes a mark away. -/
theorem Call.remark_eq_none_iff (c : Call) (e : NodeId) (m : Option EdgeMark) :
    c.remark e m = none ↔ m = none ∧ c.edge? ≠ some e := by
  cases c with
  | register d =>
    by_cases he : e = d
    · cases m <;> simp [remark, edge?, he]
    · simp [remark, edge?, he, Ne.symm he]
  | take d =>
    by_cases he : e = d
    · simp only [remark, edge?, he, if_true]
      split <;> simp_all
    · simp [remark, edge?, he, Ne.symm he]
  | updateBlock g b => simp [remark, edge?]
  | finalize => simp [remark, edge?]

theorem remarks_eq_none_iff (calls : List Call) (e : NodeId) (m : Option EdgeMark) :
    calls.foldl (fun m c => c.remark e m) m = none ↔
      m = none ∧ ∀ c ∈ calls, c.edge? ≠ some e := by
  induction calls generalizing m with
  | nil => simp
  | cons c calls ih =>
    rw [List.foldl_cons, ih, c.remark_eq_none_iff, List.forall_mem_cons, and_assoc]

/-! ### After finalizing -/

theorem mark?_new (g : Graph) (e : NodeId) : (new g).mark? e = none := rfl

theorem mark?_finalize_ne_undecided (t : Tracker) (e : NodeId) :
    t.finalize.mark? e ≠ some .undecided := by
  rw [mark?_finalize]
  cases t.mark? e with
  | none => decide
  | some m => cases m <;> decide

/-- The marks that finalizing leaves are the last ones, and other edges are as in a new tracker. -/
theorem mark?_runCalls_finalize (g : Graph) (t : Tracker) (calls : List Call) (e : NodeId) :
    (t.finalize.runCalls calls).mark? e =
      (t.finalize.mark? e).or (((new g).runCalls calls).mark? e) := by
  rw [mark?_runCalls, mark?_runCalls, mark?_new]
  cases hmark : t.finalize.mark? e with
  | none => rfl
  | some m =>
    have hm : m ≠ .undecided := fun h => t.mark?_finalize_ne_undecided e (h ▸ hmark)
    rw [remarks_decided calls e hm, Option.some_or]

/-- After any calls a tracker is finalized, and more calls follow. An edge that had a mark when the
tracker was finalized keeps it, and it is decided; any other edge has the mark that the later calls
alone would give it. So no mark has changed if and only if every edge that a later call registered
or took had a mark by then. -/
theorem marks_after_finalize (g : Graph) (before after : List Call) :
    let t := ((new g).runCalls before).finalize
    (∀ e, t.mark? e ≠ some .undecided ∧
      (t.runCalls after).mark? e = (t.mark? e).or (((new g).runCalls after).mark? e)) ∧
    ((∀ e, (t.runCalls after).mark? e = t.mark? e) ↔
      ∀ c ∈ after, ∀ e, c.edge? = some e → t.mark? e ≠ none) := by
  intro t
  refine ⟨fun e => ⟨mark?_finalize_ne_undecided _ e, mark?_runCalls_finalize g _ after e⟩,
    fun hfrozen c hc e he hnone => ?_, fun hmarked e => ?_⟩
  · have hmark := hfrozen e
    rw [hnone, mark?_runCalls, remarks_eq_none_iff] at hmark
    exact hmark.2 c hc he
  · cases hmark : t.mark? e with
    | none =>
      rw [mark?_runCalls, remarks_eq_none_iff]
      exact ⟨hmark, fun c hc he => hmarked c hc e he hmark⟩
    | some m =>
      rw [mark?_runCalls_finalize g, hmark, Option.some_or]

/-- An edge registered too late is undecided, may be taken, and a second settling decides it. -/
example :
    let t := (new (.new "f" 0)).runCalls [.finalize]
    t.finalized = true ∧ t.mark? 42 = none ∧
      (t.runCalls [.register 42]).mark? 42 = some .undecided ∧
      (t.runCalls [.register 42, .take 42]).mark? 42 = some .taken ∧
      (t.runCalls [.register 42, .finalize]).mark? 42 = some .notTaken := by decide

end Tracker

end SeaOfNodes
