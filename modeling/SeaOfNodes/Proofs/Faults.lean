import SeaOfNodes.CallGraph
import SeaOfNodes.Graph.Dot
import SeaOfNodes.Proofs.Ascent
import SeaOfNodes.Proofs.Exchange
import SeaOfNodes.Proofs.Journal
import SeaOfNodes.Proofs.Rounds

/-!
Nothing faults on a graph that the primitives made.

All that is needed of the graph is that users mirror operands and that the anchors have their slots.
Then operands and users of a node have slots, what is live has a slot, and these are all the ids that
are looked up; blocks may be anywhere, and are looked up only once no edge dangles. Passes that edit
the graph keep this. So each of them gives a result or reports a failure of the graph.
-/

namespace SeaOfNodes

namespace Error

/-- The graph has a knot. -/
def IsMalformed (e : Error) : Prop := ∃ m, e = .malformed m

/-- The failure is no fault. -/
def Reported (e : Error) : Prop := e.isFault = false

theorem IsMalformed.reported {e : Error} (h : e.IsMalformed) : e.Reported := by
  obtain ⟨m, rfl⟩ := h
  rfl

end Error

open Error (IsMalformed Reported)

/-! ### Lookups -/

namespace Graph

variable {g : Graph} {P : Error → Prop} {n : NodeId} {x : Node}

theorem node_ends (hn : n < g.size) : Ends P (fun x => g.nodes[n]? = some x) (g.node n) := by
  obtain ⟨x, hx⟩ := exists_node_of_lt hn
  exact .of_ok (node_eq_ok_iff.mpr hx) hx

theorem select_ends (p : Node → Bool) {ns : List NodeId} (h : ∀ n ∈ ns, n < g.size) :
    Ends P (fun out => ∀ n ∈ out, n ∈ ns) (g.select p ns) := by
  obtain ⟨out, hout⟩ := exists_select p h
  exact .of_ok hout fun n hn => ((mem_select hout).mp hn).1

theorem membersByBlock_ends {ns : List NodeId} (h : ∀ n ∈ ns, n < g.size) :
    Ends P (fun m => ∀ b, ∀ n ∈ m.filed b, n ∈ ns) (g.membersByBlock ns) := by
  obtain ⟨m, hm⟩ := exists_membersByBlock h
  exact .of_ok hm fun b n hn => ((mem_membersByBlock hm).mp hn).1

theorem Mirrored.operand_lt (hm : g.Mirrored) (hx : g.nodes[n]? = some x) :
    ∀ o ∈ x.operands, o < g.size := fun _ ho => hm.lt_size (operands_eq hx ▸ ho)

theorem Mirrored.user_lt (hm : g.Mirrored) (hx : g.nodes[n]? = some x) :
    ∀ u ∈ x.users, u < g.size := by
  intro u hu
  rw [← users_eq hx, hm.mem_users] at hu
  by_contra hout
  rw [operands_of_size_le (Nat.le_of_not_lt hout)] at hu
  cases hu

/-- What is live has a slot. -/
theorem Live.lt_size (hsize : Anchor.bad < g.size) (h : g.Live n) : n < g.size := by
  cases hret : g.isRetired n with
  | false =>
    obtain ⟨x, hx, -⟩ := isRetired_eq_false.mp hret
    exact lt_size_of_getElem? hx
  | true =>
    have hroot : ∀ n ∈ [Anchor.stop, Anchor.start, Anchor.bad], n ≤ Anchor.bad := by decide
    exact Nat.lt_of_le_of_lt (hroot n (h.anchor hret)) hsize

/-- The walk ends, or finds a knot. -/
theorem walk_ends (hsize : Anchor.bad < g.size) :
    Ends IsMalformed (Walk.Complete g) (Walk.run g) := by
  cases hrun : Walk.run g with
  | ok w => exact Walk.complete_of_run hrun
  | error e => exact (Walk.knotted_of_run hsize hrun).1

theorem live_ends (hsize : Anchor.bad < g.size) :
    Ends IsMalformed (fun live => ∀ n ∈ live.toList, n < g.size) g.live :=
  (walk_ends hsize).bind fun _ hw n hn =>
    ((hw.contains_iff n).mp (BitSet.mem_toList.mp hn)).lt_size hsize

theorem reachableBlocks_ends (hsize : Anchor.bad < g.size) {blocks : List NodeId}
    (h : ∀ b ∈ blocks, b < g.size) : Ends P (fun _ => True) (g.reachableBlocks blocks) := by
  obtain ⟨s, hs⟩ := exists_reachableBlocks (Nat.lt_trans (by decide) hsize) h
  exact .of_ok hs trivial

/-! ### The check -/

/-- The check found something wrong with `g`. -/
def IsViolation (g : Graph) (e : Error) : Prop := ∃ n cause, e = .invalidGraph g.name n cause

theorem IsViolation.reported {e : Error} (h : g.IsViolation e) : e.Reported := by
  obtain ⟨n, cause, rfl⟩ := h
  rfl

theorem violation_ends {α : Type} {Q : α → Prop} (at? : Option NodeId) (cause : Violation) :
    Ends g.IsViolation Q (g.violation at? cause) := ⟨at?, cause, rfl⟩

theorem checkUsers_eq_ok (hm : g.Mirrored) (hx : g.nodes[n]? = some x) :
    g.checkUsers n x = .ok () := by
  refine forM_of_eq_ok fun o ho => ?_
  obtain ⟨y, hy⟩ := exists_node_of_lt (hm.operand_lt hx o ho)
  have hcount := hm n o
  rw [users_eq hy, operands_eq hx] at hcount
  rw [bind_of_ok (node_eq_ok_iff.mpr hy), if_pos hcount.symm]
  rfl

theorem firstHasMode_ends (hm : g.Mirrored) (hx : g.nodes[n]? = some x) (mode : Mode) :
    Ends P (fun _ => True) (g.firstHasMode x mode) := by
  unfold firstHasMode
  split
  · exact trivial
  · next o ho =>
    exact (node_ends (hm.operand_lt hx o (List.mem_of_mem_head? ho))).bind fun _ _ => trivial

theorem checkPredecessors_ends (hm : g.Mirrored) (hx : g.nodes[n]? = some x) :
    Ends g.IsViolation (fun _ => True) (g.checkPredecessors n x) := by
  refine .forM fun p hp => ?_
  split
  · exact violation_ends _ _
  · refine (node_ends (hm.operand_lt hx p hp)).bind fun y _ => ?_
    split
    · exact trivial
    · exact violation_ends _ _

theorem checkKind_ends (hm : g.Mirrored) (hx : g.nodes[n]? = some x)
    (hblock : ∀ b, x.block = some b → b < g.size) :
    Ends g.IsViolation (fun _ => True) (g.checkKind n x) := by
  unfold checkKind
  split
  · exact checkPredecessors_ends hm hx
  · unfold checkPhi
    split
    · exact violation_ends _ _
    · next b hb =>
      refine (node_ends (hblock b hb)).bind fun y _ => ?_
      split
      · exact violation_ends _ _
      · split
        · exact trivial
        · exact violation_ends _ _
  · refine (firstHasMode_ends hm hx _).bind fun first _ => ?_
    cases first with
    | none => exact violation_ends _ _
    | some m => exact trivial
  · exact trivial

theorem checkMemoryUse_ends (hm : g.Mirrored) (hx : g.nodes[n]? = some x) (c : Consumers) :
    Ends g.IsViolation (fun _ => True) (g.checkMemoryUse c n x) := by
  unfold checkMemoryUse
  split
  · refine (firstHasMode_ends hm hx _).bind fun first _ => ?_
    split
    · exact violation_ends _ _
    · split
      · exact trivial
      · split
        · exact violation_ends _ _
        · exact trivial
  · exact trivial

theorem checkMemoryResult_ends (hm : g.Mirrored) (hx : g.nodes[n]? = some x) :
    Ends g.IsViolation (fun _ => True) (g.checkMemoryResult n x) := by
  unfold checkMemoryResult
  split
  · refine (select_ends _ (hm.user_lt hx)).bind fun projections _ => ?_
    split
    · exact trivial
    · exact violation_ends _ _
  · exact trivial

/-- The check of a node passes or finds a violation, if the block of the node has a slot. -/
theorem checkNode_ends (hm : g.Mirrored) (hn : n < g.size)
    (hblock : ∀ b, g.blockOf n = some b → b < g.size) (c : Consumers) :
    Ends g.IsViolation (fun _ => True) (g.checkNode c n) := by
  refine (node_ends hn).bind fun x hx => ?_
  rw [bind_of_ok (checkUsers_eq_ok hm hx)]
  refine (checkKind_ends hm hx (blockOf_eq hx ▸ hblock)).bind fun _ _ => ?_
  refine (checkMemoryUse_ends hm hx c).bind fun _ _ => ?_
  exact (checkMemoryResult_ends hm hx).bind fun _ _ => trivial

/-- The check passes or names a violation. -/
theorem verify_ends (hm : g.Mirrored) (hsize : Anchor.bad < g.size) :
    Ends g.IsViolation (fun _ => True) g.verify := by
  unfold verify
  cases hrun : Walk.run g with
  | error e =>
    obtain ⟨m, rfl⟩ := (Walk.knotted_of_run hsize hrun).1
    exact violation_ends _ _
  | ok walk =>
    have hw := Walk.complete_of_run hrun
    have hlt : ∀ n ∈ walk.order, n < g.size := fun n hn => ((hw.mem_order n).mp hn).lt_size hsize
    dsimp only
    cases hdangling : walk.dangling with
    | cons d ds => exact violation_ends _ _
    | nil =>
      -- Nothing dangles, so the block of a live node is in use.
      have hblock : ∀ n ∈ walk.order, ∀ b, g.blockOf n = some b → b < g.size := by
        intro n hn b hb
        obtain ⟨x, hx⟩ := exists_node_of_lt (hlt n hn)
        have hin : b ∈ g.inputs n := by
          rw [inputs_eq hx, Node.inputs, ← blockOf_eq hx, hb]
          exact List.mem_cons_self
        cases hret : g.isRetired b with
        | false =>
          obtain ⟨y, hy, -⟩ := isRetired_eq_false.mp hret
          exact lt_size_of_getElem? hy
        | true =>
          have hmem := (hw.mem_dangling n b).mpr ⟨(hw.mem_order n).mp hn, hin, hret⟩
          rw [hdangling] at hmem
          cases hmem
      refine Ends.bind (Q := fun _ => True) (.foldlM trivial fun n hn c _ =>
        checkNode_ends hm (hlt n hn) (hblock n hn) c) fun _ _ => ?_
      refine (select_ends _ hlt).bind fun blocks hblocks => ?_
      refine (reachableBlocks_ends hsize fun b hb => hlt b (hblocks b hb)).bind fun reachable _ => ?_
      split
      · exact violation_ends _ _
      · exact trivial

/-! ### Drawings and calls -/

theorem dotEdges_ends (hm : g.Mirrored) (hn : n < g.size) (live : BitSet) :
    Ends P (fun _ => True) (Dot.edges g live n) := by
  refine (node_ends hn).bind fun x hx => ?_
  refine Ends.bind (.mapM (R := fun _ => True) fun ⟨o, i⟩ ho => ?_) fun _ _ => trivial
  dsimp only
  split
  · exact (node_ends (hm.operand_lt hx o (List.fst_mem_of_mem_zipIdx ho))).bind fun _ _ => trivial
  · exact trivial

theorem toDot_ends (hm : g.Mirrored) (hsize : Anchor.bad < g.size) :
    Ends IsMalformed (fun _ => True) g.toDot := by
  refine (walk_ends hsize).bind fun walk hw => ?_
  have hlive : ∀ n ∈ walk.live.toList, n < g.size := fun n hn =>
    ((hw.contains_iff n).mp (BitSet.mem_toList.mp hn)).lt_size hsize
  have horder : ∀ n ∈ walk.order, n < g.size := fun n hn =>
    ((hw.mem_order n).mp hn).lt_size hsize
  refine (membersByBlock_ends hlive).bind fun members hmembers => ?_
  refine (select_ends _ horder).bind fun blocks _ => ?_
  refine Ends.bind (.mapM (R := fun _ => True) fun b _ => ?_) fun clusters _ => ?_
  · refine Ends.bind (.mapM (R := fun _ => True) fun n hn => ?_) fun _ _ => trivial
    exact (node_ends (hlive n (hmembers b n hn))).bind fun _ _ => trivial
  · exact (Ends.mapM (R := fun _ => True) fun n hn =>
      dotEdges_ends hm (horder n hn) walk.live).bind fun _ _ => trivial

theorem callees_ends (hlive : Ends P (fun live => ∀ n ∈ live.toList, n < g.size) g.live) :
    Ends P (fun _ => True) g.callees := by
  refine hlive.bind fun live hlive => ?_
  refine .foldlM trivial fun n hn names _ => (node_ends (hlive n hn)).bind fun x _ => ?_
  split <;> exact trivial

/-! ### The analysis -/

/-- The analysis gives a result, finds a knot or meets a retired node. -/
theorem analyze_ends (hm : g.Mirrored) (hsize : Anchor.bad < g.size) :
    Ends Reported (fun _ => True) g.analyze := by
  by_cases hknot : g.Knotted
  · obtain ⟨m, hrun⟩ := (Walk.run_eq_error_iff hsize).mpr hknot
    exact .of_error (bind_of_error hrun) rfl
  · rcases analyze_of_not_knotted hm hsize hknot with ⟨-, n, hn⟩ | ⟨-, r, hr⟩
    · exact .of_error hn rfl
    · exact .of_ok hr trivial

end Graph

/-! ### Runs -/

namespace Execution

variable {g : Graph} {P : Error → Prop} {m : Machine} {n : NodeId} {x : Node}

open SeaOfNodes.Graph (node_ends select_ends)

theorem get?_ends (hn : n < m.env.size) : Ends P (fun _ => True) (m.get? n) := by
  unfold Machine.get?
  rw [Array.getElem?_eq_getElem hn]
  exact trivial

theorem get_ends (hn : n < m.env.size) : Ends Reported (fun _ => True) (m.get n) := by
  refine (get?_ends hn).bind fun v _ => ?_
  cases v with
  | none => exact rfl
  | some v => exact trivial

theorem set_ends (hn : n < m.env.size) (v : Literal) :
    Ends P (fun m' => m'.env.size = m.env.size) (m.set n v) := by
  unfold Machine.set
  rw [if_pos hn]
  exact Array.size_setIfInBounds

theorem operand_ends (hx : ∀ o ∈ x.operands, o < m.env.size) (i : Nat) :
    Ends Reported (fun _ => True) (operand m n x i) := by
  unfold operand
  split
  · exact rfl
  · next o ho => exact get_ends (hx o (List.mem_of_getElem? ho))

theorem typed_ends (v : Option Literal) : Ends Reported (fun _ => True) (typed n v) := by
  cases v with
  | none => exact rfl
  | some v => exact trivial

/-- A node that acts reads operands only. -/
theorem choose_ends (hx : ∀ o ∈ x.operands, o < m.env.size) (args : List Literal) :
    Ends Reported (fun _ => True) (choose args m n x) := by
  have hread (i : Nat) := operand_ends (n := n) hx i
  have hrest : Ends Reported (fun _ => True) ((x.operands.drop 1).mapM m.get) :=
    (Ends.mapM (R := fun _ => True) fun o ho => get_ends (hx o (List.mem_of_mem_drop ho))).mono
      (fun _ h => h) fun _ _ => trivial
  unfold choose
  cases x.op with
  | const | jump | start | stop | bad | phi | block => exact trivial
  | retired => exact rfl
  | proj kind =>
    cases kind with
    | memory => exact trivial
    | result => exact (hread 0).bind fun _ _ => typed_ends _
    | argument i =>
      dsimp only
      split
      · exact rfl
      · exact typed_ends _
    | arm side =>
      refine (hread 0).bind fun v _ => ?_
      split
      · exact rfl
      · exact trivial
  | conv | minus => exact (hread 0).bind fun _ _ => typed_ends _
  | binary | cmp => exact (hread 0).bind fun _ _ => (hread 1).bind fun _ _ => typed_ends _
  | not | cond => exact (hread 0).bind fun _ _ => trivial
  | div | mod | store => exact (hread 1).bind fun _ _ => (hread 2).bind fun _ _ => trivial
  | load => exact (hread 1).bind fun _ _ => trivial
  | call | ret => exact hrest.bind fun _ _ => trivial

/-- The members of a schedule are nodes of the graph. -/
def Schedule.Of (g : Graph) (s : Schedule) : Prop := ∀ e ∈ s, g.nodes[e.1]? = some e.2

theorem schedule_ends (hsize : Anchor.bad < g.size) :
    Ends IsMalformed (Schedule.Of g) (schedule g) := by
  refine (Graph.walk_ends hsize).bind fun walk hw => .mapM fun n hn => ?_
  exact (node_ends (((hw.mem_order n).mp hn).lt_size hsize)).bind fun _ hx => hx

/-- Without a knot the nodes can be scheduled. -/
theorem exists_schedule (hsize : Anchor.bad < g.size) (hknot : ¬ g.Knotted) :
    ∃ s, schedule g = .ok s := by
  obtain ⟨walk, hwalk⟩ := Walk.exists_run hsize hknot
  rw [schedule, bind_of_ok hwalk]
  refine mapM_succeeds fun n hn => ?_
  have hlive := ((Walk.complete_of_run hwalk).mem_order n).mp hn
  obtain ⟨x, hx⟩ := Graph.exists_node_of_lt (hlive.lt_size hsize)
  exact ⟨(n, x), bind_of_ok (Graph.node_eq_ok_iff.mpr hx)⟩

/-- What holds when the members of a block have acted. -/
def Ending.Fits (g : Graph) : Ending → Prop
  | .through m exit => m.env.size = g.size ∧ ∀ edge ∈ exit, edge < g.size
  | .finished .. => True

theorem runBody_ends (hm : g.Mirrored) (handler : Handler) (args : List Literal) {s : Schedule}
    (hs : s.Of g) (hsize : m.env.size = g.size) {exit : Option NodeId}
    (hexit : ∀ edge ∈ exit, edge < g.size) :
    Ends Reported (Ending.Fits g) (runBody handler args s m exit) := by
  induction s generalizing m exit with
  | nil => exact ⟨hsize, hexit⟩
  | cons e rest ih =>
    obtain ⟨n, x⟩ := e
    obtain ⟨hx, hrest⟩ := List.forall_mem_cons.mp hs
    have hn : n < g.size := Graph.lt_size_of_getElem? hx
    have hset (m' : Machine) (hm' : m'.env.size = g.size) (v : Literal) :
        Ends Reported (fun m'' => m''.env.size = g.size) (m'.set n v) :=
      (set_ends (hm' ▸ hn) v).mono (fun _ h => h) fun _ h => h.trans hm'
    have hchoose := choose_ends (m := m) (n := n) (hsize ▸ hm.operand_lt hx) args
    refine hchoose.bind fun action _ => ?_
    cases action with
    | value v => exact (hset m hsize v).bind fun _ h => ih hrest h hexit
    | nothing => exact ih hrest hsize hexit
    | leave => exact ih hrest hsize fun edge he => by cases he; exact hn
    | write a v => exact ih hrest (m := m.store a v) hsize hexit
    | invoke callee vs =>
      exact (hset { m with effects := m.effects.push (.call callee vs) } hsize _).bind
        fun _ h => ih hrest h hexit
    | finish o => exact trivial

theorem runPhis_ends (hm : g.Mirrored) {s : Schedule} (hs : s.Of g)
    (hsize : m.env.size = g.size) (k : Nat) :
    Ends Reported (fun m' => m'.env.size = g.size) (runPhis s k m) := by
  refine Ends.bind (.mapM (R := fun v => v.1 < g.size) fun ⟨n, x⟩ hn => ?_) fun incoming hin => ?_
  · have hx := hs _ hn
    have hlt : n < g.size := Graph.lt_size_of_getElem? hx
    dsimp only
    split
    · exact hlt
    · next o ho =>
      exact (get?_ends (hsize ▸ hm.operand_lt hx o (List.mem_of_getElem? ho))).bind fun _ _ => hlt
  · refine .foldlM hsize fun ⟨n, v⟩ hn m' hm' => ?_
    cases v with
    | none => exact rfl
    | some v => exact (set_ends (hm' ▸ hin _ hn) v).mono (fun _ h => h) fun _ h => h.trans hm'

theorem follow_ends (hm : g.Mirrored) {edge : NodeId} (he : edge < g.size) :
    Ends Reported (fun _ => True) (follow g edge) := by
  refine (node_ends he).bind fun x hx => ?_
  refine (select_ends _ (hm.user_lt hx)).bind fun blocks hblocks => ?_
  split
  · exact rfl
  · next b hb =>
    exact (node_ends (hm.user_lt hx b (hblocks b (List.mem_of_mem_head? hb)))).bind
      fun _ _ => trivial

/-- Running a block keeps a value for every slot. -/
theorem runBlock_ends (hm : g.Mirrored) (handler : Handler) (args : List Literal) {s : Schedule}
    (hs : s.Of g) (p : Position) (hsize : m.env.size = g.size) :
    Ends Reported (fun r => ∀ p' m', r = .inl (p', m') → m'.env.size = g.size)
      (runBlock g s handler args p m) := by
  have harrive : Ends Reported (fun m' => m'.env.size = g.size) (arrive s p m) := by
    unfold arrive
    split
    · exact hsize
    · exact runPhis_ends hm (fun e he => hs e (List.mem_of_mem_filter he)) hsize _
  rw [runBlock_eq]
  refine harrive.bind fun m₁ hm₁ => ?_
  have hexit : ∀ edge ∈ (none : Option NodeId), edge < g.size := fun _ he => by cases he
  refine (runBody_ends hm handler args (s := s.body p.block)
    (fun e he => hs e (List.mem_of_mem_filter he)) hm₁ hexit).bind fun ending hending => ?_
  cases ending with
  | finished m₂ o => exact fun p' m' h => by cases h
  | through m₂ exit =>
    cases exit with
    | none => exact rfl
    | some edge =>
      refine (follow_ends hm (hending.2 edge rfl)).bind fun p' _ p'' m' h => ?_
      cases h
      exact hending.1

theorem runFrom_ends (hm : g.Mirrored) (handler : Handler) (args : List Literal) {s : Schedule}
    (hs : s.Of g) (fuel steps : Nat) (p : Position) (hsize : m.env.size = g.size) :
    Ends Reported (fun _ => True) (runFrom g s handler args fuel steps p m) := by
  induction fuel generalizing steps p m with
  | zero => exact trivial
  | succ fuel ih =>
    refine (runBlock_ends hm handler args hs p hsize).bind fun r hr => ?_
    rcases r with ⟨p', m'⟩ | ⟨m', outcome⟩
    · exact ih (steps + 1) p' (hr p' m' rfl)
    · exact trivial

end Execution

theorem Graph.execute_ends {g : Graph} (hm : g.Mirrored) (hsize : Anchor.bad < g.size)
    (args : List Literal) (handler : Handler) (fuel : Nat) :
    Ends Reported (fun _ => True) (g.execute args handler fuel) :=
  ((Execution.schedule_ends hsize).mono (fun _ h => h.reported) fun _ h => h).bind fun _ hs =>
    Execution.runFrom_ends hm handler args hs fuel 0 _ Array.size_replicate

/-! ### Edits -/

namespace Graph

/-- Users mirror operands, in an arena of `k` slots. -/
structure Arena (k : Nat) (g : Graph) : Prop where
  mirrored : g.Mirrored
  size : g.size = k

variable {g g' : Graph} {P : Error → Prop} {k : Nat} {n : NodeId}

theorem size_eq_of_shape (h : ∀ n, (g'.shape? n).isSome = (g.shape? n).isSome) :
    g'.size = g.size := by
  have hlt (g : Graph) (n : NodeId) : (g.shape? n).isSome = decide (n < g.size) := by
    by_cases hn : n < g.nodes.size <;> simp [shape?, size, hn]
  refine Nat.le_antisymm (Nat.le_of_not_lt fun hout => ?_) (Nat.le_of_not_lt fun hout => ?_)
  · have := h g.size
    simp [hlt, hout] at this
  · have := h g'.size
    simp [hlt, hout] at this

theorem Arena.trim (ha : g.Arena k) {cut : NodeId → List NodeId → List NodeId}
    (hc : Rewriting.Trims g g' cut) : g'.Arena k := by
  refine ⟨hc.mirrored, (size_eq_of_shape fun n => ?_).trans ha.size⟩
  rw [hc.shape, Option.isSome_map]

theorem removeOperand_ends (hm : g.Mirrored) {i : Nat} (hi : i < (g.operands n).length) :
    Ends P (fun g' => Rewriting.Trims g g' (Rewriting.cutAt n i)) (g.removeOperand n i) := by
  have hn : n < g.size := by
    by_contra hout
    rw [operands_of_size_le (Nat.le_of_not_lt hout)] at hi
    exact absurd hi (Nat.not_lt_zero i)
  obtain ⟨x, hx⟩ := exists_node_of_lt hn
  rw [operands_eq hx] at hi
  have hok : ∃ g', g.removeOperand n i = .ok g' := by
    unfold removeOperand
    rw [bind_of_ok (node_eq_ok_iff.mpr hx), List.getElem?_eq_getElem hi]
    exact ⟨_, rfl⟩
  obtain ⟨g', hg'⟩ := hok
  exact .of_ok hg' (.of_removeOperand hm hg')

theorem kill_ends (ha : g.Arena k) (hn : n < k) : Ends P (Arena k) (g.kill n) := by
  obtain ⟨x, hx⟩ := exists_node_of_lt (ha.size ▸ hn)
  have hok : g.kill n = .ok (g.detach n x) := bind_of_ok (node_eq_ok_iff.mpr hx)
  exact .of_ok hok ⟨ha.mirrored.kill hok, (kill_eq_ok hok).2.1.trans ha.size⟩

theorem exchange_ends (ha : g.Arena k) {old new : NodeId} (hold : old < k) (hnew : new < k) :
    Ends P (Arena k) (g.exchange old new) := by
  obtain ⟨g', hg'⟩ := exists_exchange (ha.size ▸ hold) (ha.size ▸ hnew)
  exact .of_ok hg' ⟨ha.mirrored.exchange hg', (size_exchange ha.mirrored hg').trans ha.size⟩

theorem addNode_ends (ha : g.Arena k) (op : Op) (mode : Mode) (block : Option NodeId) :
    Ends P (fun r => r.1 = k ∧ r.2.Arena (k + 1)) (g.addNode op mode block []) := by
  have hok : g.addNode op mode block [] = .ok (g.size, _) := rfl
  exact .of_ok hok ⟨ha.size, ha.mirrored.addNode hok, (addNode_eq_ok hok).2.1.trans (by rw [ha.size])⟩

end Graph

theorem Draft.edit_ends {d : Draft} {f : Graph → Except Error Graph} {P : Error → Prop}
    {Q : Graph → Prop} (h : Ends P Q (f d.graph)) : Ends P (fun d' => Q d'.graph) (d.edit f) :=
  h.map fun _ hg => hg

namespace Editing

variable {α β : Type} {P : Error → Prop} {d : Draft}

/-- The computation leaves a result and a draft of which `Q` holds, or fails with an error of which
`P` holds. -/
def Ends (P : Error → Prop) (Q : α → Draft → Prop) (act : Editing α) (d : Draft) : Prop :=
  match act d with
  | .ok a d' => Q a d'
  | .error e _ => P e

theorem Ends.gives {Q : α → Draft → Prop} {act : Editing α} (h : Ends P Q act d) {a : α}
    {d' : Draft} (ha : act d = .ok a d') : Q a d' := by
  unfold Ends at h
  rw [ha] at h
  exact h

theorem Ends.fails {Q : α → Draft → Prop} {act : Editing α} (h : Ends P Q act d) {e : Error}
    {d' : Draft} (he : act d = .error e d') : P e := by
  unfold Ends at h
  rw [he] at h
  exact h

theorem Ends.mono {P' : Error → Prop} {Q Q' : α → Draft → Prop} {act : Editing α}
    (h : Ends P Q act d) (hP : ∀ e, P e → P' e) (hQ : ∀ a d', Q a d' → Q' a d') :
    Ends P' Q' act d := by
  unfold Ends at h ⊢
  split at h
  next => exact hQ _ _ h
  next => exact hP _ h

/-- The result itself may be looked at. -/
theorem Ends.attach {Q : α → Draft → Prop} {act : Editing α} (h : Ends P Q act d) :
    Ends P (fun a d' => act d = .ok a d' ∧ Q a d') act d := by
  unfold Ends at h ⊢
  split at h
  next hact => exact ⟨hact, h⟩
  next => exact h

theorem Ends.bind {Q : α → Draft → Prop} {R : β → Draft → Prop} {act : Editing α}
    {f : α → Editing β} (h : Ends P Q act d) (hf : ∀ a d', Q a d' → Ends P R (f a) d') :
    Ends P R (act >>= f) d := by
  unfold Ends at h
  show match EStateM.bind act f d with | .ok a d' => R a d' | .error e _ => P e
  unfold EStateM.bind
  split at h
  next hact => rw [hact]; exact hf _ _ h
  next hact => rw [hact]; exact h

theorem Ends.change {Q : α → Draft → Prop} {f : Draft → Except Error (α × Draft)}
    (h : SeaOfNodes.Ends P (fun r => Q r.1 r.2) (f d)) : Ends P Q (change f) d := by
  unfold Ends Editing.change
  cases hf : f d with
  | ok r =>
    rw [hf] at h
    exact h
  | error e =>
    rw [hf] at h
    exact h

theorem Ends.silently {Q : α → Draft → Prop} {act : Editing α} (h : Ends P Q act d) :
    Ends P (fun a d' => ∃ d₁, Q a d₁ ∧ d'.graph = d₁.graph ∧ d'.log = d.log) (silently act) d := by
  unfold Ends at h
  unfold Ends Editing.silently
  cases hact : act d with
  | ok a d' =>
    rw [hact] at h
    exact ⟨d', h, rfl, rfl⟩
  | error e d' =>
    rw [hact] at h
    exact h

end Editing

/-! ### Cleaning up -/

namespace Cleanup

open SeaOfNodes.Graph (Arena node_ends select_ends membersByBlock_ends live_ends reachableBlocks_ends
  removeOperand_ends kill_ends exchange_ends)
open Rewriting

variable {P : Error → Prop} {d : Draft} {k : Nat} {h₀ : Graph} {blocks : List NodeId}
  {members : IdMap (List NodeId)}

theorem dropPhiOperand_ends (ha : d.graph.Arena k) {n : NodeId} (hn : n < k) (i : Nat) :
    Ends P (fun d' => d'.graph.Arena k) (dropPhiOperand i d n) := by
  refine (node_ends (ha.size ▸ hn)).bind fun x hx => ?_
  split
  · next hi =>
    exact Draft.edit_ends ((removeOperand_ends ha.mirrored (by rwa [Graph.operands_eq hx])).mono
      (fun _ h => h) fun _ hc => ha.trim hc)
  · exact ha

/-- A block has the predecessors before the position that is looked at. -/
theorem dropDeadEdge_ends (ha : d.graph.Arena k) {b : NodeId} {phis : List NodeId}
    (hnodup : phis.Nodup) (hb : b ∉ phis) (hphis : ∀ n ∈ phis, n < k) {i : Nat}
    (hi : i < (d.graph.operands b).length) (removed : Nat) :
    Ends P (fun t => t.1 = d ∨ Trims d.graph t.1.graph (dropAt b phis i))
      (dropDeadEdge b phis (d, removed) i) := by
  have hok : Ends P (fun _ => True) (dropDeadEdge b phis (d, removed) i) := by
    have hlt : b < d.graph.size := by
      by_contra hout
      rw [Graph.operands_of_size_le (Nat.le_of_not_lt hout)] at hi
      exact absurd hi (Nat.not_lt_zero i)
    refine (node_ends hlt).bind fun x hx => ?_
    have hi' := hi
    rw [Graph.operands_eq hx] at hi'
    rw [List.getElem?_eq_getElem hi']
    dsimp only
    split
    · refine (Draft.edit_ends (removeOperand_ends ha.mirrored hi)).bind fun d₁ hc => ?_
      exact (Ends.foldlM (Q := fun d => d.graph.Arena k) (ha.trim hc) fun n hn d hd =>
        dropPhiOperand_ends hd (hphis n hn) i).bind fun _ _ => trivial
    · exact trivial
  refine hok.attach.mono (fun _ h => h) fun t ht => ?_
  obtain ⟨p, -, ⟨heq, -⟩ | ⟨hc, -⟩⟩ := dropDeadEdge_eq_ok ha.mirrored hnodup hb ht.1
  · exact .inl heq
  · exact .inr hc

theorem dropDeadEdges_ends (hs : Survey h₀ blocks members) {b : NodeId} (hb : b ∈ blocks)
    {s : Draft × Nat} (ha : s.1.graph.Arena k) (hcut : ∃ cut, Trims h₀ s.1.graph cut) :
    Ends P (fun t => t.1.graph.Arena k ∧ ∃ cut, Trims h₀ t.1.graph cut)
      (dropDeadEdges members s b) := by
  obtain ⟨cut, hcut⟩ := hcut
  have hsize {n : NodeId} {y : Shape} (hy : h₀.shape? n = some y) : n < s.1.graph.size :=
    Graph.lt_size_of_shape? (hcut.some hy)
  obtain ⟨-, w, hw, hwop⟩ := (hs.mem_blocks b).mp hb
  have hmembers : ∀ n ∈ members.filed b, n < s.1.graph.size := fun n hn => by
    obtain ⟨-, y, hy, -⟩ := (hs.mem_members n b).mp hn
    exact hsize hy
  refine (select_ends _ hmembers).attach.bind fun phis ⟨hselect, hphis⟩ => ?_
  obtain ⟨hnodup, hmem⟩ := hs.select_phis hcut hselect
  have hout : b ∉ phis := by
    intro hin
    obtain ⟨-, y, hy, hop, -⟩ := (hmem b).mp hin
    rw [hw] at hy
    cases hy
    cases hwop.symm.trans hop
  refine (node_ends (hsize hw)).bind fun x hx => ?_
  refine (Ends.foldlM_reverse_range (I := fun i t => (t.1.graph.Arena k ∧
    ∃ cut, Trims h₀ t.1.graph cut) ∧ i ≤ (t.1.graph.operands b).length)
    ⟨⟨ha, cut, hcut⟩, ?_⟩ fun i t _ ht => ?_).mono (fun _ h => h) fun _ h => h.1
  · rw [Graph.operands_eq hx]
  · obtain ⟨⟨ha, cut, hcut⟩, hi⟩ := ht
    refine (dropDeadEdge_ends ha hnodup hout
      (fun n hn => ha.size ▸ ?_) hi t.2).mono (fun _ h => h) fun t' ht' => ?_
    · obtain ⟨-, y, hy, -⟩ := (hmem n).mp hn
      exact Graph.lt_size_of_shape? (hcut.some hy)
    · rcases ht' with heq | hc
      · rw [heq]
        exact ⟨⟨ha, cut, hcut⟩, Nat.le_of_succ_le hi⟩
      · refine ⟨⟨ha.trim hc, _, hcut.trans hc⟩, ?_⟩
        rw [Graph.operands_eq_of_shape (hc.some (hcut.some hw)), dropAt_self,
          ← Graph.operands_eq_of_shape (hcut.some hw), List.length_eraseIdx_of_lt hi]
        exact Nat.le_sub_one_of_lt hi

theorem mergePhi_ends {s : Draft × Nat} (ha : s.1.graph.Arena k) {n : NodeId} (hn : n < k) :
    Ends P (fun t => t.1.graph.Arena k) (mergePhi s n) := by
  refine (node_ends (ha.size ▸ hn)).bind fun x hx => ?_
  split
  · next value _ hops =>
    split
    · exact ha
    · have hvalue : value < k := ha.size ▸ ha.mirrored.operand_lt hx value (by simp [hops])
      exact (Draft.edit_ends (exchange_ends ha hn hvalue)).bind fun _ h => h
  · exact ha

theorem mergePhis_ends {s : Draft × Nat} (ha : s.1.graph.Arena k) {reachable : BitSet}
    {b : NodeId} (hb : b < k) (hmembers : ∀ n ∈ members.filed b, n < k) :
    Ends P (fun t => t.1.graph.Arena k) (mergePhis members reachable s b) := by
  refine (node_ends (ha.size ▸ hb)).bind fun x _ => ?_
  split
  · exact .foldlM ha fun n hn t ht => mergePhi_ends ht (hmembers n hn)
  · exact ha

/-- Positions to drop come in falling order. -/
theorem staleKeepAlives_falls (g : Graph) (l : List NodeId) (i : Nat) :
    (staleKeepAlives g l i).Pairwise (· > ·) ∧
      ∀ j ∈ staleKeepAlives g l i, i ≤ j ∧ j < i + l.length := by
  induction l generalizing i with
  | nil => exact ⟨.nil, fun j hj => by cases hj⟩
  | cons n later ih =>
    obtain ⟨hfalls, hrange⟩ := ih (i + 1)
    have hlater : ∀ j ∈ staleKeepAlives g later (i + 1), i < j ∧ j < i + (later.length + 1) :=
      fun j hj => ⟨(hrange j hj).1, by have := (hrange j hj).2; omega⟩
    rw [staleKeepAlives]
    split
    · refine ⟨List.pairwise_append.mpr ⟨hfalls, List.pairwise_singleton _ i, ?_⟩, fun j hj => ?_⟩
      · intro j hj j' hj'
        obtain rfl := List.mem_singleton.mp hj'
        exact (hlater j hj).1
      · rcases List.mem_append.mp hj with hj | hj
        · exact ⟨Nat.le_of_lt (hlater j hj).1, (hlater j hj).2⟩
        · obtain rfl := List.mem_singleton.mp hj
          exact ⟨Nat.le_refl j, by simp⟩
    · exact ⟨hfalls, fun j hj => ⟨Nat.le_of_lt (hlater j hj).1, (hlater j hj).2⟩⟩

/-- Operands are removed from the last to the first. -/
theorem removeOperands_ends (ha : d.graph.Arena k) {n : NodeId} {is : List Nat}
    (hfalls : is.Pairwise (· > ·)) (hlt : ∀ i ∈ is, i < (d.graph.operands n).length) :
    Ends P (fun d' => d'.graph.Arena k)
      (is.foldlM (fun d i => d.edit fun g => g.removeOperand n i) d) := by
  induction is generalizing d with
  | nil => exact ha
  | cons i is ih =>
    obtain ⟨hbelow, hfalls⟩ := List.pairwise_cons.mp hfalls
    have hi := hlt i List.mem_cons_self
    rw [List.foldlM_cons]
    refine (Draft.edit_ends (removeOperand_ends ha.mirrored hi)).bind fun d₁ hc =>
      ih (ha.trim hc) hfalls fun j hj => ?_
    have hlen : (d₁.graph.operands n).length = (d.graph.operands n).length - 1 := by
      obtain ⟨y, hy, -⟩ := Graph.mem_operands_of_shape (List.getElem_mem hi)
      rw [Graph.operands_eq_of_shape (hc.some hy), cutAt, if_pos rfl,
        ← Graph.operands_eq_of_shape hy, List.length_eraseIdx_of_lt hi]
    have := hbelow j hj
    omega

theorem dropKeepAlives_ends (ha : d.graph.Arena k) (hk : Anchor.bad < k) :
    Ends P (fun r => r.1.graph.Arena k) (dropKeepAlives d) := by
  have hstop : Anchor.stop < d.graph.size := ha.size ▸ Nat.lt_trans (by decide) hk
  obtain ⟨x, hx⟩ := Graph.exists_node_of_lt hstop
  have hkeep : d.graph.keepAlives = .ok x.operands := bind_of_ok (Graph.node_eq_ok_iff.mpr hx)
  obtain ⟨hfalls, hrange⟩ := staleKeepAlives_falls d.graph x.operands 0
  unfold dropKeepAlives
  rw [bind_of_ok hkeep]
  refine (removeOperands_ends ha hfalls fun i hi => ?_).bind fun _ h => h
  rw [Graph.operands_eq hx]
  simpa using (hrange i hi).2

/-- The first half of a round fails at a knot only. -/
theorem removeDeadEdges_ends (ha : d.graph.Arena k) (hk : Anchor.bad < k) :
    Editing.Ends IsMalformed (fun _ d' => d'.graph.Arena k) removeDeadEdges d := by
  have hsize : Anchor.bad < d.graph.size := ha.size ▸ hk
  refine .change ((live_ends hsize).attach.bind fun live ⟨hlive, hrange⟩ => ?_)
  refine (select_ends _ hrange).attach.bind fun blocks ⟨hblocks, hmem⟩ => ?_
  refine (membersByBlock_ends hrange).attach.bind fun members ⟨hmembers, hfiled⟩ => ?_
  have hs := Survey.of_live hlive hblocks hmembers
  refine Ends.bind (.foldlM (Q := fun s => s.1.graph.Arena k ∧ ∃ cut, Trims d.graph s.1.graph cut)
    ⟨ha, _, .refl ha.mirrored⟩ fun b hb s hs' => dropDeadEdges_ends hs hb hs'.1 hs'.2)
    fun ⟨d₁, edges⟩ ⟨ha₁, _⟩ => ?_
  have hrange₁ : ∀ b ∈ blocks, b < d₁.graph.size := fun b hb => by
    rw [ha₁.size, ← ha.size]
    exact hrange b (hmem b hb)
  refine (reachableBlocks_ends (ha₁.size ▸ hk) hrange₁).bind fun reachable _ => ?_
  refine Ends.bind (.foldlM (Q := fun s => s.1.graph.Arena k) ha₁ fun b hb s hs' =>
    mergePhis_ends hs' (ha₁.size ▸ hrange₁ b hb) fun n hn => ha.size ▸ hrange n (hfiled b n hn))
    fun ⟨d₂, phis⟩ ha₂ => ?_
  exact (dropKeepAlives_ends ha₂ hk).bind fun _ h => h

theorem bury_ends (ha : d.graph.Arena k) (hk : Anchor.bad < k) {n : NodeId} (hn : n < k) :
    Ends P (fun d' => d'.graph.Arena k) (bury d n) := by
  unfold bury
  split
  · exact ha
  · exact Draft.edit_ends (exchange_ends ha hn hk)

theorem removeBlocks_ends (ha : d.graph.Arena k) (hk : Anchor.bad < k) :
    Ends IsMalformed (fun r => r.2.graph.Arena k) (removeBlocks d) := by
  have hsize : Anchor.bad < d.graph.size := ha.size ▸ hk
  refine (live_ends hsize).bind fun live hrange => ?_
  refine (select_ends _ hrange).bind fun blocks hmem => ?_
  refine (reachableBlocks_ends hsize fun b hb => hrange b (hmem b hb)).bind fun reachable _ => ?_
  refine (membersByBlock_ends hrange).bind fun members hfiled => ?_
  refine Ends.bind (.foldlM (Q := fun d => d.graph.Arena k) ha fun b hb s hs => ?_) fun _ h => h
  refine Ends.bind (.foldlM (Q := fun d => d.graph.Arena k) hs fun n hn t ht =>
    bury_ends ht hk (ha.size ▸ hrange n (hfiled b n hn))) fun t ht => ?_
  have hb : b < k := ha.size ▸ hrange b (hmem b (List.mem_of_mem_filter hb))
  exact (Draft.edit_ends (exchange_ends ht hb hk)).bind fun _ h => h

theorem removeGarbage_ends (ha : d.graph.Arena k) (hk : Anchor.bad < k) :
    Ends IsMalformed (fun r => r.2.graph.Arena k) (removeGarbage d) := by
  refine (live_ends (ha.size ▸ hk)).bind fun live _ => ?_
  refine Ends.bind (.foldlM (Q := fun d => d.graph.Arena k) ha fun n hn s hs => ?_) fun d₁ h => ?_
  · have hn : n < d.graph.size :=
      List.mem_range.mp (List.mem_of_mem_filter (List.mem_of_mem_filter hn))
    exact Draft.edit_ends (kill_ends hs (ha.size ▸ hn))
  · split <;> exact h

/-- A round fails at a knot only. -/
theorem round_ends (ha : d.graph.Arena k) (hk : Anchor.bad < k) :
    Editing.Ends IsMalformed (fun _ d' => d'.graph.Arena k) round d := by
  refine (removeDeadEdges_ends ha hk).bind fun first d₁ ha₁ => ?_
  refine Editing.Ends.bind (Q := fun _ d' => d'.graph.Arena k) ?_ fun _ _ h => h
  refine (Editing.Ends.change (Q := fun _ d' => d'.graph.Arena k)
    (removeBlocks_ends ha₁ hk)).bind fun blocks d₂ ha₂ => ?_
  exact (Editing.Ends.change (Q := fun _ d' => d'.graph.Arena k)
    (removeGarbage_ends ha₂ hk)).bind fun _ _ h => h

/-- Cleaning up fails at a knot, or if something is left to clean up. -/
theorem run_ends (ha : d.graph.Arena k) (hk : Anchor.bad < k) (check : Bool) :
    Editing.Ends Reported (fun _ d' => d'.graph.Arena k) (run check) d := by
  have hround {d : Draft} (ha : d.graph.Arena k) :
      Editing.Ends Reported (fun _ d' => d'.graph.Arena k) round d :=
    (round_ends ha hk).mono (fun _ h => h.reported) fun _ _ h => h
  refine (hround ha).bind fun first d₁ ha₁ => (hround ha₁).bind fun second d₂ ha₂ => ?_
  cases check with
  | false => exact ha₂
  | true =>
    refine (hround ha₂).silently.bind fun extra d₃ ⟨d₃', ha₃, hgraph, _⟩ => ?_
    cases extra.changed with
    | true => exact rfl
    | false =>
      show d₃.graph.Arena k
      rw [hgraph]
      exact ha₃

end Cleanup

/-! ### Substituting -/

namespace Substitution

open SeaOfNodes.Graph (Arena node_ends kill_ends exchange_ends addNode_ends)

variable {P : Error → Prop} {s : State} {k : Nat}

/-- Users mirror operands, there are at least `k` slots, and what may be put in the place of another
node has a slot. -/
structure Tame (k : Nat) (s : State) : Prop where
  mirrored : s.draft.graph.Mirrored
  le : k ≤ s.draft.graph.size
  constant : ∀ v n, (v, n) ∈ s.constants → n < s.draft.graph.size
  standIn : ∀ n m, (n, m) ∈ s.standIns → m < s.draft.graph.size

theorem Tame.arena (ht : Tame k s) : s.draft.graph.Arena s.draft.graph.size := ⟨ht.mirrored, rfl⟩

/-- Every slot there is now may be counted on. -/
theorem Tame.now (ht : Tame k s) : Tame s.draft.graph.size s := { ht with le := Nat.le_refl _ }

theorem Tame.weaken (ht : Tame k s) {k' : Nat} (h : k' ≤ k) : Tame k' s :=
  { ht with le := Nat.le_trans h ht.le }

/-- Slots may be added. -/
theorem Tame.grow (ht : Tame k s) {d : Draft} (hm : d.graph.Mirrored)
    (hle : s.draft.graph.size ≤ d.graph.size) : Tame k { s with draft := d } where
  mirrored := hm
  le := Nat.le_trans ht.le hle
  constant v n h := Nat.lt_of_lt_of_le (ht.constant v n h) hle
  standIn n m h := Nat.lt_of_lt_of_le (ht.standIn n m h) hle

theorem Tame.resolve_lt (ht : Tame k s) {n : NodeId} (hn : n < s.draft.graph.size) :
    s.standIns.resolve n < s.draft.graph.size := by
  have hreplay : ∀ r : Renaming, (∀ n m, (n, m) ∈ r → m < s.draft.graph.size) →
      r.resolve n < s.draft.graph.size := by
    intro r hr
    induction r with
    | nil => exact hn
    | cons e r ih =>
      rw [Renaming.resolve]
      split
      · exact hr e.1 e.2 (.head _)
      · exact ih fun n m h => hr n m (.tail _ h)
  exact hreplay _ ht.standIn

theorem replace_ends (ht : Tame k s) {old new : NodeId} (hold : old < k)
    (hnew : new < s.draft.graph.size) : Ends P (Tame k) (replace s old new) := by
  have hnew := ht.resolve_lt hnew
  refine (Draft.edit_ends (exchange_ends ht.arena (Nat.lt_of_lt_of_le hold ht.le) hnew)).bind
    fun d ha => ?_
  refine ⟨ha.mirrored, ha.size ▸ ht.le, fun v n h => ha.size ▸ ht.constant v n h,
    fun n m h => ha.size ▸ ?_⟩
  rcases List.mem_cons.mp h with heq | h
  · cases heq
    exact hnew
  · exact ht.standIn n m h

theorem constantNode_ends (ht : Tame k s) (v : Literal) :
    Ends P (fun r => Tame k r.2 ∧ r.1 < r.2.draft.graph.size) (constantNode s v) := by
  unfold constantNode
  split
  · next n hn =>
    obtain ⟨l₁, l₂, hl, -⟩ := List.lookup_eq_some_iff.mp hn
    exact ⟨ht, ht.constant v n (by simp [hl])⟩
  · refine (addNode_ends ht.arena _ _ _).bind fun ⟨n, graph⟩ ⟨hn, ha⟩ => ?_
    have hgrown := ht.grow (d := { s.draft with graph }) ha.mirrored
      (by rw [ha.size]; exact Nat.le_succ _)
    have hlt : n < graph.size := by
      rw [ha.size]
      exact Nat.lt_succ_of_le (Nat.le_of_eq hn)
    refine ⟨{ hgrown with constant := fun w m h => ?_ }, hlt⟩
    rcases List.mem_cons.mp h with heq | h
    · cases heq
      exact hlt
    · exact hgrown.constant w m h

theorem killUnused_ends (ht : Tame k s) {n : NodeId} (hn : n < k) :
    Ends P (Tame k) (killUnused s n) := by
  have hn := Nat.lt_of_lt_of_le hn ht.le
  refine (node_ends hn).bind fun x _ => ?_
  split
  · exact (Draft.edit_ends (kill_ends ht.arena hn)).bind fun d ha =>
      ht.grow ha.mirrored (Nat.le_of_eq ha.size.symm)
  · exact ht

theorem fold_ends (ht : Tame k s) {n : NodeId} (hn : n < k) (r : Solution) (pass : String)
    (x : Node) : Ends P (Tame k) (fold r pass s n x) := by
  unfold fold
  split
  · split
    · exact ht
    · refine (constantNode_ends ht _).bind fun ⟨c, s₁⟩ ⟨ht₁, hc⟩ => ?_
      exact (replace_ends ht₁ hn hc).bind fun _ ht₂ => { ht₂ with }
  · exact ht

theorem bypass_ends (ht : Tame k s) {n mem : NodeId} (hn : n < k) (hmem : mem < k)
    (v : Literal) : Ends P (Tame k) (bypass v mem s n) := by
  refine (node_ends (Nat.lt_of_lt_of_le hn ht.le)).bind fun x _ => ?_
  split
  · exact replace_ends ht hn (Nat.lt_of_lt_of_le hmem ht.le)
  · exact (constantNode_ends ht _).bind fun _ h => replace_ends h.1 hn h.2
  · exact ht

theorem splice_ends (ht : Tame k s) {n : NodeId} {x : Node} (hn : n < k)
    (hx : s.draft.graph.nodes[n]? = some x) (r : Solution) (pass : String) :
    Ends P (Tame k) (splice r pass s n x) := by
  unfold splice
  split
  · next v mem _ hmem =>
    -- The users and the state may be slots added since the pass began.
    have hmem := ht.mirrored.operand_lt hx mem (List.mem_of_mem_head? hmem)
    refine Ends.bind (.foldlM ht.now fun u hu t ht' =>
      bypass_ends ht' (ht.mirrored.user_lt hx u hu) hmem v) fun s₁ ht₁ => ?_
    exact (killUnused_ends (ht₁.weaken ht.le) hn).bind fun _ ht₂ => { ht₂ with }
  · exact ht

theorem foldArm_ends (ht : Tame k s) {n : NodeId} {x : Node} (hn : n < k)
    (hx : s.draft.graph.nodes[n]? = some x) (hbad : Anchor.bad < k) (r : Solution)
    (pass : String) (side : Bool) : Ends P (Tame k) (foldArm r pass s n x side) := by
  unfold foldArm
  split
  · exact ht
  · next branch hbranch =>
    have hbranch := ht.mirrored.operand_lt hx branch (List.mem_of_mem_head? hbranch)
    have hn := Nat.lt_of_lt_of_le hn ht.le
    split
    · split
      · refine (addNode_ends ht.arena _ _ _).bind fun ⟨jump, graph⟩ ⟨hjump, ha⟩ => ?_
        have hgrown := ht.now.grow (d := { s.draft with graph }) ha.mirrored
          (by rw [ha.size]; exact Nat.le_succ _)
        have hlt : jump < graph.size := by
          rw [ha.size]
          exact Nat.lt_succ_of_le (Nat.le_of_eq hjump)
        refine (replace_ends hgrown hn hlt).bind fun s₁ ht₁ => ?_
        refine (killUnused_ends (k := s.draft.graph.size) ?_ hbranch).mono (fun _ h => h)
          fun _ h => h.weaken ht.le
        exact { ht₁ with }
      · refine (replace_ends ht.now hn (Nat.lt_of_lt_of_le hbad ht.le)).bind fun s₁ ht₁ => ?_
        exact (killUnused_ends ht₁ hbranch).mono (fun _ h => h) fun _ h => h.weaken ht.le
    · exact ht

theorem visit_ends (ht : Tame k s) {n : NodeId} (hn : n < k) (hbad : Anchor.bad < k)
    (r : Solution) (pass : String) : Ends P (Tame k) (visit r pass s n) := by
  refine (node_ends (Nat.lt_of_lt_of_le hn ht.le)).bind fun x hx => ?_
  cases hop : x.op with
  | proj kind =>
    cases kind with
    | arm side => exact foldArm_ends ht hn hx hbad r pass side
    | memory | result | argument => exact ht
  | div | mod => exact splice_ends ht hn hx r pass
  | phi | binary | cmp | minus | not | conv => exact fold_ends ht hn r pass x
  | _ => exact ht

/-- Substituting fails only if the walk does. -/
theorem run_ends_of_walk {d : Draft} (hm : d.graph.Mirrored) (hsize : Anchor.bad < d.graph.size)
    (hwalk : Ends P (Walk.Complete d.graph) (Walk.run d.graph)) (r : Solution) (pass : String) :
    Editing.Ends P
      (fun _ d' => d'.graph.Mirrored ∧ Anchor.bad < d'.graph.size) (run r pass) d := by
  have hstart : Tame d.graph.size (.ofDraft d) := by
    refine ⟨hm, Nat.le_refl _, fun v n h => ?_, fun n m h => by cases h⟩
    obtain ⟨y, hy, -⟩ := mem_knownConstants h
    exact Graph.lt_size_of_shape? hy
  refine .change (hwalk.bind fun walk hw => ?_)
  refine Ends.bind (.foldlM hstart fun n hn s hs =>
    visit_ends hs (((hw.mem_order n).mp hn).lt_size hsize) hsize r pass) fun s hs => ?_
  exact ⟨hs.mirrored, Nat.lt_of_lt_of_le hsize hs.le⟩

/-- Substituting fails at a knot only. -/
theorem run_ends {d : Draft} (hm : d.graph.Mirrored) (hsize : Anchor.bad < d.graph.size)
    (r : Solution) (pass : String) :
    Editing.Ends IsMalformed
      (fun _ d' => d'.graph.Mirrored ∧ Anchor.bad < d'.graph.size) (run r pass) d :=
  run_ends_of_walk hm hsize (Graph.walk_ends hsize) r pass

end Substitution

/-! ### Folding -/

theorem Folding.apply_ends {d : Draft} (hm : d.graph.Mirrored) (hsize : Anchor.bad < d.graph.size)
    (check trace : Bool) :
    Editing.Ends Reported
      (fun _ d' => d'.graph.Mirrored ∧ Anchor.bad < d'.graph.size) (apply check trace) d := by
  have hanalyze : Editing.Ends Reported
      (fun _ d' => d'.graph.Mirrored ∧ Anchor.bad < d'.graph.size) (analyze trace) d := by
    refine .change ((Graph.analyze_ends hm hsize).bind fun r _ => ?_)
    dsimp only [pure, Except.pure, Ends]
    rw [graph_notes]
    exact ⟨hm, hsize⟩
  refine hanalyze.bind fun r d₁ ⟨hm₁, hsize₁⟩ => ?_
  refine ((Substitution.run_ends hm₁ hsize₁ r name).mono (fun _ h => h.reported)
    fun _ _ h => h).bind fun substituted d₂ ⟨hm₂, hsize₂⟩ => ?_
  refine (Cleanup.run_ends ⟨hm₂, rfl⟩ hsize₂ check).bind fun cleaned d₃ ha => ?_
  exact ⟨ha.mirrored, ha.size ▸ hsize₂⟩

/-- On a graph that the primitives made, with whatever was done to its anchors, blocks and phis,
nothing faults: the walk, the check, the analysis, runs, drawings, the list of calls, cleaning up
and folding give a result or report a failure. -/
theorem Graph.Built.never_faults {g : Graph} (hg : g.Built) :
    (∀ e, Walk.run g = .error e → e.isFault = false) ∧
      (∀ e, g.verify = .error e → e.isFault = false) ∧
      (∀ e, g.analyze = .error e → e.isFault = false) ∧
      (∀ args handler fuel e, g.execute args handler fuel = .error e → e.isFault = false) ∧
      (∀ e, g.toDot = .error e → e.isFault = false) ∧
      (∀ e, g.callees = .error e → e.isFault = false) ∧
      (∀ check log e d, Cleanup.run check { graph := g, log } = .error e d →
        e.isFault = false) ∧
      ∀ check trace log e d, Folding.apply check trace { graph := g, log } = .error e d →
        e.isFault = false := by
  have hm := hg.mirrored
  have hsize := hg.bad_lt_size
  refine ⟨fun e h => ((walk_ends hsize).fails h).reported,
    fun e h => ((verify_ends hm hsize).fails h).reported,
    fun e h => (analyze_ends hm hsize).fails h,
    fun args handler fuel e h => (execute_ends hm hsize args handler fuel).fails h,
    fun e h => ((toDot_ends hm hsize).fails h).reported,
    fun e h => ((callees_ends (live_ends hsize)).fails h).reported,
    fun check log e d h => ?_, fun check trace log e d h => ?_⟩
  · exact (Cleanup.run_ends (d := { graph := g, log }) ⟨hm, rfl⟩ hsize check).fails h
  · exact (Folding.apply_ends (d := { graph := g, log }) hm hsize check trace).fails h

/-- Anchors that are retired, a phi in a block that does not exist, a block entered by a phi, a branch
on a phi without operands. -/
def ruinedEdits : List Edit :=
  [.addNode .phi (.int .i32) (some 99) [Anchor.stop],
    .addNode .block .block none [5, Anchor.start],
    .addNode .phi .memory (some 6) [],
    .addNode .cond .tuple (some 7) [7],
    .addOperand 5 8,
    .keepAlive 5,
    .kill Anchor.start,
    .kill Anchor.startBlock]

theorem Graph.Built.never_faults_ruinedEdits :
    ∃ g, ruinedEdits.foldlM Graph.apply (.new "f" 0) = .ok g ∧ g.Built ∧
      (∃ e, g.verify = .error e ∧ e.isFault = false) ∧
      (∃ e, g.analyze = .error e ∧ e.isFault = false) ∧
      ∃ e, g.execute [] = .error e ∧ e.isFault = false := by
  have hok : (ruinedEdits.foldlM Graph.apply (.new "f" 0)).map (fun g =>
      (g.verify.isOk, g.analyze.isOk, (g.execute []).isOk)) = .ok (false, false, false) := by
    decide +kernel
  cases hg : ruinedEdits.foldlM Graph.apply (.new "f" 0) with
  | error e =>
    rw [hg] at hok
    cases hok
  | ok g =>
    rw [hg] at hok
    obtain ⟨hverify, hok⟩ := Prod.mk.inj (Except.ok.inj hok)
    obtain ⟨hanalyze, hexecute⟩ := Prod.mk.inj hok
    obtain ⟨e₁, h₁⟩ := exists_of_not_isOk hverify
    obtain ⟨e₂, h₂⟩ := exists_of_not_isOk hanalyze
    obtain ⟨e₃, h₃⟩ := exists_of_not_isOk hexecute
    have hbuilt : g.Built := (Graph.Built.new "f" 0).foldlM hg
    obtain ⟨-, hv, ha, hx, -⟩ := Graph.Built.never_faults hbuilt
    exact ⟨g, rfl, hbuilt, ⟨e₁, h₁, hv e₁ h₁⟩, ⟨e₂, h₂, ha e₂ h₂⟩, e₃, h₃, hx _ _ _ e₃ h₃⟩

end SeaOfNodes
