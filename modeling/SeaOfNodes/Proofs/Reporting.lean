import SeaOfNodes.Proofs.Altering

/-!
What folding does to a draft, and what it says about it.

Every function of the pass keeps a draft within its permitted edits, and counts what it removed: the
log has a change whenever one of its counters is positive, the one of the keep-alives excepted, which
the operands of the stop node show instead (`Draft.Records`). A pass that fails, which a sweep does at
the walk it begins with, leaves such a draft as well (`Editing.Leaves`). So whatever becomes of it,
the graph was only rewired (`Folding.apply_rewires`), and a pass that succeeds says that it changed
something exactly if its log does or keep-alives are gone (`Folding.apply_changed_iff`).
-/

namespace SeaOfNodes

theorem EventLog.hasChanges_push (log : EventLog) (e : Event) :
    (log.push e).hasChanges = (log.hasChanges || e.kind.isChange) := by
  simp [hasChanges, push]

/-! ### The draft that is left -/

namespace Editing

variable {α β : Type} {Q : α → Draft → Prop} {R : Draft → Prop} {act : Editing α} {d : Draft}

/-- The computation leaves a result and a draft of which `Q` holds, or fails and leaves a draft of
which `R` holds. -/
def Leaves (Q : α → Draft → Prop) (R : Draft → Prop) (act : Editing α) (d : Draft) : Prop :=
  match act d with
  | .ok a d' => Q a d'
  | .error _ d' => R d'

/-- The draft that is left, whether the computation succeeds or not. -/
def left (act : Editing α) (d : Draft) : Draft :=
  match act d with
  | .ok _ d' => d'
  | .error _ d' => d'

theorem Leaves.gives (h : Leaves Q R act d) {a : α} {d' : Draft} (ha : act d = .ok a d') :
    Q a d' := by
  unfold Leaves at h
  rw [ha] at h
  exact h

theorem Leaves.left (h : Leaves Q R act d) (hQ : ∀ a d', Q a d' → R d') : R (left act d) := by
  unfold Leaves at h
  unfold Editing.left
  cases hact : act d with
  | ok a d' =>
    rw [hact] at h
    exact hQ a d' h
  | error e d' =>
    rw [hact] at h
    exact h

theorem Leaves.bind {Q' : β → Draft → Prop} {f : α → Editing β} (h : Leaves Q R act d)
    (hf : ∀ a d', Q a d' → Leaves Q' R (f a) d') : Leaves Q' R (act >>= f) d := by
  unfold Leaves at h
  show match EStateM.bind act f d with | .ok a d' => Q' a d' | .error _ d' => R d'
  unfold EStateM.bind
  cases hact : act d with
  | ok a d' =>
    rw [hact] at h
    exact hf a d' h
  | error e d' =>
    rw [hact] at h
    exact h

theorem Leaves.change {f : Draft → Except Error (α × Draft)} (hd : R d)
    (h : Gives (fun r => Q r.1 r.2) (f d)) : Leaves Q R (change f) d := by
  unfold Leaves Editing.change
  cases hf : f d with
  | ok r =>
    rw [hf] at h
    exact h
  | error e => exact hd

/-- The log is put back, whether the computation succeeds or not. -/
theorem Leaves.silently {Q' : α → Draft → Prop} {R' : Draft → Prop} (h : Leaves Q R act d)
    (hQ : ∀ a d', Q a d' → Q' a { d' with log := d.log })
    (hR : ∀ d', R d' → R' { d' with log := d.log }) : Leaves Q' R' (silently act) d := by
  unfold Leaves at h
  unfold Leaves Editing.silently
  cases hact : act d with
  | ok a d' =>
    rw [hact] at h
    exact hQ a d' h
  | error e d' =>
    rw [hact] at h
    exact hR d' h

end Editing

/-! ### Drafts -/

/-- The draft of `g` after permitted edits that dropped `m` keep-alives; its log has a change if
`changed` says so. -/
structure Draft.Records (g : Graph) (m : Nat) (changed : Bool) (d : Draft) : Prop where
  built : g.Built
  anchors : ∀ a ∈ Anchor.all, g.isRetired a = false
  altered : g.Altered m d.graph
  log : d.log.hasChanges = changed

/-- A draft of `g` after permitted edits. -/
def Draft.Recorded (g : Graph) (d : Draft) : Prop := ∃ m changed, d.Records g m changed

theorem anchor_kinds : ∀ a ∈ Anchor.all, ∀ z ∈ (Graph.new "" 0).shape? a,
    z.op ∈ [Op.block, .start, .stop, .bad] ∧
      (z.op = .block → a = Anchor.startBlock ∨ a = Anchor.endBlock) ∧
      ∀ b ∈ z.block, b = Anchor.startBlock ∨ b = Anchor.endBlock := by
  decide

theorem anchor_roots : ∀ a ∈ Anchor.all, a ∈ [Anchor.stop, Anchor.start, Anchor.bad] ∨
    ∃ root ∈ [Anchor.stop, Anchor.start, Anchor.bad], ∃ z ∈ (Graph.new "" 0).shape? root,
      z.block = some a := by
  decide

namespace Draft.Records

variable {g : Graph} {m : Nat} {c c' : Bool} {d : Draft} {n a b : NodeId} {x : Node}

theorem cast (hd : d.Records g m c) (h : c = c') : d.Records g m c' := h ▸ hd

theorem edit (hd : d.Records g m c) {e : Edit} (he : e.Permitted) :
    Gives (Records g (m + e.dropped) c) (d.edit fun k => k.apply e) := by
  have hedit : Gives (fun k => d.graph.apply e = .ok k) (d.graph.apply e) :=
    gives_of_ok fun _ h => h
  exact hedit.map fun k h => ⟨hd.built, hd.anchors, hd.altered.step he h, hd.log⟩

theorem exchange (hd : d.Records g m c) (hn : n ∉ Anchor.all) (new : NodeId) :
    Gives (Records g m c) (d.edit fun k => k.exchange n new) :=
  hd.edit (e := .exchange n new) hn

theorem kill (hd : d.Records g m c) (hn : n ∉ Anchor.all) :
    Gives (Records g m c) (d.edit fun k => k.kill n) :=
  hd.edit (e := .kill n) hn

theorem removeOperand (hd : d.Records g m c) (hn : n ≠ Anchor.stop) (i : Nat) :
    Gives (Records g m c) (d.edit fun k => k.removeOperand n i) := by
  have := hd.edit (e := .removeOperand n i) trivial
  rwa [Edit.dropped, if_neg hn] at this

theorem addNode (hd : d.Records g m c) {op : Op} {block : Option NodeId} (mode : Mode)
    (hop : (∃ v, op = .const v) ∧ block = some Anchor.startBlock ∨ op = .jump) :
    Gives (fun r => Records g m c { d with graph := r.2 }) (d.graph.addNode op mode block []) := by
  refine gives_of_ok fun ⟨n, k⟩ h => ?_
  have hedit : d.graph.apply (.addNode op mode block []) = .ok k := by rw [Graph.apply, h]; rfl
  exact ⟨hd.built, hd.anchors, hd.altered.step (e := .addNode op mode block []) ⟨rfl, hop⟩ hedit,
    hd.log⟩

theorem note (hd : d.Records g m c) (kind : EventKind) (node : Option NodeId)
    (pass : Option String) (message : String) :
    (d.note kind node pass message).Records g m (c || kind.isChange) :=
  ⟨hd.built, hd.anchors, hd.altered,
    (EventLog.hasChanges_push _ _).trans (congrArg (· || kind.isChange) hd.log)⟩

/-- An event that says that something changed. -/
theorem noteChange (hd : d.Records g m c) {kind : EventKind} (hkind : kind.isChange = true)
    (node : Option NodeId) (pass : Option String) (message : String) :
    (d.note kind node pass message).Records g m true :=
  (hd.note kind node pass message).cast (by rw [hkind, Bool.or_true])

/-! Anchors stay what they were. -/

theorem anchor (hd : d.Records g m c) (ha : a ∈ Anchor.all) :
    ∃ x z, d.graph.nodes[a]? = some x ∧ (Graph.new "" 0).shape? a = some z ∧ x.op = z.op ∧
      x.block = z.block ∧ x.op ≠ .retired := by
  obtain ⟨x, hx, hused⟩ := Graph.isRetired_eq_false.mp (hd.altered.anchors hd.built hd.anchors a ha)
  have hlt : ∀ a ∈ Anchor.all, a < (Graph.new "" 0).size := by decide
  obtain ⟨z, hz⟩ := Graph.exists_node_of_lt (hlt a ha)
  obtain ⟨y, hy, hkeeps⟩ := (hd.altered.built hd.built).keeps_anchor (Graph.shape?_eq hz)
  rw [Graph.shape?_eq hx] at hy
  cases hy
  exact ⟨x, z.shape, hx, Graph.shape?_eq hz, hkeeps.op.resolve_right hused, hkeeps.block, hused⟩

theorem not_anchor (hd : d.Records g m c) (hx : d.graph.nodes[n]? = some x)
    (hop : x.op ∉ [Op.block, .start, .stop, .bad]) : n ∉ Anchor.all := by
  intro hn
  obtain ⟨y, z, hy, hz, heq, -⟩ := hd.anchor hn
  rw [hx] at hy
  cases hy
  exact hop (heq ▸ (anchor_kinds n hn z hz).1)

theorem ne_stop_of_block (hd : d.Records g m c) (hx : d.graph.nodes[n]? = some x)
    (hop : x.op = .block) : n ≠ Anchor.stop := by
  intro hn
  have hmem : n ∈ Anchor.all := by
    rw [hn]
    decide
  obtain ⟨y, z, hy, hz, heq, -⟩ := hd.anchor hmem
  rw [hx] at hy
  cases hy
  have := (anchor_kinds n hmem z hz).2.1 (heq.symm.trans hop)
  rw [hn] at this
  revert this
  decide

/-- Of the blocks only the two of the function are anchors. -/
theorem not_anchor_of_block (hd : d.Records g m c) (hx : d.graph.nodes[n]? = some x)
    (hop : x.op = .block) (hstart : n ≠ Anchor.startBlock) (hend : n ≠ Anchor.endBlock) :
    n ∉ Anchor.all := by
  intro hn
  obtain ⟨y, z, hy, hz, heq, -⟩ := hd.anchor hn
  rw [hx] at hy
  cases hy
  exact ((anchor_kinds n hn z hz).2.1 (heq.symm.trans hop)).elim hstart hend

/-- Anchors stand in no other blocks. -/
theorem not_anchor_of_member (hd : d.Records g m c) (hb : d.graph.blockOf n = some b)
    (hstart : b ≠ Anchor.startBlock) (hend : b ≠ Anchor.endBlock) : n ∉ Anchor.all := by
  intro hn
  obtain ⟨y, z, hy, hz, -, heq, -⟩ := hd.anchor hn
  rw [Graph.blockOf_eq hy, heq] at hb
  exact ((anchor_kinds n hn z hz).2.2 b hb).elim hstart hend

theorem anchor_live (hd : d.Records g m c) (ha : a ∈ Anchor.all) : d.graph.Live a := by
  rcases anchor_roots a ha with hroot | ⟨root, hroot, z, hz, hblock⟩
  · exact ⟨a, hroot, .refl⟩
  · have hall : ∀ r ∈ [Anchor.stop, Anchor.start, Anchor.bad], r ∈ Anchor.all := by decide
    obtain ⟨x, z', hx, hz', -, heq, -⟩ := hd.anchor (hall root hroot)
    rw [hz] at hz'
    cases hz'
    have hlive : d.graph.Live root := ⟨root, hroot, .refl⟩
    refine hlive.needs ⟨?_, hd.altered.anchors hd.built hd.anchors a ha⟩
    rw [Graph.inputs_eq hx, Node.inputs, heq, hblock]
    exact List.mem_append_left _ (List.mem_singleton_self a)

end Draft.Records

/-! ### Cleaning up -/

namespace Cleanup

variable {g : Graph} {m : Nat} {c : Bool} {d : Draft} {members : IdMap (List NodeId)}

/-- A draft with a count of the changes recorded since its log said `c`. -/
def Counted (g : Graph) (m : Nat) (c : Bool) (s : Draft × Nat) : Prop :=
  s.1.Records g m (c || decide (0 < s.2))

theorem Counted.start (hd : d.Records g m c) : Counted g m c (d, 0) :=
  hd.cast (Bool.or_false c).symm

/-- One more change that was recorded. -/
theorem Counted.succ {changed : Bool} (hd : d.Records g m changed) {kind : EventKind}
    (hkind : kind.isChange = true) (node : Option NodeId) (message : String) (count : Nat) :
    Counted g m c (d.note kind node none message, count + 1) :=
  (hd.noteChange hkind node none message).cast (by simp)

theorem dropPhiOperand_records (hd : d.Records g m c) (i : Nat) {phi : NodeId}
    (hphi : phi ≠ Anchor.stop) : Gives (Draft.Records g m c) (dropPhiOperand i d phi) := by
  refine (gives_any (d.graph.node phi)).bind fun x _ => ?_
  split
  · exact hd.removeOperand hphi i
  · exact hd

theorem dropDeadEdge_records {s : Draft × Nat} (hs : Counted g m c s) {block : NodeId}
    (hblock : block ≠ Anchor.stop) {phis : List NodeId} (hphis : ∀ n ∈ phis, n ≠ Anchor.stop)
    (i : Nat) : Gives (Counted g m c) (dropDeadEdge block phis s i) := by
  refine (gives_any (s.1.graph.node block)).bind fun x _ => ?_
  split
  · exact trivial
  · split
    · refine (hs.removeOperand hblock i).bind fun d₁ hd₁ => ?_
      exact Ends.bind (.foldlM hd₁ fun n hn d hd => dropPhiOperand_records hd i (hphis n hn))
        fun d₂ hd₂ => .succ hd₂ rfl block _ _
    · exact hs

theorem dropDeadEdges_records {s : Draft × Nat} (hs : Counted g m c s) {block : NodeId}
    (hblock : block ≠ Anchor.stop) : Gives (Counted g m c) (dropDeadEdges members s block) := by
  refine (gives_any (s.1.graph.select _ _)).attach.bind fun phis ⟨hphis, _⟩ => ?_
  have hne : ∀ n ∈ phis, n ≠ Anchor.stop := by
    intro n hn hstop
    obtain ⟨-, x, hx, hop⟩ := (Graph.mem_select hphis).mp hn
    have hop : x.op = .phi := by simpa using hop
    refine hs.not_anchor hx (by simp [hop]) ?_
    rw [hstop]
    decide
  refine (gives_any (s.1.graph.node block)).bind fun x _ => ?_
  exact .foldlM hs fun i _ t ht => dropDeadEdge_records ht hblock hne i

theorem mergePhi_records {s : Draft × Nat} (hs : Counted g m c s) (n : NodeId) :
    Gives (Counted g m c) (mergePhi s n) := by
  refine (gives_any (s.1.graph.node n)).attach.bind fun x ⟨hx, _⟩ => ?_
  split
  next hop _ =>
    split
    · exact hs
    · have hn := hs.not_anchor (Graph.node_eq_ok hx) (by simp [hop])
      exact (hs.exchange hn _).bind fun d₁ hd₁ => .succ hd₁ rfl n _ _
  next => exact hs

/-- Keep-alives are dropped without a word. -/
theorem dropKeepAlives_records (hd : d.Records g m c) :
    Gives (fun r => r.1.Records g (m + r.2) c) (dropKeepAlives d) := by
  refine (gives_any d.graph.keepAlives).bind fun kept _ => ?_
  refine (gives_of_ok fun d' hloop => ?_ : Gives (fun d' => Draft.Records g
    (m + (staleKeepAlives d.graph kept 0).length) c d') _).bind fun _ h => h
  refine foldlM_eq_ok (I := fun done d => d.Records g (m + done.length) c) hloop hd ?_
  intro done i rest s t _ hs hturn
  have := (hs.edit (e := .removeOperand Anchor.stop i) trivial).gives hturn
  rw [List.length_append, ← Nat.add_assoc]
  exact this

/-- What the counters say, keep-alives apart. -/
def Counts.reported (n : Counts) : Bool := n.edges + n.phis + n.blocks + n.nodes > 0

theorem Counts.changed_eq (n : Counts) : n.changed = (n.reported || decide (0 < n.keepAlives)) := by
  rw [changed, reported, ← Bool.decide_or]
  exact decide_eq_decide.mpr (by omega)

theorem Counts.reported_add (n k : Counts) : (n.add k).reported = (n.reported || k.reported) := by
  rw [reported, reported, reported, ← Bool.decide_or]
  exact decide_eq_decide.mpr (by simp only [add]; omega)

theorem Counts.reported_eq {n : Counts} {a b : Nat}
    (h : n.edges + n.phis + n.blocks + n.nodes = a + b) (c : Bool) :
    (c || decide (0 < a) || decide (0 < b)) = (c || n.reported) := by
  rw [reported, Bool.or_assoc, ← Bool.decide_or, h]
  exact congrArg _ (decide_eq_decide.mpr (by omega))

/-- What a part of a round, which counts `n`, makes of a draft. -/
def Cleans (g : Graph) (m : Nat) (c : Bool) (n : Counts) (d : Draft) : Prop :=
  d.Records g (m + n.keepAlives) (c || n.reported)

theorem removeDeadEdges_records (hd : d.Records g m c) :
    Editing.Leaves (Cleans g m c) (Draft.Recorded g) removeDeadEdges d := by
  refine .change ⟨m, c, hd⟩ ((gives_any d.graph.live).bind fun live _ => ?_)
  refine (gives_any (d.graph.select _ _)).attach.bind fun blocks ⟨hblocks, _⟩ => ?_
  have hne : ∀ b ∈ blocks, b ≠ Anchor.stop := by
    intro b hb
    obtain ⟨-, x, hx, hop⟩ := (Graph.mem_select hblocks).mp hb
    exact hd.ne_stop_of_block hx (by simpa using hop)
  refine (gives_any (d.graph.membersByBlock _)).bind fun members _ => ?_
  refine Ends.bind (.foldlM (Counted.start hd) fun b hb s hs => dropDeadEdges_records hs (hne b hb))
    fun ⟨d₁, edges⟩ hd₁ => ?_
  refine (gives_any (d₁.graph.reachableBlocks blocks)).bind fun reachable _ => ?_
  refine Ends.bind (.foldlM (Counted.start hd₁) fun b _ s hs => ?_) fun ⟨d₂, phis⟩ hd₂ => ?_
  · refine (gives_any (s.1.graph.node b)).bind fun x _ => ?_
    split
    · exact .foldlM hs fun n _ t ht => mergePhi_records ht n
    · exact hs
  refine (dropKeepAlives_records hd₂).bind fun ⟨d₃, dropped⟩ hd₃ => ?_
  exact hd₃.cast (Counts.reported_eq (by simp) c)

theorem removeBlock_records {changed : Bool} (hd : d.Records g m changed) {block : NodeId}
    (hblock : block ∉ Anchor.all) (hmembers : ∀ n ∈ members.filed block, n ∉ Anchor.all) :
    Gives (Draft.Records g m true) (removeBlock members d block) := by
  refine Ends.bind (.foldlM hd fun n hn d hd => ?_) fun d₁ hd₁ => ?_
  · unfold bury
    split
    · exact hd
    · exact hd.exchange (hmembers n hn) _
  · exact (hd₁.exchange hblock _).bind fun d₂ hd₂ => hd₂.noteChange rfl ..

theorem removeBlocks_records (hd : d.Records g m c) :
    Gives (fun r => r.2.Records g m (c || decide (0 < r.1))) (removeBlocks d) := by
  refine (gives_any d.graph.live).bind fun live _ => ?_
  refine (gives_any (d.graph.select _ _)).attach.bind fun blocks ⟨hblocks, _⟩ => ?_
  refine (gives_any (d.graph.reachableBlocks _)).bind fun reachable _ => ?_
  refine (gives_any (d.graph.membersByBlock _)).attach.bind fun members ⟨hmembers, _⟩ => ?_
  dsimp only
  generalize hdead : (blocks.filter fun b =>
    !reachable.contains b && b != Anchor.startBlock && b != Anchor.endBlock) = dead
  have houter : ∀ b ∈ dead, b ∈ blocks ∧ b ≠ Anchor.startBlock ∧ b ≠ Anchor.endBlock := by
    intro b hb
    rw [← hdead, List.mem_filter] at hb
    simp only [Bool.and_eq_true, bne_iff_ne] at hb
    exact ⟨hb.1, hb.2.1.2, hb.2.2⟩
  refine (gives_of_ok fun d' hloop => ?_ : Gives (fun d' => Draft.Records g m
    (c || decide (0 < dead.length)) d') _).bind fun _ h => h
  refine foldlM_eq_ok (I := fun done d => d.Records g m (c || decide (0 < done.length))) hloop
    (hd.cast (Bool.or_false c).symm) ?_
  intro done b rest s t hsplit hs hturn
  -- what is removed was no anchor when the sweep began, and anchors are fixed
  obtain ⟨hb, hstart, hend⟩ := houter b (by simp [hsplit])
  obtain ⟨-, x, hx, hop⟩ := (Graph.mem_select hblocks).mp hb
  have hblock := hd.not_anchor_of_block hx (by simpa using hop) hstart hend
  have hfiled : ∀ n ∈ members.filed b, n ∉ Anchor.all := fun n hn =>
    hd.not_anchor_of_member ((Graph.mem_membersByBlock hmembers).mp hn).2 hstart hend
  exact ((removeBlock_records hs hblock hfiled).gives hturn).cast (by simp)

theorem removeGarbage_records (hd : d.Records g m c) :
    Gives (fun r => r.2.Records g m (c || decide (0 < r.1))) (removeGarbage d) := by
  refine (gives_any d.graph.live).attach.bind fun live ⟨hlive, _⟩ => ?_
  refine Ends.bind (.foldlM hd fun n hn d' hd' => ?_) fun d₁ hd₁ => ?_
  · refine hd'.kill fun hanchor => ?_
    have hcontains := (Graph.contains_live hlive).mpr (hd.anchor_live hanchor)
    simp [hcontains] at hn
  · split
    next => exact hd₁.cast (Bool.or_false c).symm
    next hsome =>
      have hpos : 0 < (d.graph.ids.filter fun n => !live.contains n).length :=
        List.length_pos_iff_ne_nil.mpr fun hnil => hsome (by rw [hnil]; rfl)
      exact (hd₁.noteChange rfl ..).cast (by rw [decide_eq_true hpos, Bool.or_true])

theorem removeUnreachable_records (hd : d.Records g m c) :
    Editing.Leaves (Cleans g m c) (Draft.Recorded g) removeUnreachable d := by
  refine (Editing.Leaves.change (Q := fun blocks d' => d'.Records g m (c || decide (0 < blocks)))
    ⟨m, c, hd⟩ (removeBlocks_records hd)).bind fun blocks d₁ hd₁ => ?_
  refine (Editing.Leaves.change (Q := fun nodes d' =>
    d'.Records g m (c || decide (0 < blocks) || decide (0 < nodes)))
    ⟨m, _, hd₁⟩ (removeGarbage_records hd₁)).bind fun nodes d₂ hd₂ => ?_
  exact hd₂.cast (Counts.reported_eq (by simp) c)

theorem Cleans.add {n k : Counts} (h : Cleans g (m + n.keepAlives) (c || n.reported) k d) :
    Cleans g m c (n.add k) d := by
  have hd : d.Records g (m + n.keepAlives + k.keepAlives) (c || n.reported || k.reported) := h
  rw [Nat.add_assoc] at hd
  exact hd.cast (by rw [Counts.reported_add, Bool.or_assoc])

theorem round_records (hd : d.Records g m c) :
    Editing.Leaves (Cleans g m c) (Draft.Recorded g) round d := by
  refine (removeDeadEdges_records hd).bind fun first d₁ hd₁ => ?_
  exact (removeUnreachable_records hd₁).bind fun second d₂ hd₂ => hd₂.add

/-- A third round that finds something is an error, so what it finds is counted nowhere. -/
theorem run_records (hd : d.Records g m c) (check : Bool) :
    Editing.Leaves (Cleans g m c) (Draft.Recorded g) (run check) d := by
  refine (round_records hd).bind fun first d₁ hd₁ => ?_
  refine (round_records hd₁).bind fun second d₂ hd₂ => ?_
  cases check with
  | false => exact hd₂.add
  | true =>
    have hthird : Editing.Leaves (fun extra d' => d'.Records g
        (m + (first.add second).keepAlives + extra.keepAlives) (c || (first.add second).reported))
        (Draft.Recorded g) (Editing.silently round) d₂ := by
      have hboth : d₂.Records g _ _ := hd₂.add
      refine (round_records hboth).silently (fun extra d₃ hd₃ => ?_) fun d₃ ⟨k, c₃, hd₃⟩ => ?_
      · exact ⟨hd₃.built, hd₃.anchors, hd₃.altered, hboth.log⟩
      · exact ⟨k, _, hd₃.built, hd₃.anchors, hd₃.altered, hboth.log⟩
    refine hthird.bind fun extra d₃ hd₃ => ?_
    cases hextra : extra.changed with
    | true => exact ⟨_, _, hd₃⟩
    | false =>
      -- nothing was found, so no keep-alive was dropped either
      rw [Counts.changed_eq, Bool.or_eq_false_iff, decide_eq_false_iff_not, Nat.not_lt,
        Nat.le_zero] at hextra
      rw [hextra.2] at hd₃
      exact hd₃

end Cleanup

/-! ### Substituting -/

namespace Substitution

variable {g : Graph} {m : Nat} {c : Bool} {s : State} {r : Solution} {pass : String} {n : NodeId}
  {x : Node}

/-- The counters say what was recorded since the log said `c`. -/
def State.Records (g : Graph) (m : Nat) (c : Bool) (s : State) : Prop :=
  s.draft.Records g m (c || s.counts.changed)

/-- A change is counted and recorded. -/
theorem State.Records.count (hs : s.Records g m c) {k : Counts}
    (hk : 0 < k.folded + k.spliced + k.branches) {kind : EventKind} (hkind : kind.isChange = true)
    (node : Option NodeId) (pass : Option String) (message : String) :
    State.Records g m c { s with counts := k, draft := s.draft.note kind node pass message } := by
  have hchanged : k.changed = true := decide_eq_true hk
  exact (Draft.Records.noteChange hs hkind ..).cast (by rw [hchanged, Bool.or_true])

theorem replace_records (hs : s.Records g m c) (hn : n ∉ Anchor.all) (new : NodeId) :
    Gives (State.Records g m c) (replace s n new) :=
  (Draft.Records.exchange hs hn _).bind fun _ h => h

theorem constantNode_records (hs : s.Records g m c) (v : Literal) :
    Gives (fun r => r.2.Records g m c) (constantNode s v) := by
  unfold constantNode
  split
  · exact hs
  · exact (Draft.Records.addNode hs v.mode (.inl ⟨⟨v, rfl⟩, rfl⟩)).bind fun _ h => h

theorem killUnused_records (hs : s.Records g m c) (hn : n ∉ Anchor.all) :
    Gives (State.Records g m c) (killUnused s n) := by
  refine (gives_any (s.draft.graph.node n)).bind fun x _ => ?_
  split
  · exact (Draft.Records.kill hs hn).bind fun _ h => h
  · exact hs

theorem fold_records (hs : s.Records g m c) (hn : n ∉ Anchor.all) :
    Gives (State.Records g m c) (fold r pass s n x) := by
  unfold fold
  split
  · split
    · exact hs
    · refine (constantNode_records hs _).bind fun ⟨k, s₁⟩ hs₁ => ?_
      exact (replace_records hs₁ hn k).bind fun s₂ hs₂ => hs₂.count (by dsimp only; omega) rfl ..
  · exact hs

theorem bypass_records (hs : s.Records g m c) (v : Literal) (mem : NodeId) :
    Gives (State.Records g m c) (bypass v mem s n) := by
  refine (gives_any (s.draft.graph.node n)).attach.bind fun x ⟨hx, _⟩ => ?_
  have hx := Graph.node_eq_ok hx
  split
  next hop => exact replace_records hs (Draft.Records.not_anchor hs hx (by simp [hop])) mem
  next hop =>
    have hn := Draft.Records.not_anchor hs hx (by simp [hop])
    exact (constantNode_records hs _).bind fun ⟨k, s₁⟩ hs₁ => replace_records hs₁ hn k
  next => exact hs

theorem splice_records (hs : s.Records g m c) (hn : n ∉ Anchor.all) :
    Gives (State.Records g m c) (splice r pass s n x) := by
  unfold splice
  split
  · refine Ends.bind (.foldlM hs fun u _ t ht => bypass_records ht _ _) fun s₁ hs₁ => ?_
    exact (killUnused_records hs₁ hn).bind fun s₂ hs₂ => hs₂.count (by dsimp only; omega) rfl ..
  · exact hs

/-- The branch that may be retired is known to be constant, which no anchor is. -/
theorem foldArm_records (hr : ∀ a ∈ Anchor.all, r.constant? a = none) (hs : s.Records g m c)
    (hn : n ∉ Anchor.all) (side : Bool) :
    Gives (State.Records g m c) (foldArm r pass s n x side) := by
  unfold foldArm
  split
  · exact hs
  · next branch _ =>
    split
    next selected block hselected hblock =>
      have hbranch : branch ∉ Anchor.all := by
        intro hmem
        rw [hr branch hmem] at hselected
        cases hselected
      split
      · refine (Draft.Records.addNode hs .control (.inr rfl)).bind fun ⟨jump, graph⟩ hgrown => ?_
        refine (replace_records (s := { s with draft := { s.draft with graph } }) hgrown hn
          jump).bind fun s₁ hs₁ => ?_
        exact killUnused_records (hs₁.count (by dsimp only; omega) rfl ..) hbranch
      · exact (replace_records hs hn _).bind fun s₁ hs₁ => killUnused_records hs₁ hbranch
    next => exact hs

theorem visit_records (hr : ∀ a ∈ Anchor.all, r.constant? a = none) (hs : s.Records g m c) :
    Gives (State.Records g m c) (visit r pass s n) := by
  refine (gives_any (s.draft.graph.node n)).attach.bind fun x ⟨hx, _⟩ => ?_
  have hn (hop : x.op ∉ [Op.block, .start, .stop, .bad]) : n ∉ Anchor.all :=
    Draft.Records.not_anchor hs (Graph.node_eq_ok hx) hop
  cases hop : x.op with
  | proj kind =>
    cases kind with
    | arm side => exact foldArm_records hr hs (hn (by simp [hop])) side
    | memory | result | argument => exact hs
  | div | mod => exact splice_records hs (hn (by simp [hop]))
  | phi | binary | cmp | minus | not | conv => exact fold_records hs (hn (by simp [hop]))
  | _ => exact hs

theorem run_records {d : Draft} (hr : ∀ a ∈ Anchor.all, r.constant? a = none)
    (hd : d.Records g m c) (pass : String) :
    Editing.Leaves (fun n d' => d'.Records g m (c || n.changed)) (Draft.Recorded g) (run r pass)
      d := by
  refine .change ⟨m, c, hd⟩ ((gives_any (Walk.run d.graph)).bind fun walk _ => ?_)
  have hstart : (State.ofDraft d).Records g m c := hd.cast (Bool.or_false c).symm
  exact Ends.bind (.foldlM hstart fun n _ s hs => visit_records hr hs) fun _ h => h

end Substitution

/-! ### Folding -/

/-- The anchors carry no constants. -/
theorem Solution.Describes.constant?_anchor {g : Graph} {r : Solution} (hr : r.Describes g)
    {m : Nat} {c : Bool} {d : Draft} (hd : d.Records g m c) (heq : d.graph = g) :
    ∀ a ∈ Anchor.all, r.constant? a = none := by
  intro a ha
  obtain ⟨x, z, hx, hz, hop, -⟩ := hd.anchor ha
  have hlive := hd.anchor_live ha
  rw [heq] at hx hlive
  have hkind := (anchor_kinds a ha z hz).1
  rw [← hop] at hkind
  have hvaries : g.computes x = false ∧ x.seed = .varying := by
    simp only [List.mem_cons, List.not_mem_nil, or_false] at hkind
    rcases hkind with hop | hop | hop | hop <;> simp [Graph.computes, Node.seed, hop]
  rw [constant?, hr.value a hlive, hr.solves.seed a x hlive hx hvaries.1, hvaries.2]
  rfl

namespace Folding

variable {g : Graph} {m : Nat} {c : Bool} {d : Draft}

theorem analyze_records (hd : d.Records g m c) (trace : Bool) :
    Editing.Leaves (fun r d' => d'.Records g m c ∧ d'.graph = d.graph ∧ d.graph.analyze = .ok r)
      (Draft.Recorded g) (analyze trace) d := by
  refine .change ⟨m, c, hd⟩ ((gives_any d.graph.analyze).attach.bind fun r hr => ?_)
  refine ⟨notes_preserve (P := fun d' => d'.Records g m c) (fun d₁ n text hd₁ => ?_) _ hd,
    graph_notes _ d, hr.1⟩
  exact (hd₁.note ..).cast (Bool.or_false c)

/-- Folding keeps to its permitted edits, records what it counts, and drops keep-alives. -/
theorem apply_records (hg : g.Built) (ha : ∀ a ∈ Anchor.all, g.isRetired a = false)
    (check trace : Bool) (log : EventLog) :
    Editing.Leaves (fun changed d' => ∃ m reported,
        d'.Records g m (log.hasChanges || reported) ∧ changed = (reported || decide (0 < m)))
      (Draft.Recorded g) (apply check trace) { graph := g, log } := by
  have hd : Draft.Records g 0 log.hasChanges { graph := g, log } := ⟨hg, ha, .refl, rfl⟩
  refine (analyze_records hd trace).bind fun r d₁ ⟨hd₁, heq, hr⟩ => ?_
  have hconst := (hg.describes hr).constant?_anchor hd rfl
  refine (Substitution.run_records hconst hd₁ name).bind fun substituted d₂ hd₂ => ?_
  refine (Cleanup.run_records hd₂ check).bind fun cleaned d₃ hd₃ => ?_
  -- the closing line is no change
  refine ⟨0 + cleaned.keepAlives, substituted.changed || cleaned.reported, ?_, ?_⟩
  · exact (Draft.Records.note hd₃ ..).cast ((Bool.or_false _).trans (Bool.or_assoc ..))
  · rw [Cleanup.Counts.changed_eq, Nat.zero_add, Bool.or_assoc]

/-- The pass only retires and rewires, whether it succeeds or not: name, parameters and anchors
stay, slots keep their mode and block, what is appended is constants and jumps, and nothing comes to
act on memory that did not. -/
theorem apply_rewires (hg : g.Built) (ha : ∀ a ∈ Anchor.all, g.isRetired a = false)
    (check trace : Bool) (log : EventLog) :
    let h := (Editing.left (apply check trace) { graph := g, log }).graph
    g.Rewires h ∧ ∀ (n : NodeId) (x : Node), h.nodes[n]? = some x → x.op.usesMemory = true →
      ∃ y, g.nodes[n]? = some y ∧ y.op = x.op := by
  intro h
  obtain ⟨m, c, hd⟩ := (apply_records hg ha check trace log).left
    fun _ d' ⟨m, reported, hd, _⟩ => ⟨m, _, hd⟩
  have hrewires : g.Rewires h := hd.altered.rewires hg ha
  exact ⟨hrewires, fun n x hx hop => hrewires.usesMemory hx hop⟩

/-- A phi that combines nothing but a sum it is part of: merging it ties a knot. -/
def knottedPhi : List Edit :=
  [.addNode (.proj .memory) .memory (some Anchor.startBlock) [Anchor.start],
    .addNode .jump .control (some Anchor.startBlock) [],
    .addNode .block .block none [6],
    .addNode (.const (.int .i32 1)) (.int .i32) (some Anchor.startBlock) [],
    .addNode .phi (.int .i32) (some 7) [8],
    .addNode (.binary .add) (.int .i32) (some 7) [9, 8],
    .setOperand 9 0 10,
    .addNode .ret .control (some 7) [5, 10],
    .addOperand Anchor.endBlock 11]

/-- Whether the pass fails on the graph the edits make, having retired a live node of it. -/
def checkHalted (edits : List Edit) (n : NodeId) : Except Error Unit := do
  let g ← edits.foldlM Graph.apply (.new "f" 0)
  match apply true false { graph := g } with
  | .ok _ _ => .error .outOfRange
  | .error _ d =>
    if (∀ a ∈ Anchor.all, g.isRetired a = false) ∧ g.isRetired n = false ∧
        d.graph.isRetired n = true then .ok ()
    else .error .outOfRange

/-- The pass retires the phi and then fails on the knot, and what it leaves was only rewired. -/
theorem apply_rewires_knottedPhi :
    ∃ g e d, knottedPhi.foldlM Graph.apply (.new "f" 0) = .ok g ∧
      (∀ a ∈ Anchor.all, g.isRetired a = false) ∧
      apply true false { graph := g } = .error e d ∧
      g.isRetired 9 = false ∧ d.graph.isRetired 9 = true ∧ g.Rewires d.graph ∧
      ∀ (n : NodeId) (x : Node), d.graph.nodes[n]? = some x → x.op.usesMemory = true →
        ∃ y, g.nodes[n]? = some y ∧ y.op = x.op := by
  have hok : (checkHalted knottedPhi 9).isOk = true := by decide +kernel
  obtain ⟨_, hok⟩ := exists_of_isOk hok
  obtain ⟨g, hg, hok⟩ := bind_eq_ok.mp hok
  split at hok
  next => cases hok
  next e d happly =>
    split at hok
    next hfacts =>
      obtain ⟨ha, hbefore, hafter⟩ := hfacts
      have hleft : Editing.left (apply true false) { graph := g } = d := by
        rw [Editing.left, happly]
      have hrewires := apply_rewires ((Graph.Built.new "f" 0).foldlM hg) ha true false {}
      rw [hleft] at hrewires
      exact ⟨g, e, d, hg, ha, happly, hbefore, hafter, hrewires⟩
    next => cases hok

end Folding

/-- A graph that can be analysed has its anchors. -/
theorem Graph.Built.anchors_used {g : Graph} {r : Solution} (hg : g.Built)
    (h : g.analyze = .ok r) : ∀ a ∈ Anchor.all, g.isRetired a = false := by
  intro a ha
  have hr := hg.describes h
  rcases anchor_roots a ha with hroot | ⟨root, hroot, z, hz, hblock⟩
  · exact hr.used a ⟨a, hroot, .refl⟩
  · obtain ⟨y, hy, hkeeps⟩ := hg.keeps_anchor hz
    obtain ⟨x, hx, rfl⟩ := Option.map_eq_some_iff.mp hy
    refine hr.inUse root a ⟨root, hroot, .refl⟩ ?_
    have hplace : x.block = some a := hkeeps.block.trans hblock
    rw [Graph.inputs_eq hx, Node.inputs, hplace]
    exact List.mem_append_left _ (List.mem_singleton_self a)

namespace Folding

variable {g : Graph}

/-- A pass that succeeds says that it changed something exactly if its log has a change or the stop
node has lost operands: stale keep-alives are dropped and counted, and no event says so. -/
theorem apply_changed_iff (hg : g.Built) {check trace changed : Bool} {d : Draft}
    (h : apply check trace { graph := g } = .ok changed d) :
    changed = true ↔ d.log.hasChanges = true ∨
      (d.graph.operands Anchor.stop).length < (g.operands Anchor.stop).length := by
  obtain ⟨r, -, -, -, -, -, hr, -⟩ := exists_of_apply h
  obtain ⟨m, reported, hd, hchanged⟩ :=
    (apply_records hg (hg.anchors_used hr) check trace {}).gives h
  have hlog : d.log.hasChanges = reported := hd.log
  have hstop := hd.altered.keepAlives hg
  rw [hchanged, hlog, Bool.or_eq_true, decide_eq_true_iff]
  exact or_congr_right (by omega)

/-- A loop that is kept alive twice. -/
def keptTwice : List Edit :=
  [.addNode .jump .control (some Anchor.startBlock) [],
    .addNode .block .block none [5],
    .addNode .jump .control (some 6) [],
    .addOperand 6 7,
    .keepAlive 6,
    .keepAlive 6]

/-- Whether the pass changes the graph the edits make, which is legal, and logs no change. -/
def checkSilent (edits : List Edit) : Except Error Unit := do
  let g ← edits.foldlM Graph.apply (.new "f" 0)
  g.verify
  match apply true false { graph := g } with
  | .ok changed d => if changed && !d.log.hasChanges then .ok () else .error .outOfRange
  | .error e _ => .error e

/-- Dropping the second keep-alive is all that happens, and the log does not say so. -/
theorem apply_changed_iff_keptTwice :
    ∃ g d, keptTwice.foldlM Graph.apply (.new "f" 0) = .ok g ∧ g.verify = .ok () ∧
      apply true false { graph := g } = .ok true d ∧ d.log.hasChanges = false ∧
      (d.graph.operands Anchor.stop).length < (g.operands Anchor.stop).length := by
  have hok : (checkSilent keptTwice).isOk = true := by decide +kernel
  obtain ⟨_, hok⟩ := exists_of_isOk hok
  obtain ⟨g, hg, hok⟩ := bind_eq_ok.mp hok
  obtain ⟨_, hverify, hok⟩ := bind_eq_ok.mp hok
  split at hok
  next changed d happly =>
    split at hok
    next hsilent =>
      rw [Bool.and_eq_true, Bool.not_eq_true'] at hsilent
      obtain ⟨rfl, hlog⟩ := hsilent
      have hiff := apply_changed_iff ((Graph.Built.new "f" 0).foldlM hg) happly
      refine ⟨g, d, hg, hverify, happly, hlog, (hiff.mp rfl).resolve_left ?_⟩
      simp [hlog]
    next => cases hok
  next => cases hok

end Folding

end SeaOfNodes
