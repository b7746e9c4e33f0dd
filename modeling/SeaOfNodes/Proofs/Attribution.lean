import SeaOfNodes.Pipeline.Run
import SeaOfNodes.Proofs.Faults

/-!
Whatever is recorded while a function is worked on is about that function.

A draft concerns a function if its graph has the name of the function and every event of its log is
about it. Edits keep the name and notes take it from the graph, so each step of a pass keeps this,
whether it succeeds or not.
-/

namespace SeaOfNodes

/-- Whatever the computation gives satisfies `Q`. -/
abbrev Gives {ε α : Type} (Q : α → Prop) (x : Except ε α) : Prop := Ends (fun _ => True) Q x

theorem gives_any {ε α : Type} (x : Except ε α) : Gives (fun _ => True) x := by
  cases x <;> exact trivial

theorem gives_of_ok {ε α : Type} {Q : α → Prop} {x : Except ε α} (h : ∀ a, x = .ok a → Q a) :
    Gives Q x := by
  cases x with
  | ok a => exact h a rfl
  | error e => exact trivial

/-! ### Signatures -/

namespace Graph

/-- The graphs are of one function: its name and number of parameters are the same. -/
structure SameSignature (g h : Graph) : Prop where
  name : h.name = g.name
  params : h.params = g.params

variable {g : Graph} {n : NodeId}

theorem SameSignature.trans {g h k : Graph} (hg : g.SameSignature h) (hh : h.SameSignature k) :
    g.SameSignature k := ⟨hh.name.trans hg.name, hh.params.trans hg.params⟩

theorem signature_foldl {α : Type} (f : Graph → α → Graph)
    (hf : ∀ (g : Graph) a, g.SameSignature (f g a)) (l : List α) (g : Graph) :
    g.SameSignature (l.foldl f g) := by
  induction l generalizing g with
  | nil => exact ⟨rfl, rfl⟩
  | cons a l ih => exact (hf g a).trans (ih (f g a))

theorem removeOperand_signature (i : Nat) : Gives g.SameSignature (g.removeOperand n i) := by
  refine (gives_any (g.node n)).bind fun x _ => ?_
  split
  · exact trivial
  · exact ⟨rfl, rfl⟩

theorem kill_signature : Gives g.SameSignature (g.kill n) := by
  refine (gives_any (g.node n)).bind fun x _ => ?_
  obtain ⟨hname, hparams⟩ := signature_foldl (fun h o => h.dropUser o n) (fun _ _ => ⟨rfl, rfl⟩)
    x.operands (g.update n fun y => { y with operands := [] })
  exact ⟨hname, hparams⟩

theorem exchange_signature (new : NodeId) : Gives g.SameSignature (g.exchange n new) := by
  unfold exchange
  split
  · exact ⟨rfl, rfl⟩
  · have hredirect (h : Graph) (u : NodeId) : h.SameSignature (h.redirect n new u) := by
      obtain ⟨hname, hparams⟩ := signature_foldl (fun h u => h.addUser new u)
        (fun _ _ => ⟨rfl, rfl⟩) _ (h.update u fun x =>
          { x with operands := x.operands.map fun o => if o = n then new else o })
      exact ⟨hname, hparams⟩
    refine (gives_any (g.node n)).bind fun x _ => ?_
    dsimp only
    split
    · refine kill_signature.mono (fun _ h => h) fun h hh => ?_
      have hmoved := signature_foldl (fun h u => h.redirect n new u) hredirect (ascending x.users)
        (g.update n fun y => { y with users := [] })
      exact ⟨hh.name.trans hmoved.name, hh.params.trans hmoved.params⟩
    · exact trivial

theorem addNode_signature (op : Op) (mode : Mode) (block : Option NodeId)
    (operands : List NodeId) :
    Gives (fun r => g.SameSignature r.2) (g.addNode op mode block operands) := by
  unfold addNode
  split
  · obtain ⟨hname, hparams⟩ := signature_foldl (fun h o => h.addUser o g.size)
      (fun _ _ => ⟨rfl, rfl⟩) operands g
    exact ⟨hname, hparams⟩
  · exact trivial

end Graph

/-! ### Drafts -/

/-- The draft is of function `f`, and every event of its log is about `f`. -/
structure Draft.Concerns (f : String) (d : Draft) : Prop where
  name : d.graph.name = f
  events : ∀ e ∈ d.log.events, e.function = some f

namespace Draft.Concerns

variable {f : String} {d : Draft}

theorem note (hd : d.Concerns f) (kind : EventKind) (n : Option NodeId) (pass : Option String)
    (message : String) : (d.note kind n pass message).Concerns f := by
  refine ⟨hd.name, fun e he => ?_⟩
  rcases Array.mem_push.mp he with he | rfl
  · exact hd.events e he
  · exact congrArg some hd.name

theorem graph (hd : d.Concerns f) {g : Graph} (hg : d.graph.SameSignature g) :
    Draft.Concerns f { d with graph := g } := ⟨hg.name.trans hd.name, hd.events⟩

theorem edit (hd : d.Concerns f) {change : Graph → Except Error Graph}
    (h : Gives d.graph.SameSignature (change d.graph)) :
    Gives (Draft.Concerns f) (d.edit change) :=
  h.map fun _ hg => hd.graph hg

end Draft.Concerns

/-! ### Cleaning up -/

namespace Cleanup

variable {f : String} {d : Draft} {members : IdMap (List NodeId)}

theorem dropPhiOperand_concerns (hd : d.Concerns f) (i : Nat) (phi : NodeId) :
    Gives (Draft.Concerns f) (dropPhiOperand i d phi) := by
  refine (gives_any (d.graph.node phi)).bind fun x _ => ?_
  split
  · exact hd.edit (Graph.removeOperand_signature i)
  · exact hd

theorem dropDeadEdge_concerns (hd : d.Concerns f) (block : NodeId) (phis : List NodeId)
    (removed i : Nat) :
    Gives (fun t => t.1.Concerns f) (dropDeadEdge block phis (d, removed) i) := by
  refine (gives_any (d.graph.node block)).bind fun x _ => ?_
  split
  · exact trivial
  · split
    · refine (hd.edit (Graph.removeOperand_signature i)).bind fun d₁ hd₁ => ?_
      exact Ends.bind (.foldlM hd₁ fun n _ d hd => dropPhiOperand_concerns hd i n)
        fun d₂ hd₂ => hd₂.note ..
    · exact hd

theorem mergePhi_concerns {s : Draft × Nat} (hd : s.1.Concerns f) (n : NodeId) :
    Gives (fun t => t.1.Concerns f) (mergePhi s n) := by
  refine (gives_any (s.1.graph.node n)).bind fun x _ => ?_
  split
  · split
    · exact hd
    · exact (hd.edit (Graph.exchange_signature _)).bind fun d₁ hd₁ => hd₁.note ..
  · exact hd

theorem removeDeadEdges_concerns (hd : d.Concerns f) :
    Editing.Ends (fun _ => True) (fun _ d' => d'.Concerns f) removeDeadEdges d := by
  refine .change ((gives_any d.graph.live).bind fun live _ => ?_)
  refine (gives_any (d.graph.select _ _)).bind fun blocks _ => ?_
  refine (gives_any (d.graph.membersByBlock _)).bind fun members _ => ?_
  refine Ends.bind (.foldlM (Q := fun s : Draft × Nat => s.1.Concerns f) hd fun b _ s hs => ?_)
    fun ⟨d₁, edges⟩ hd₁ => ?_
  · refine (gives_any (s.1.graph.select _ _)).bind fun phis _ => ?_
    refine (gives_any (s.1.graph.node b)).bind fun x _ => ?_
    exact .foldlM hs fun i _ t ht => dropDeadEdge_concerns ht b phis t.2 i
  refine (gives_any (d₁.graph.reachableBlocks blocks)).bind fun reachable _ => ?_
  refine Ends.bind (.foldlM (Q := fun s : Draft × Nat => s.1.Concerns f) hd₁ fun b _ s hs => ?_)
    fun ⟨d₂, phis⟩ hd₂ => ?_
  · refine (gives_any (s.1.graph.node b)).bind fun x _ => ?_
    split
    · exact .foldlM hs fun n _ t ht => mergePhi_concerns ht n
    · exact hs
  refine Ends.bind (Q := fun r => r.1.Concerns f) ?_ fun _ h => h
  refine (gives_any d₂.graph.keepAlives).bind fun kept _ => ?_
  exact Ends.bind (.foldlM hd₂ fun i _ d hd => hd.edit (Graph.removeOperand_signature i)) fun _ h => h

theorem removeBlock_concerns (hd : d.Concerns f) (block : NodeId) :
    Gives (Draft.Concerns f) (removeBlock members d block) := by
  refine Ends.bind (.foldlM hd fun n _ d hd => ?_) fun d₁ hd₁ => ?_
  · unfold bury
    split
    · exact hd
    · exact hd.edit (Graph.exchange_signature _)
  · exact (hd₁.edit (Graph.exchange_signature _)).bind fun d₂ hd₂ => hd₂.note ..

theorem removeBlocks_concerns (hd : d.Concerns f) :
    Gives (fun r => r.2.Concerns f) (removeBlocks d) := by
  refine (gives_any d.graph.live).bind fun live _ => ?_
  refine (gives_any (d.graph.select _ _)).bind fun blocks _ => ?_
  refine (gives_any (d.graph.reachableBlocks _)).bind fun reachable _ => ?_
  refine (gives_any (d.graph.membersByBlock _)).bind fun members _ => ?_
  exact Ends.bind (.foldlM hd fun b _ d hd => removeBlock_concerns hd b) fun _ h => h

theorem removeGarbage_concerns (hd : d.Concerns f) :
    Gives (fun r => r.2.Concerns f) (removeGarbage d) := by
  refine (gives_any d.graph.live).bind fun live _ => ?_
  refine Ends.bind (.foldlM hd fun n _ d hd => hd.edit Graph.kill_signature) fun d₁ hd₁ => ?_
  split
  · exact hd₁
  · exact hd₁.note ..

theorem round_concerns (hd : d.Concerns f) :
    Editing.Ends (fun _ => True) (fun _ d' => d'.Concerns f) round d := by
  refine (removeDeadEdges_concerns hd).bind fun first d₁ hd₁ => ?_
  refine Editing.Ends.bind (Q := fun _ d' => d'.Concerns f) ?_ fun _ _ h => h
  refine (Editing.Ends.change (Q := fun _ d' => d'.Concerns f)
    (removeBlocks_concerns hd₁)).bind fun blocks d₂ hd₂ => ?_
  exact (Editing.Ends.change (Q := fun _ d' => d'.Concerns f)
    (removeGarbage_concerns hd₂)).bind fun _ _ h => h

theorem run_concerns (hd : d.Concerns f) (check : Bool) :
    Editing.Ends (fun _ => True) (fun _ d' => d'.Concerns f) (run check) d := by
  refine (round_concerns hd).bind fun first d₁ hd₁ => (round_concerns hd₁).bind
    fun second d₂ hd₂ => ?_
  cases check with
  | false => exact hd₂
  | true =>
    refine (round_concerns hd₂).silently.bind fun extra d₃ ⟨d₃', hd₃, hgraph, hlog⟩ => ?_
    cases extra.changed with
    | true => exact trivial
    | false => exact ⟨hgraph ▸ hd₃.name, hlog ▸ hd₂.events⟩

end Cleanup

/-! ### Substituting -/

namespace Substitution

variable {f : String} {s : State}

theorem replace_concerns (hs : s.draft.Concerns f) (old new : NodeId) :
    Gives (fun t => t.draft.Concerns f) (replace s old new) :=
  (hs.edit (Graph.exchange_signature _)).bind fun _ h => h

theorem constantNode_concerns (hs : s.draft.Concerns f) (v : Literal) :
    Gives (fun r => r.2.draft.Concerns f) (constantNode s v) := by
  unfold constantNode
  split
  · exact hs
  · exact (Graph.addNode_signature _ _ _ _).bind fun _ hsame => hs.graph hsame

theorem killUnused_concerns (hs : s.draft.Concerns f) (n : NodeId) :
    Gives (fun t => t.draft.Concerns f) (killUnused s n) := by
  refine (gives_any (s.draft.graph.node n)).bind fun x _ => ?_
  split
  · exact (hs.edit Graph.kill_signature).bind fun _ h => h
  · exact hs

theorem fold_concerns (hs : s.draft.Concerns f) (r : Solution) (pass : String) (n : NodeId)
    (x : Node) : Gives (fun t => t.draft.Concerns f) (fold r pass s n x) := by
  unfold fold
  split
  · split
    · exact hs
    · refine (constantNode_concerns hs _).bind fun ⟨c, s₁⟩ hs₁ => ?_
      exact (replace_concerns hs₁ n c).bind fun _ hs₂ => hs₂.note ..
  · exact hs

theorem bypass_concerns (hs : s.draft.Concerns f) (v : Literal) (mem n : NodeId) :
    Gives (fun t => t.draft.Concerns f) (bypass v mem s n) := by
  refine (gives_any (s.draft.graph.node n)).bind fun x _ => ?_
  split
  · exact replace_concerns hs n mem
  · exact (constantNode_concerns hs _).bind fun ⟨c, s₁⟩ hs₁ => replace_concerns hs₁ n c
  · exact hs

theorem splice_concerns (hs : s.draft.Concerns f) (r : Solution) (pass : String) (n : NodeId)
    (x : Node) : Gives (fun t => t.draft.Concerns f) (splice r pass s n x) := by
  unfold splice
  split
  · refine Ends.bind (.foldlM hs fun u _ t ht => bypass_concerns ht _ _ u) fun s₁ hs₁ => ?_
    exact (killUnused_concerns hs₁ n).bind fun _ hs₂ => hs₂.note ..
  · exact hs

theorem foldArm_concerns (hs : s.draft.Concerns f) (r : Solution) (pass : String) (n : NodeId)
    (x : Node) (side : Bool) :
    Gives (fun t => t.draft.Concerns f) (foldArm r pass s n x side) := by
  unfold foldArm
  split
  · exact hs
  · next branch _ =>
    split
    · split
      · refine (Graph.addNode_signature _ _ _ _).bind fun ⟨jump, graph⟩ hsame => ?_
        have hgrown : Draft.Concerns f { s.draft with graph } := hs.graph hsame
        refine (replace_concerns (s := { s with draft := { s.draft with graph } }) hgrown n jump).bind
          fun s₁ hs₁ => ?_
        exact killUnused_concerns (hs₁.note ..) branch
      · exact (replace_concerns hs n _).bind fun s₁ hs₁ => killUnused_concerns hs₁ branch
    · exact hs

theorem visit_concerns (hs : s.draft.Concerns f) (r : Solution) (pass : String) (n : NodeId) :
    Gives (fun t => t.draft.Concerns f) (visit r pass s n) := by
  refine (gives_any (s.draft.graph.node n)).bind fun x _ => ?_
  cases x.op with
  | proj kind =>
    cases kind with
    | arm side => exact foldArm_concerns hs r pass n x side
    | memory | result | argument => exact hs
  | div | mod => exact splice_concerns hs r pass n x
  | phi | binary | cmp | minus | not | conv => exact fold_concerns hs r pass n x
  | _ => exact hs

theorem run_concerns {d : Draft} (hd : d.Concerns f) (r : Solution) (pass : String) :
    Editing.Ends (fun _ => True) (fun _ d' => d'.Concerns f) (run r pass) d := by
  refine .change ((gives_any (Walk.run d.graph)).bind fun walk _ => ?_)
  exact Ends.bind (.foldlM (Q := fun s => s.draft.Concerns f) hd fun n _ s hs =>
    visit_concerns hs r pass n) fun _ h => h

end Substitution

/-! ### Folding -/

namespace Folding

variable {f : String} {d : Draft}

theorem apply_concerns (hd : d.Concerns f) (check trace : Bool) :
    Editing.Ends (fun _ => True) (fun _ d' => d'.Concerns f) (apply check trace) d := by
  have hanalyze : Editing.Ends (fun _ => True) (fun _ d' => d'.Concerns f) (analyze trace) d :=
    .change ((gives_any d.graph.analyze).bind fun r _ =>
      notes_preserve (P := fun d' => d'.Concerns f) (fun _ _ _ hd₁ => hd₁.note ..) _ hd)
  refine hanalyze.bind fun r d₁ hd₁ => ?_
  refine (Substitution.run_concerns hd₁ r name).bind fun substituted d₂ hd₂ => ?_
  refine (Cleanup.run_concerns hd₂ check).bind fun cleaned d₃ hd₃ => ?_
  exact hd₃.note ..

end Folding

end SeaOfNodes
