import SeaOfNodes.Proofs.Ascent
import SeaOfNodes.Proofs.Precision

/-!
Folding twice.

The second run finds no fact to substitute: what the second analysis knows to be constant the first
one knew (`Image.constant?_of_constant?`), and it was substituted then (`Image.inert`). It finds
nothing to clean up either, since nothing was left to do and nothing was substituted
(`Cleanup.run_of_clean`). So it changes nothing (`Folding.apply_twice`).

Graphs in which rewriting tells the second analysis more than the first one knew are excluded
(`Folding.apply_twice_changes`): an arm in a reachable block may not hang off a branch in a dead
one, and nothing may become known because a phi of pointers collapses to a constant or a computed
node, or because a division with a known result hands on one as its memory state. Phis that stay are
not concerned, so pointers may be advanced in loops.
-/

namespace SeaOfNodes

/-! ### Nothing to substitute -/

namespace Substitution

/-- The facts leave nothing to substitute. -/
structure Inert (r : Solution) (h : Graph) : Prop where
  value : ∀ n x, h.Live n → h.nodes[n]? = some x → x.op.isFolded = true →
    x.mode.isFoldable = true → r.constant? n = none
  division : ∀ n x, h.Live n → h.nodes[n]? = some x → x.op.isDivision = true →
    r.constant? n = none
  arm : ∀ n x side t, h.Live n → h.nodes[n]? = some x → x.op = .proj (.arm side) →
    x.operands.head? = some t → (r.constant? t).bind Literal.toBool? = none

theorem Inert.fold {r : Solution} {s : State} (hi : Inert r s.draft.graph) {pass : String}
    {n : NodeId} {x : Node} (hn : s.draft.graph.Live n) (hx : s.draft.graph.nodes[n]? = some x)
    (hop : x.op.isFolded = true) : fold r pass s n x = .ok s := by
  unfold Substitution.fold
  split
  · next hmode => rw [hi.value n x hn hx hop hmode]
  · rfl

theorem Inert.splice {r : Solution} {s : State} (hi : Inert r s.draft.graph) {pass : String}
    {n : NodeId} {x : Node} (hn : s.draft.graph.Live n) (hx : s.draft.graph.nodes[n]? = some x)
    (hop : x.op.isDivision = true) : splice r pass s n x = .ok s := by
  unfold Substitution.splice
  rw [hi.division n x hn hx hop]

theorem Inert.foldArm {r : Solution} {s : State} (hi : Inert r s.draft.graph) {pass : String}
    {n : NodeId} {x : Node} {side : Bool} (hn : s.draft.graph.Live n)
    (hx : s.draft.graph.nodes[n]? = some x) (hop : x.op = .proj (.arm side)) :
    foldArm r pass s n x side = .ok s := by
  unfold Substitution.foldArm
  split
  · rfl
  · next t ht => rw [hi.arm n x side t hn hx hop ht]

/-- A visit finds nothing to substitute. -/
theorem Inert.visit {r : Solution} {s : State} (hi : Inert r s.draft.graph) {pass : String}
    {n : NodeId} {x : Node} (hn : s.draft.graph.Live n) (hx : s.draft.graph.nodes[n]? = some x) :
    visit r pass s n = .ok s := by
  unfold Substitution.visit
  rw [bind_of_ok (Graph.node_eq_ok_iff.mpr hx)]
  cases hop : x.op with
  | proj k =>
    cases k with
    | arm side => exact hi.foldArm hn hx hop
    | _ => rfl
  | div => exact hi.splice hn hx (by simp [hop, Op.isDivision])
  | mod => exact hi.splice hn hx (by simp [hop, Op.isDivision])
  | phi => exact hi.fold hn hx (by simp [hop, Op.isFolded])
  | binary op => exact hi.fold hn hx (by simp [hop, Op.isFolded])
  | cmp rel => exact hi.fold hn hx (by simp [hop, Op.isFolded])
  | minus => exact hi.fold hn hx (by simp [hop, Op.isFolded])
  | not => exact hi.fold hn hx (by simp [hop, Op.isFolded])
  | conv => exact hi.fold hn hx (by simp [hop, Op.isFolded])
  | _ => rfl

/-- Substituting changes nothing. -/
theorem Inert.run {r : Solution} {d : Draft} (hi : Inert r d.graph) (hknot : ¬ d.graph.Knotted)
    (hused : ∀ n, d.graph.Live n → d.graph.isRetired n = false) (pass : String) :
    run r pass d = .ok {} d := by
  have hsize : Anchor.bad < d.graph.size := by
    obtain ⟨x, hx, -⟩ := Graph.isRetired_eq_false.mp (hused Anchor.bad ⟨_, by simp, .refl⟩)
    exact Graph.lt_size_of_getElem? hx
  obtain ⟨walk, hwalk⟩ := Walk.exists_run hsize hknot
  have hloop : walk.order.foldlM (Substitution.visit r pass) (.ofDraft d) = .ok (.ofDraft d) := by
    refine foldlM_eq_self fun n hn => ?_
    have hlive := ((Walk.complete_of_run hwalk).mem_order n).mp hn
    obtain ⟨x, hx, -⟩ := Graph.isRetired_eq_false.mp (hused n hlive)
    exact Inert.visit (s := .ofDraft d) hi hlive hx
  refine Editing.change_of_ok ?_
  rw [bind_of_ok hwalk, bind_of_ok hloop]
  rfl

end Substitution

namespace Image

variable {g h : Graph} {r r' : Solution} {σ : NodeId → NodeId} {K : NodeId → List Nat}

/-- Something is known of every computed node in a reachable block. -/
def Known (g : Graph) (a : Assignment) : Prop :=
  ∀ n x, g.Live n → g.nodes[n]? = some x → g.computes x = true → a.enters x = true →
    a.value n ≠ .unknown

/-- What the second analysis knows to be constant the first one knew. -/
theorem constant?_of_constant? (hb : Basis g r) (ht : Typed g r) (hi : Image g r σ K h.Live h)
    (hr : r'.Describes h) (hsettled : ∀ n, g.Live n → Substitution.Settled g r h n)
    (harms : Decided g r.assignment) (hknown : Known g r.assignment) {n : NodeId} {x y : Node}
    {v : Literal} (hn : g.Live n) (hh : h.Live n) (hx : g.nodes[n]? = some x)
    (hy : h.nodes[n]? = some y) (hkind : Substitution.consults x = true)
    (hv : r'.constant? n = some v) : r.constant? n = some v := by
  obtain ⟨z, hz, hop, hmode, hblock, -⟩ := hi.exists_renamed hn hh hx
  rw [hy] at hz
  cases hz
  have hcy : h.computes y = true := by
    refine h.computes_of_consults ?_
    rwa [Substitution.consults, hop, hmode]
  have hvalue := Solution.value_of_constant? hv
  -- A node that keeps no evidence stands where control does not come.
  have hin : r'.assignment.enters y = true := by
    cases hin : r'.assignment.enters y with
    | true => rfl
    | false => cases hvalue.symm.trans (hr.untouched n y hh hy hcy hin)
  obtain ⟨b, hyb, hreach⟩ := Assignment.enters_eq_true.mp hin
  have hreach := hi.reachable_of_reachable hb hsettled harms hr (hr.block_live hh hy hyb) hreach
  have hne := hknown n x hn hx (g.computes_of_consults hkind)
    (Assignment.enters_eq_true.mpr ⟨b, hblock.symm.trans hyb, hreach⟩)
  have hle := hi.value_le hb ht hr hn hx hkind (by rwa [hi.self_of_live hh])
  rw [hi.self_of_live hh, hvalue] at hle
  rcases Fact.le_iff.mp hle with heq | heq | heq
  · exact absurd heq hne
  · rw [hb.describes.constant?_eq hn, heq]
    rfl
  · cases heq

/-- A node in use that is no constant or jump, as it was before. -/
theorem exists_origin (hi : Image g r σ K h.Live h) {n : NodeId} {y : Node} (hh : h.Live n)
    (hy : h.nodes[n]? = some y) (hconst : ∀ v, y.op ≠ .const v) (hjump : y.op ≠ .jump) :
    ∃ x, g.Live n ∧ g.nodes[n]? = some x ∧ y.op = x.op ∧ y.mode = x.mode := by
  have hret : y.op ≠ .retired := fun heq =>
    Graph.not_removed (hi.of_live hh).2 ⟨_, Graph.shape?_eq hy, heq⟩
  obtain ⟨z, hz, hop, hmode, -⟩ := hi.origin (Graph.shape?_eq hy) hret hconst hjump
  obtain ⟨x, hx, rfl⟩ := Option.map_eq_some_iff.mp hz
  have hop : y.op = x.op := hop
  exact ⟨x, Scope.live (hi.scope n hh) hz fun v hv => hconst v (hop.trans hv), hx, hop, hmode⟩

/-- No division with a constant result is left. -/
theorem not_live_of_quotient (hb : Basis g r) (ht : Typed g r) (hi : Image g r σ K h.Live h)
    (hsettled : ∀ n, g.Live n → Substitution.Settled g r h n) {d m : NodeId} {x : Node}
    {v : Literal} (hd : g.Live d) (hx : g.nodes[d]? = some x) (hdiv : x.op.isDivision = true)
    (hm : x.operands.head? = some m) (hv : r.constant? d = some v) : ¬ h.Live d := by
  intro hh
  have hshape : g.shape? d = some x.shape := Graph.shape?_eq hx
  -- It is an operand of its memory state or result, which were replaced.
  have huser : ∀ u, g.Live u → h.Live u → (∃ o ∈ g.operands u, σ o = d) → False := by
    rintro u hu hhu ⟨o, ho, heq⟩
    obtain ⟨y, hy, ho⟩ := Graph.mem_operands_of_shape ho
    obtain ⟨y, hy', rfl⟩ := Option.map_eq_some_iff.mp hy
    have holive := hb.describes.operands_live hu hy' o ho
    obtain rfl := eq_of_division hb ht.projected (heq ▸ hi.path o holive) hshape hdiv
    exact Graph.not_removed (hi.of_live hhu).2
      ((hsettled o hd).division ht.projected.apart _ v m hshape hdiv hv hm u _ hu hy
        (ht.projected o _ u _ hshape hdiv hy ho) ho)
  obtain ⟨root, hroot, hpath⟩ := hh
  rcases Relation.ReflTransGen.cases_tail hpath with rfl | ⟨u, hu, hneeds⟩
  · have hanchor : d ∈ Anchor.all := by
      simp only [List.mem_cons, List.not_mem_nil, or_false] at hroot
      rcases hroot with rfl | rfl | rfl <;> decide
    rcases hb.anchor_kind hanchor hshape with hop | hop | hop | hop <;>
      · have hop : x.op = _ := hop
        simp [hop, Op.isDivision] at hdiv
  · have hhu : h.Live u := ⟨root, hroot, hu⟩
    obtain ⟨w, hw, hwd⟩ := Graph.mem_inputs.mp hneeds.1
    have hret : w.op ≠ .retired := fun heq => Graph.not_removed (hi.of_live hhu).2 ⟨_, hw, heq⟩
    rcases hwd with hblock | hmem
    · obtain ⟨-, z, hz, hop⟩ := hi.block_of_used hb hhu hw hret hblock
      rw [hshape] at hz
      cases hz
      have hop : x.op = .block := hop
      simp [hop, Op.isDivision] at hdiv
    · rw [← Graph.operands_eq_of_shape hw] at hmem
      by_cases hstop : u = Anchor.stop
      · subst hstop
        obtain ⟨o, ho, heq⟩ := hi.stop d hmem
        exact huser _ (hb.anchor_live _ (by decide)) hhu ⟨o, ho, heq.symm⟩
      · have hlive : g.Live u := by
          rcases hi.scope u hhu with hlive | hfresh | ⟨c, z, hz, hop, -⟩
          · exact hlive
          · rw [Graph.operands_eq_of_shape hw, (hi.fresh u w hfresh hw).1] at hmem
            cases hmem
          · rw [hi.leaf u z hz (.inl ⟨c, hop⟩)] at hmem
            cases hmem
        rw [hi.operands u hstop hhu hlive (hi.of_live hhu).2] at hmem
        obtain ⟨o, ho, heq⟩ := List.mem_map.mp hmem
        obtain ⟨k, -, hk⟩ := mem_pick.mp ho
        exact huser u hlive hhu ⟨o, List.mem_of_getElem? hk, heq⟩

/-- Only dead control takes the place of a branch. -/
theorem Gives.of_cond {t m : NodeId} {x : Shape} (hx : g.shape? t = some x) (hop : x.op = .cond)
    (hg : Gives g r h t m) : m = Anchor.bad := by
  have hshape {y : Shape} (hy : g.shape? t = some y) : y.op = .cond := by
    rw [hx] at hy
    cases hy
    exact hop
  cases hg with
  | bury => rfl
  | buryJump => rfl
  | dead => rfl
  | block => rfl
  | fold _ hy hop' => simp [hshape hy, Op.isFolded] at hop'
  | quotient _ hy hop' => cases (hshape hy).symm.trans hop'
  | splice _ hy hop' => cases (hshape hy).symm.trans hop'
  | jump _ hy hop' => cases (hshape hy).symm.trans hop'
  | merge _ hy hop' => cases (hshape hy).symm.trans hop'

/-- The second analysis leaves nothing to substitute. -/
theorem inert (hb : Basis g r) (ht : Typed g r) (hi : Image g r σ K h.Live h)
    (hr : r'.Describes h) (hsettled : ∀ n, g.Live n → Substitution.Settled g r h n)
    (harms : Decided g r.assignment) (hknown : Known g r.assignment)
    (hmemory : ∀ n x, g.Live n → g.nodes[n]? = some x → x.op.usesMemory = true →
      ∃ m, x.operands.head? = some m) : Substitution.Inert r' h where
  value n y hh hy hop hmode := by
    have hconst : ∀ v, y.op ≠ .const v := by rintro v heq; simp [heq, Op.isFolded] at hop
    have hjump : y.op ≠ .jump := by rintro heq; simp [heq, Op.isFolded] at hop
    obtain ⟨x, hn, hx, hxop, hxmode⟩ := hi.exists_origin hh hy hconst hjump
    cases hv : r'.constant? n with
    | none => rfl
    | some v =>
      have hop' : x.op.isFolded = true := by rwa [← hxop]
      have hmode' : x.mode.isFoldable = true := by rwa [← hxmode]
      have hfirst := hi.constant?_of_constant? hb ht hr hsettled harms hknown hn hh hx hy
        (by simp [Substitution.consults, hop', hmode']) hv
      exact absurd ((hsettled n hn).value _ v (Graph.shape?_eq hx) hop' hmode' hfirst)
        (Graph.not_removed (hi.of_live hh).2)
  division n y hh hy hop := by
    have hconst : ∀ v, y.op ≠ .const v := by rintro v heq; simp [heq, Op.isDivision] at hop
    have hjump : y.op ≠ .jump := by rintro heq; simp [heq, Op.isDivision] at hop
    obtain ⟨x, hn, hx, hxop, -⟩ := hi.exists_origin hh hy hconst hjump
    cases hv : r'.constant? n with
    | none => rfl
    | some v =>
      have hop' : x.op.isDivision = true := by rwa [← hxop]
      have hfirst := hi.constant?_of_constant? hb ht hr hsettled harms hknown hn hh hx hy
        (by simp [Substitution.consults, hop']) hv
      have huse : x.op.usesMemory = true := by cases hz : x.op <;> simp_all [Op.isDivision] <;> rfl
      obtain ⟨m, hm⟩ := hmemory n x hn hx huse
      exact absurd hh (hi.not_live_of_quotient hb ht hsettled hn hx hop' hm hfirst)
  arm n y side t' hh hy hop ht' := by
    obtain ⟨x, hn, hx, hxop, -⟩ := hi.exists_origin hh hy (by simp [hop]) (by simp [hop])
    have hop' : x.op = .proj (.arm side) := hxop.symm.trans hop
    obtain ⟨t, z, hhead, hz, hcond⟩ := hb.arm n _ side hn (Graph.shape?_eq hx) hop'
    have hhead : x.operands.head? = some t := hhead
    rw [hi.operands_of_whole hn hh hx hy (ne_stop_of_op hb hx (by simp [hop'])) (by simp [hop'])
      (by simp [hop']), List.head?_map, hhead] at ht'
    obtain rfl : σ t = t' := Option.some.inj ht'
    obtain ⟨w, hw, rfl⟩ := Option.map_eq_some_iff.mp hz
    have hcond : w.op = .cond := hcond
    have htlive := hb.describes.operands_live hn hx t (List.mem_of_mem_head? hhead)
    have hth : h.Live (σ t) := by
      refine hr.operands_live hh hy _ (List.mem_of_mem_head? ?_)
      rw [hi.operands_of_whole hn hh hx hy (ne_stop_of_op hb hx (by simp [hop'])) (by simp [hop'])
        (by simp [hop']), List.head?_map, hhead]
      rfl
    cases hv : r'.constant? (σ t) with
    | none => rfl
    | some v =>
      by_cases heq : σ t = t
      · rw [heq] at hth hv
        obtain ⟨u, hu, -⟩ := hi.exists_renamed htlive hth hw
        have hfirst := hi.constant?_of_constant? hb ht hr hsettled harms hknown htlive hth hw hu
          (by simp [Substitution.consults, hcond]) hv
        cases hbool : v.toBool? with
        | none => simpa using hbool
        | some selected =>
          exact absurd ((hsettled n hn).arm _ side t v (Graph.shape?_eq hx) hop' hhead hfirst
            (by simp [hbool])) (Graph.not_removed (hi.of_live hh).2)
      · obtain ⟨m, hg, hm⟩ := hi.gives_of_ne htlive heq
        obtain rfl := hg.of_cond hz hcond
        rw [hm, hi.stands_bad] at hth hv
        cases (hi.value_of_bad hb ht hr hth).symm.trans (Solution.value_of_constant? hv)

end Image

/-! ### Nothing to record -/

/-- From one draft to another only notes were recorded, and none of them tells of a change. -/
def Draft.Reports (d d' : Draft) : Prop :=
  d'.graph = d.graph ∧ ∃ notes : List Event,
    d'.log.events.toList = d.log.events.toList ++ notes ∧
      ∀ e ∈ notes, e.kind.isChange = false

namespace Draft.Reports

variable {d d₁ d₂ : Draft}

theorem refl (d : Draft) : d.Reports d := ⟨rfl, [], by simp, by simp⟩

theorem note (h : d.Reports d₁) {kind : EventKind} (hkind : kind.isChange = false)
    (n : Option NodeId) (pass : Option String) (message : String) :
    d.Reports (d₁.note kind n pass message) := by
  obtain ⟨hgraph, notes, hlog, hnotes⟩ := h
  refine ⟨hgraph, notes ++ [{ kind, function := some d₁.graph.name, node := n, pass, message }],
    ?_, fun e he => ?_⟩
  · rw [← List.append_assoc, ← hlog]
    exact Array.toList_push
  · rcases List.mem_append.mp he with he | he
    · exact hnotes e he
    · rw [List.mem_singleton.mp he]
      exact hkind

end Draft.Reports

namespace Folding

/-- Analysing the graph records notes at most. -/
theorem analyze_of_ok {d : Draft} {r : Solution} (h : d.graph.analyze = .ok r) (trace : Bool) :
    ∃ d₁, analyze trace d = .ok r d₁ ∧ d.Reports d₁ := by
  have hnotes := notes_preserve (P := d.Reports) (fun _ _ _ h₁ => h₁.note rfl _ _ _)
    (if trace then r.trace.toList else []) (.refl d)
  refine ⟨_, Editing.change_of_ok ?_, hnotes⟩
  rw [bind_of_ok h]
  rfl

end Folding

/-- A structured graph without a knot can be analysed. -/
theorem Graph.Structured.exists_analyze {h : Graph} (hs : h.Structured) (hknot : ¬ h.Knotted) :
    ∃ r, h.analyze = .ok r := by
  have hsize : Anchor.bad < h.size := by
    obtain ⟨x, hx, -⟩ := Graph.exists_shape (hs.anchor Anchor.bad (by decide))
    exact Graph.lt_size_of_shape? hx
  rcases Graph.analyze_of_not_knotted hs.mirrored hsize hknot with ⟨hdangles, -⟩ | ⟨-, hok⟩
  · rcases hdangles with ⟨u, t, hu, ht, hret⟩ | ⟨n, hn, hret⟩
    · rw [hs.inUse u t hu ht] at hret
      cases hret
    · rw [hs.used ⟨n, hn, .refl⟩] at hret
      cases hret
  · exact hok

/-- An analysis of an image describes it. -/
theorem Image.describes {g h : Graph} {r r' : Solution} {σ : NodeId → NodeId}
    {K : NodeId → List Nat} (hb : Basis g r) (hi : Image g r σ K h.Live h)
    (hr : h.analyze = .ok r') : r'.Describes h := by
  refine hi.mirrored.describes hr fun _ => ⟨hi.anchor_live hb _ (by decide), ?_⟩
  obtain ⟨x, hx, hop, -⟩ := hb.anchor (n := Anchor.startBlock) rfl (by decide)
  obtain ⟨y, hy, hyop, -⟩ := hi.exists_same hx (hi.anchor _ (by decide)).2
  obtain ⟨z, hz, rfl⟩ := Option.map_eq_some_iff.mp hy
  exact ⟨z, hz, hyop.trans hop⟩

namespace Folding

/-- The shape of a graph, and how far the facts about it go. -/
structure Regular (g : Graph) (r : Solution) : Prop where
  placed : ∀ n x, g.Live n → g.shape? n = some x → x.op ≠ .block →
    ∃ b y, x.block = some b ∧ g.shape? b = some y ∧ y.op = .block
  outermost : ∀ b x, g.Live b → g.shape? b = some x → x.op = .block → x.block = none
  leaf : ∀ n x, g.shape? n = some x → (∃ v, x.op = .const v) ∨ x.op = .bad → x.operands = []
  single : ∀ n x k, g.Live n → g.nodes[n]? = some x → x.op = .proj k → x.operands.length = 1
  /-- The arms of branches hang off branches. -/
  arm : ∀ n x side, g.Live n → g.shape? n = some x → x.op = .proj (.arm side) →
    ∃ t y, x.operands.head? = some t ∧ g.shape? t = some y ∧ y.op = .cond
  /-- Divisions are used by their memory states and results only. -/
  projected : Image.Projected g
  /-- The result of a division with a constant value has the mode of that value. -/
  results : Execution.ResultsAgree g r.assignment
  /-- Something is known of every computed node in a reachable block. -/
  known : Image.Known g r.assignment

/-- Folding what folding has left changes nothing and records no change. -/
theorem apply_twice {check trace check' trace' changed : Bool} {d d' : Draft} {r : Solution}
    (hbuilt : d.graph.Built) (hverify : d.graph.verify = .ok ()) (hr : d.graph.analyze = .ok r)
    (hreg : Regular d.graph r) (hex : Image.Exhausted d.graph r)
    (h : apply check trace d = .ok changed d') :
    ∃ d'', apply check' trace' d' = .ok false d'' ∧ d'.Reports d'' := by
  have hs := Graph.Structured.of_verify hbuilt (hbuilt.describes hr) hverify hreg.leaf hreg.placed
    hreg.outermost
  have hb : Image.Basis d.graph r := ⟨hbuilt, hs, hbuilt.describes hr, hreg.arm⟩
  have ht : Image.Typed d.graph r := ⟨hex, hreg.projected, hreg.single, hreg.results⟩
  obtain ⟨⟨htidied, σ, K, hi⟩, hclean, hsettled⟩ := apply_tidies hb hr h
  have hs' : d'.graph.Structured := hi.structured hb
  obtain ⟨r', hr'⟩ := hs'.exists_analyze htidied.unknotted
  have hdescribes := hi.describes hb hr'
  have hinert : Substitution.Inert r' d'.graph :=
    hi.inert hb ht hdescribes hsettled hex.decided hreg.known
      (Graph.verify_eq_ok hverify).memory
  obtain ⟨d₁, hanalyze, hreports⟩ := analyze_of_ok hr' trace'
  rw [← hreports.1] at hinert hs' hclean htidied
  refine ⟨d₁.note .info none name (summary r'), ?_, hreports.note rfl _ _ _⟩
  unfold apply
  rw [Editing.bind_of_ok hanalyze,
    Editing.bind_of_ok (hinert.run htidied.unknotted (fun n hn => hs'.used hn) name),
    Editing.bind_of_ok (Cleanup.run_of_clean htidied hclean check')]
  rfl

/-! ### Graphs that meet the conditions, and graphs that do not -/

/-- Whether projections have one operand, and nothing else has a division as an operand. -/
def checkProjections (g : Graph) (x : Node) : Bool :=
  (match x.op with
    | .proj _ => x.operands.length == 1
    | _ => true) &&
  (x.op == .proj .memory || x.op == .proj .result ||
    x.operands.all fun d => !g.nodes[d]?.any fun y => y.op.isDivision)

/-- Whether a graph and the facts about it are regular, node by node. -/
def checkRegular (g : Graph) (a : Assignment) : Bool :=
  g.nodes.all (Graph.checkPlace g) && g.nodes.all (checkShape g) &&
    g.nodes.all (checkProjections g) && Execution.checkResults g a &&
    g.nodes.toList.zipIdx.all fun (x, n) =>
      !g.computes x || !a.enters x || a.value n != .unknown

theorem Regular.of_check {g : Graph} {r : Solution} (h : checkRegular g r.assignment = true) :
    Regular g r := by
  simp only [checkRegular, Bool.and_eq_true] at h
  obtain ⟨⟨⟨⟨hplace, hshape⟩, hproj⟩, hresults⟩, hknown⟩ := h
  have hproj {n : NodeId} {x : Node} (hx : g.nodes[n]? = some x) :
      checkProjections g x = true := Array.all_eq_true'.mp hproj x (Array.mem_of_getElem? hx)
  refine
    { placed := Graph.placed_of_check hplace
      outermost := Graph.outermost_of_check hplace
      leaf := Graph.leaf_of_check hplace
      single := fun n x k _ hx hop => ?_
      arm := arms_of_checkShape hshape
      projected := fun d x u y hx hdiv hy hmem => ?_
      results := Execution.resultsAgree_of_check hresults
      known := fun n x _ hx hc hin hunknown => ?_ }
  · have hcheck := hproj hx
    simp only [checkProjections, hop, Bool.and_eq_true, beq_iff_eq] at hcheck
    exact hcheck.1
  · obtain ⟨z, hz, rfl⟩ := Option.map_eq_some_iff.mp hy
    obtain ⟨w, hw, rfl⟩ := Option.map_eq_some_iff.mp hx
    have hdiv : w.op.isDivision = true := hdiv
    have hcheck := (Bool.and_eq_true_iff.mp (hproj hz)).2
    simp only [Bool.or_eq_true, beq_iff_eq, List.all_eq_true] at hcheck
    rcases hcheck with hop | hnone
    · exact hop
    · have := hnone d hmem
      simp [hw, hdiv] at this
  · have hmem : (x, n) ∈ g.nodes.toList.zipIdx := by
      rw [List.mem_zipIdx_iff_getElem?, Array.getElem?_toList]
      exact hx
    have hcheck := List.all_eq_true.mp hknown _ hmem
    simp [hc, hin, hunknown] at hcheck

/-- Whether control enters a block at the position `k` only, if at all; the entry block is entered
without passing an edge. -/
def checkSole (g : Graph) (a : Assignment) (b : NodeId) (k : Nat) : Bool :=
  (b == Anchor.startBlock || (g.operands b).any a.taken) &&
    (g.operands b).zipIdx.all fun (e, j) => !a.taken e || j == k

theorem checkSole_of_entered {g : Graph} {r : Solution} {b : NodeId} {k : Nat}
    (hb : b = Anchor.startBlock ∨ ∃ e ∈ g.operands b, r.assignment.taken e = true)
    (hsole : ∀ j e, (g.operands b)[j]? = some e → r.assignment.taken e = true → j = k) :
    checkSole g r.assignment b k = true := by
  refine Bool.and_eq_true_iff.mpr ⟨?_, List.all_eq_true.mpr ?_⟩
  · rcases hb with rfl | ⟨e, he, htaken⟩
    · rfl
    · rw [Bool.or_eq_true]
      exact .inr (List.any_eq_true.mpr ⟨e, he, htaken⟩)
  · rintro ⟨e, j⟩ hmem
    cases htaken : r.assignment.taken e with
    | false => simp [htaken]
    | true => simpa [htaken] using hsole j e (List.mem_zipIdx_iff_getElem?.mp hmem) htaken

/-- Whether folding may put another node in the place of one that is not computed. -/
def checkBypassed (g : Graph) (r : Solution) (n : NodeId) : Bool :=
  g.nodes[n]?.any fun x => match x.op with
    | .phi => !x.mode.isFoldable && x.block.any fun b =>
      (List.range x.operands.length).any (checkSole g r.assignment b)
    | .proj .memory => x.operands.any fun t =>
      (g.nodes[t]?.any fun y => y.op.isDivision) && (r.constant? t).isSome
    | _ => false

theorem checkBypassed_of_bypasses {g : Graph} {r : Solution} {n o : NodeId} (hv : g.Varies n)
    (h : Image.Bypasses g r n o) : checkBypassed g r n = true := by
  obtain ⟨x, hx, -, hc⟩ := hv
  have hphi {b : NodeId} {k : Nat} (hop : x.op = .phi) (hb : x.block = some b)
      (ho : x.operands[k]? = some o) (hsole : checkSole g r.assignment b k = true) :
      checkBypassed g r n = true := by
    have hmode : x.mode.isFoldable = false := by simpa [Graph.computes, hop] using hc
    have hk : k < x.operands.length := (List.getElem?_eq_some_iff.mp ho).1
    simp only [checkBypassed, hx, Option.any_some, hop, hmode, hb, Bool.not_false, Bool.true_and]
    exact List.any_eq_true.mpr ⟨k, List.mem_range.mpr hk, hsole⟩
  cases h with
  | phi h =>
    obtain ⟨y, b, k, hy, hop, hb, ⟨⟨e, he, htaken⟩, hsole⟩, ho⟩ := h
    cases hx.symm.trans hy
    exact hphi hop hb ho (checkSole_of_entered (.inr ⟨e, List.mem_of_getElem? he, htaken⟩)
      fun j p hp htaken => hsole j p ⟨hp, htaken⟩)
  | entry hy hop hb hnone ho =>
    cases hx.symm.trans hy
    obtain ⟨k, hk⟩ := List.mem_iff_getElem?.mp ho
    refine hphi hop hb hk (checkSole_of_entered (.inl rfl) fun j p hp htaken => ?_)
    rw [hnone p (List.mem_of_getElem? hp)] at htaken
    cases htaken
  | memory h =>
    obtain ⟨y, t, w, v, hy, hop, hops, hw, hdiv, hconst, -⟩ := h
    cases hx.symm.trans hy
    simp [checkBypassed, hx, hop, hops, hw, hdiv, hconst]

/-- Whether a node leaves nothing open. -/
def checkExhausted (g : Graph) (r : Solution) (x : Node) : Bool :=
  match x.op with
  | .proj (.arm _) => (!r.assignment.enters x || r.assignment.operand x 0 != .unknown) &&
    x.operands.all fun o => !checkBypassed g r o
  | _ => !g.computes x || x.operands.all fun o => !checkBypassed g r o

theorem exhausted_of_check {g : Graph} {r : Solution} (hr : r.Describes g)
    (h : g.nodes.all (checkExhausted g r) = true) : Image.Exhausted g r := by
  have hcheck {n : NodeId} {x : Node} (hx : g.nodes[n]? = some x) : checkExhausted g r x = true :=
    Array.all_eq_true'.mp h x (Array.mem_of_getElem? hx)
  refine .of_unread hr (fun n x side _ hx hop hin hunknown => ?_)
    fun u x _ hx hkind n hn o hreveals => ?_
  · have := hcheck hx
    simp [checkExhausted, hop, hin, hunknown] at this
  · obtain ⟨hv, m, hm⟩ := hreveals.varies
    have hread : (x.operands.all fun o => !checkBypassed g r o) = true := by
      have hx := hcheck hx
      unfold checkExhausted at hx
      split at hx
      next => exact (Bool.and_eq_true_iff.mp hx).2
      next harm =>
        rcases hkind with hc | ⟨side, hop⟩
        · simpa [hc] using hx
        · exact absurd hop (harm side)
    have := List.all_eq_true.mp hread n hn
    rw [checkBypassed_of_bypasses hv hm] at this
    cases this

/-- A pointer 11 that a loop advances by the step 8. Where the loop is left, a branch that is always
taken leads to the phi 22 of the advanced pointer 12 and the step. -/
def pointerLoop : List Edit :=
  [.addNode (.proj .memory) .memory (some Anchor.startBlock) [Anchor.start],
    .addNode (.proj (.argument 0)) .ptr (some Anchor.startBlock) [Anchor.start],
    .addNode (.proj (.argument 1)) .bool (some Anchor.startBlock) [Anchor.start],
    .addNode (.const (.int .i64 4)) (.int .i64) (some Anchor.startBlock) [],
    .addNode .jump .control (some Anchor.startBlock) [],
    .addNode .block .block none [9],
    .addNode .phi .ptr (some 10) [6],
    .addNode (.binary .add) .ptr (some 10) [11, 8],
    .addNode .cond .tuple (some 10) [7],
    .addNode (.proj (.arm true)) .control (some 10) [13],
    .addNode (.proj (.arm false)) .control (some 10) [13],
    .addOperand 10 14,
    .addOperand 11 12,
    .addNode .block .block none [15],
    .addNode (.const (.bool true)) .bool (some Anchor.startBlock) [],
    .addNode .cond .tuple (some 16) [17],
    .addNode (.proj (.arm true)) .control (some 16) [18],
    .addNode (.proj (.arm false)) .control (some 16) [18],
    .addNode .block .block none [19, 20],
    .addNode .phi .ptr (some 21) [12, 8],
    .addNode .ret .control (some 21) [5, 22],
    .addOperand Anchor.endBlock 23]

/-- The first run puts the sum 12 in the place of the phi 22 and leaves the phi 11, and the second
one finds nothing. -/
theorem apply_twice_pointerLoop :
    ∃ g changed d' d'', pointerLoop.foldlM Graph.apply (.new "f" 2) = .ok g ∧
      apply true false { graph := g } = .ok changed d' ∧ d'.graph.isRetired 22 = true ∧
      d'.graph.operands 11 = [6, 12] ∧ d'.graph.operands 23 = [5, 12] ∧
      apply true true d' = .ok false d'' ∧ d'.Reports d'' := by
  have hok : (do
      let g ← pointerLoop.foldlM Graph.apply (.new "f" 2)
      g.verify
      let r ← g.analyze
      let h ← g.optimize
      return (checkRegular g r.assignment, g.nodes.all (checkExhausted g r), h.isRetired 22,
        h.operands 11, h.operands 23)) = .ok (true, true, true, [6, 12], [5, 12]) := by
    decide +kernel
  obtain ⟨g, hg, hok⟩ := bind_eq_ok.mp hok
  obtain ⟨⟨⟩, hverify, hok⟩ := bind_eq_ok.mp hok
  obtain ⟨r, hr, hok⟩ := bind_eq_ok.mp hok
  obtain ⟨h, hopt, hok⟩ := bind_eq_ok.mp hok
  obtain ⟨hregular, hok⟩ := Prod.mk.inj (Except.ok.inj hok)
  obtain ⟨hexhausted, hok⟩ := Prod.mk.inj hok
  obtain ⟨hret, hok⟩ := Prod.mk.inj hok
  obtain ⟨hops, huse⟩ := Prod.mk.inj hok
  obtain ⟨changed, d', happly, rfl⟩ := Graph.optimize_eq_ok hopt
  have hbuilt : g.Built := (Graph.Built.new "f" 2).foldlM hg
  obtain ⟨d'', hagain, hreports⟩ : ∃ d'', apply true true d' = .ok false d'' ∧ d'.Reports d'' :=
    apply_twice (d := { graph := g }) hbuilt hverify hr (.of_check hregular)
      (exhausted_of_check (hbuilt.describes hr) hexhausted) happly
  exact ⟨g, changed, d', d'', hg, happly, hret, hops, huse, hagain, hreports⟩

/-- The arm 13 stands in the entry block, the branch 12 it hangs off in block 11, which control
never enters. -/
def strayArm : List Edit :=
  [.addNode (.proj .memory) .memory (some Anchor.startBlock) [Anchor.start],
    .addNode (.const (.bool true)) .bool (some Anchor.startBlock) [],
    .addNode .cond .tuple (some Anchor.startBlock) [6],
    .addNode (.proj (.arm true)) .control (some Anchor.startBlock) [7],
    .addNode (.proj (.arm false)) .control (some Anchor.startBlock) [7],
    .addNode .block .block none [8],
    .addNode .block .block none [9],
    .addNode .cond .tuple (some 11) [6],
    .addNode (.proj (.arm true)) .control (some Anchor.startBlock) [12],
    .addNode .block .block none [13],
    .addNode .not .bool (some 14) [6],
    .addNode .ret .control (some 10) [5, 6],
    .addNode .ret .control (some 14) [5, 15],
    .addOperand Anchor.endBlock 16,
    .addOperand Anchor.endBlock 17]

/-- The pointer 9 is merged from the integer constant 6. -/
def pointerPhi : List Edit :=
  [.addNode (.proj .memory) .memory (some Anchor.startBlock) [Anchor.start],
    .addNode (.const (.int .i32 5)) (.int .i32) (some Anchor.startBlock) [],
    .addNode .jump .control (some Anchor.startBlock) [],
    .addNode .block .block none [7],
    .addNode .phi .ptr (some 8) [6],
    .addNode .conv (.int .i64) (some 8) [9],
    .addNode .ret .control (some 8) [5, 10],
    .addOperand Anchor.endBlock 11]

/-- The pointer 10 is merged from the integer 15, which is merged from it. -/
def pointerCycle : List Edit :=
  [.addNode (.proj .memory) .memory (some Anchor.startBlock) [Anchor.start],
    .addNode (.const (.int .i32 5)) (.int .i32) (some Anchor.startBlock) [],
    .addNode (.proj (.argument 0)) .bool (some Anchor.startBlock) [Anchor.start],
    .addNode .jump .control (some Anchor.startBlock) [],
    .addNode .block .block none [8],
    .addNode .phi .ptr (some 9) [6],
    .addNode .cond .tuple (some 9) [7],
    .addNode (.proj (.arm true)) .control (some 9) [11],
    .addNode (.proj (.arm false)) .control (some 9) [11],
    .addNode .block .block none [12, 13],
    .addNode .phi (.int .i32) (some 14) [10, 6],
    .setOperand 10 0 15,
    .addNode .ret .control (some 14) [5, 15],
    .addOperand Anchor.endBlock 16]

/-- The pointer 13 of the entry block is merged from the integer constant 6, though the only edge
into the block comes from block 11, which control never enters. -/
def entryPhi : List Edit :=
  [.addNode (.proj .memory) .memory (some Anchor.startBlock) [Anchor.start],
    .addNode (.const (.int .i32 5)) (.int .i32) (some Anchor.startBlock) [],
    .addNode (.const (.bool true)) .bool (some Anchor.startBlock) [],
    .addNode .cond .tuple (some Anchor.startBlock) [7],
    .addNode (.proj (.arm true)) .control (some Anchor.startBlock) [8],
    .addNode (.proj (.arm false)) .control (some Anchor.startBlock) [8],
    .addNode .block .block none [10],
    .addNode .jump .control (some 11) [],
    .addOperand Anchor.startBlock 12,
    .addNode .phi .ptr (some Anchor.startBlock) [6],
    .addNode .conv (.int .i64) (some Anchor.startBlock) [13],
    .addNode .block .block none [9],
    .addNode .ret .control (some 15) [5, 14],
    .addOperand Anchor.endBlock 16]

/-- The division 9 consumes the constant 8 as a memory state. -/
def constantState : List Edit :=
  [.addNode (.proj .memory) .memory (some Anchor.startBlock) [Anchor.start],
    .addNode (.const (.int .i32 6)) (.int .i32) (some Anchor.startBlock) [],
    .addNode (.const (.int .i32 3)) (.int .i32) (some Anchor.startBlock) [],
    .addNode (.const (.int .i32 5)) .memory (some Anchor.startBlock) [],
    .addNode .div .tuple (some Anchor.startBlock) [8, 6, 7],
    .addNode (.proj .memory) .memory (some Anchor.startBlock) [9],
    .addNode .conv (.int .i64) (some Anchor.startBlock) [10],
    .addNode .ret .control (some Anchor.startBlock) [5, 11],
    .addOperand Anchor.endBlock 12]

/-- The division 16 consumes the sum 15 as a memory state, which depends on the state it leaves. -/
def computedState : List Edit :=
  [.addNode (.proj .memory) .memory (some Anchor.startBlock) [Anchor.start],
    .addNode (.const (.int .i32 6)) (.int .i32) (some Anchor.startBlock) [],
    .addNode (.const (.int .i32 3)) (.int .i32) (some Anchor.startBlock) [],
    .addNode (.proj (.argument 0)) .bool (some Anchor.startBlock) [Anchor.start],
    .addNode (.const (.int .i32 0)) (.int .i32) (some Anchor.startBlock) [],
    .addNode .cond .tuple (some Anchor.startBlock) [8],
    .addNode (.proj (.arm true)) .control (some Anchor.startBlock) [10],
    .addNode (.proj (.arm false)) .control (some Anchor.startBlock) [10],
    .addNode .block .block none [11, 12],
    .addNode .phi (.int .i32) (some 13) [6, 6],
    .addNode (.binary .add) .memory (some 13) [14, 9],
    .addNode .div .tuple (some 13) [15, 6, 7],
    .addNode (.proj .memory) .memory (some 13) [16],
    .setOperand 14 1 17,
    .addNode .ret .control (some 13) [5, 14],
    .addOperand Anchor.endBlock 18]

/-- The graph that the edits make is regular, and folding it a second time changes it. -/
def ChangesAgain (edits : List Edit) : Prop :=
  ∃ g r changed d' d'', edits.foldlM Graph.apply (.new "f" 0) = .ok g ∧ g.verify = .ok () ∧
    g.analyze = .ok r ∧ Regular g r ∧ apply true false { graph := g } = .ok changed d' ∧
    apply true false d' = .ok true d''

/-- The same, evaluated. -/
def checkChangesAgain (edits : List Edit) : Except Error Bool := do
  let g ← edits.foldlM Graph.apply (.new "f" 0)
  g.verify
  let r ← g.analyze
  match apply true false { graph := g } with
  | .error e _ => .error e
  | .ok _ d' =>
    match apply true false d' with
    | .error e _ => .error e
    | .ok changed _ => return checkRegular g r.assignment && changed

theorem changesAgain_of_check {edits : List Edit} (hok : checkChangesAgain edits = .ok true) :
    ChangesAgain edits := by
  obtain ⟨g, hg, hok⟩ := bind_eq_ok.mp hok
  obtain ⟨⟨⟩, hverify, hok⟩ := bind_eq_ok.mp hok
  obtain ⟨r, hr, hok⟩ := bind_eq_ok.mp hok
  split at hok
  · cases hok
  · next changed d' happly =>
    split at hok
    · cases hok
    · next again d'' hagain =>
      obtain ⟨hregular, rfl⟩ := Bool.and_eq_true_iff.mp (Except.ok.inj hok)
      exact ⟨g, r, changed, d', d'', hg, hverify, hr, .of_check hregular, happly, hagain⟩

/-- Folding tells a second run something new when an arm hangs off a branch in a dead block, when an
integer takes the place of a phi of pointers, in a block that control enters by one edge or in an
entry block that it enters by none, and when a division with a known result consumes an integer as
its memory state. -/
theorem apply_twice_changes :
    ChangesAgain strayArm ∧ ChangesAgain pointerPhi ∧ ChangesAgain pointerCycle ∧
      ChangesAgain entryPhi ∧ ChangesAgain constantState ∧ ChangesAgain computedState :=
  ⟨changesAgain_of_check (by decide +kernel), changesAgain_of_check (by decide +kernel),
    changesAgain_of_check (by decide +kernel), changesAgain_of_check (by decide +kernel),
    changesAgain_of_check (by decide +kernel), changesAgain_of_check (by decide +kernel)⟩

end Folding

end SeaOfNodes
