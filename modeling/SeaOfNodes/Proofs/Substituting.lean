import SeaOfNodes.Folding
import SeaOfNodes.Proofs.Rewriting

/-!
Substituting facts keeps what folding tracks.

The invariant `Substitution.Sound` is about the state between two visits: the graph is faithful,
constants in the table are in the graph, a node in use stands in for itself, and arms still hang
off their branches. Every change a visit makes is an exchange (`Sound.replace`), a new constant or
jump, or the removal of a node without users; `Sound.visit` puts them together.
-/

namespace SeaOfNodes

/-- What stood in for the old node is replaced everywhere. -/
theorem Renaming.resolve_replace (r : Renaming) (old new n : NodeId) :
    (r.replace old new).resolve n = if r.resolve n = old then new else r.resolve n := rfl

theorem Editing.change_eq_ok {α : Type} {f : Draft → Except Error (α × Draft)} {a : α}
    {d d' : Draft} (h : Editing.change f d = .ok a d') : f d = .ok (a, d') := by
  unfold Editing.change at h
  cases hf : f d with
  | error e => simp [hf] at h
  | ok p =>
    simp only [hf] at h
    cases h
    rfl

theorem Draft.edit_eq_ok {d d' : Draft} {f : Graph → Except Error Graph}
    (h : d.edit f = .ok d') : f d.graph = .ok d'.graph := by
  unfold Draft.edit at h
  cases hf : f d.graph with
  | error e =>
    rw [hf] at h
    cases h
  | ok graph =>
    rw [hf] at h
    cases h
    rfl

namespace Substitution

open Rewriting

/-- What holds between two visits. -/
structure Sound (g : Graph) (r : Solution) (s : State) : Prop where
  faithful : Faithful g r False (fun _ => True) (allPositions g) s.draft.graph
  constant : ∀ v n, (v, n) ∈ s.constants → s.draft.graph.IsConstant n v
  resolved : ∀ n, ¬ s.draft.graph.Removed n → s.standIns.resolve n = n
  bad : s.draft.graph.isRetired Anchor.bad = false
  linked : ∀ n m, g.Live n → m ∈ s.draft.graph.operands n → s.draft.graph.isRetired m = false
  arm : ∀ n x side, g.Live n → g.nodes[n]? = some x → x.op = .proj (.arm side) →
    s.draft.graph.isRetired n = false →
    (s.draft.graph.operands n).head? = x.operands.head?

variable {g : Graph} {r : Solution} {s s' : State}

theorem replace_eq_ok {old new : NodeId} (h : replace s old new = .ok s') :
    s.draft.graph.exchange old (s.standIns.resolve new) = .ok s'.draft.graph ∧
      s'.constants = s.constants ∧
      s'.standIns = s.standIns.replace old (s.standIns.resolve new) := by
  obtain ⟨d, hd, h⟩ := bind_eq_ok.mp h
  cases h
  cases hx : s.draft.graph.exchange old (s.standIns.resolve new) with
  | error e =>
    rw [Draft.edit, hx] at hd
    cases hd
  | ok graph =>
    rw [Draft.edit, hx] at hd
    cases hd
    exact ⟨rfl, rfl, rfl⟩

/-- Exchanging a node for itself changes nothing. -/
theorem replace_self {old new : NodeId} (h : replace s old new = .ok s')
    (heq : old = s.standIns.resolve new) :
    s'.draft.graph = s.draft.graph ∧ s'.constants = s.constants ∧
      s'.standIns.resolve = s.standIns.resolve := by
  obtain ⟨hx, hconstants, hstandIns⟩ := replace_eq_ok h
  rw [← heq] at hx hstandIns
  refine ⟨?_, hconstants, funext fun n => ?_⟩
  · rw [Graph.exchange, if_pos rfl] at hx
    exact (Except.ok.inj hx).symm
  · rw [hstandIns, Renaming.resolve_replace]
    split
    next hn => exact hn.symm
    next => rfl

theorem used_of_kind {h : Graph} {n : NodeId} {y : Shape} (hy : h.shape? n = some y)
    (hkind : isReplaced y.op = true) : h.isRetired n = false := by
  refine Graph.isRetired_eq_false_iff.mpr ⟨y, hy, ?_⟩
  intro hop
  rw [hop] at hkind
  cases hkind

/-- A node of a kind that is exchanged is no block. -/
theorem Sound.not_persists (hs : Sound g r s) {n : NodeId} {y : Shape}
    (hy : s.draft.graph.shape? n = some y) (hkind : isReplaced y.op = true) :
    ¬ Persists g r n := by
  intro hn
  obtain ⟨z, hz, hop, -⟩ := hs.faithful.block n hn
  rw [hy] at hz
  cases hz
  rw [hop] at hkind
  cases hkind

/-- A node of a kind that is exchanged does not stay. -/
theorem Sound.not_stays (hs : Sound g r s) {n : NodeId} {y : Shape}
    (hy : s.draft.graph.shape? n = some y) (hkind : isReplaced y.op = true) :
    ¬ Stays g r n := by
  rintro ⟨-, hn | ⟨-, x, b, hx, hop, -⟩⟩
  · exact hs.not_persists hy hkind hn
  · rcases (hs.faithful.keeps (Graph.shape?_eq hx) hy).op with heq | heq
    · rw [heq, Node.shape, hop] at hkind
      cases hkind
    · rw [heq] at hkind
      cases hkind

theorem Sound.not_division (hs : Sound g r s) {n : NodeId} {y : Shape}
    (hy : s.draft.graph.shape? n = some y) (hkind : isReplaced y.op = true) :
    ∀ x, g.nodes[n]? = some x → x.op.isDivision = false := by
  intro x hx
  cases hdiv : x.op.isDivision with
  | false => rfl
  | true =>
    rcases (hs.faithful.keeps (Graph.shape?_eq hx) hy).op with hop | hop
    · rw [hop, Node.shape] at hkind
      cases hx : x.op <;> simp [hx, Op.isDivision, isReplaced] at hdiv hkind
    · rw [hop] at hkind
      cases hkind

theorem Sound.not_anchor (hp : Premises g r) (hs : Sound g r s) {n : NodeId} {y x : Shape}
    (hy : s.draft.graph.shape? n = some y) (hkind : isReplaced y.op = true)
    (hx : (Graph.new "" 0).shape? n = some x) (hanchor : isReplaced x.op = false) : False := by
  rcases (hs.faithful.anchor hp hx hy).op with hop | hop
  · rw [hop, hanchor] at hkind
    cases hkind
  · rw [hop] at hkind
    cases hkind

/-- A node that is no constant, dead control or jump is needed by what rests on it. -/
theorem depends_of_rests {h : Graph} {n m : NodeId} {y : Shape} (hy : h.shape? m = some y)
    (hconst : ∀ v, y.op ≠ .const v) (hjump : y.op ≠ .jump) (hbad : m ≠ Anchor.bad)
    (hrest : Rests g h n m) : Relation.TransGen g.Needs n m := by
  rcases hrest with hdep | ⟨v, z, hz, hop, -⟩ | hm | ⟨z, b, -, hz, hop, -⟩
  · exact hdep
  · rw [hy] at hz
    cases hz
    exact absurd hop (hconst v)
  · exact absurd hm hbad
  · rw [hy] at hz
    cases hz
    exact absurd hop hjump

/-- A node depends on an operand that is exchanged in the graph the pass began with. -/
theorem Sound.depends (hp : Premises g r) (hs : Sound g r s) {n m : NodeId} {y : Shape}
    (hy : s.draft.graph.shape? m = some y) (hkind : isReplaced y.op = true)
    (hrest : Rests g s.draft.graph n m) : Relation.TransGen g.Needs n m := by
  refine depends_of_rests hy (fun v hop => ?_) (fun hop => ?_) ?_ hrest
  · rw [hop] at hkind
    cases hkind
  · rw [hop] at hkind
    cases hkind
  · rintro rfl
    exact hs.not_anchor hp hy hkind rfl rfl

theorem not_constant_of_kind {h : Graph} {n : NodeId} {y : Shape} (hy : h.shape? n = some y)
    (hkind : isReplaced y.op = true) (v : Literal) : ¬ h.IsConstant n v := by
  rintro ⟨z, hz, hop, -⟩
  rw [hy] at hz
  cases hz
  rw [hop] at hkind
  cases hkind

/-- The invariant is about the graph, the table of constants and the stand-ins. -/
theorem Sound.congr (hs : Sound g r s) (hgraph : s'.draft.graph = s.draft.graph)
    (hconstants : s'.constants = s.constants)
    (hresolve : s'.standIns.resolve = s.standIns.resolve) : Sound g r s' where
  faithful := hgraph ▸ hs.faithful
  constant v n hmem := hgraph ▸ hs.constant v n (hconstants ▸ hmem)
  resolved n hn := hresolve ▸ hs.resolved n (hgraph ▸ hn)
  bad := hgraph ▸ hs.bad
  linked := hgraph ▸ hs.linked
  arm := hgraph ▸ hs.arm

/-- What holds besides the graph being faithful goes through a contraction that keeps constants,
dead control and the branches of arms, and moves edges to nodes in use. -/
theorem Sound.contract (hs : Sound g r s) {gone : NodeId → Prop} {move : NodeId → NodeId}
    (hc : Contracts s.draft.graph s'.draft.graph gone move)
    (hfaithful : Faithful g r False (fun _ => True) (allPositions g) s'.draft.graph)
    (hconstants : s'.constants = s.constants)
    (hresolve : ∀ n, ¬ s'.draft.graph.Removed n → s.standIns.resolve n = n →
      s'.standIns.resolve n = n)
    (hconst : ∀ v n, s.draft.graph.IsConstant n v → ¬ gone n) (hbad : ¬ gone Anchor.bad)
    (hmove : ∀ n m, m ∈ s.draft.graph.operands n → gone m →
      ¬ gone (move m) ∧ s.draft.graph.isRetired (move m) = false)
    (hcond : ∀ n x side t, g.Live n → g.nodes[n]? = some x → x.op = .proj (.arm side) →
      x.operands.head? = some t → t ∈ s.draft.graph.operands n → ¬ gone t) : Sound g r s' where
  faithful := hfaithful
  constant v n hmem := by
    have hv := hs.constant v n (hconstants ▸ hmem)
    exact hc.isConstant (hconst v n hv) hv
  resolved n hn := hresolve n hn (hs.resolved n fun hold => hn (hc.removed hold))
  bad := by rw [hc.isRetired hbad, hs.bad]
  linked n m hn hm := by
    obtain ⟨-, k, hk, rfl⟩ := hc.mem_operands hm
    by_cases hgone : gone k
    · obtain ⟨hstay, hused⟩ := hmove n k hk hgone
      rw [hc.isRetired hstay, hused]
    · rw [hc.stays k hgone, hc.isRetired hgone]
      exact hs.linked n k hn hk
  arm n x side hn hx hop hused := by
    obtain ⟨hstay, hbefore⟩ := hc.used_before hused
    have hhead := hs.arm n x side hn hx hop hbefore
    rw [hc.operands_map hstay, List.head?_map, hhead]
    cases ht : x.operands.head? with
    | none => rfl
    | some t =>
      rw [ht] at hhead
      rw [Option.map_some, hc.stays t (hcond n x side t hn hx hop ht (List.mem_of_mem_head? hhead))]

/-- An exchange keeps the invariant, if the new node may stand where the old one stood. -/
theorem Sound.replace (hp : Premises g r) (hs : Sound g r s) {old new : NodeId} {y : Shape}
    (hrep : replace s old new = .ok s') (hy : s.draft.graph.shape? old = some y)
    (hkind : isReplaced y.op = true)
    (hnew : s.draft.graph.isRetired (s.standIns.resolve new) = false)
    (hstand : Tracked g r old → StandIn g r False s.draft.graph old (s.standIns.resolve new))
    (hedge : ∀ b k e, Persists g r b → Enters g r b k e → Continues g s.draft.graph e old →
      old ≠ s.standIns.resolve new → Continues g s'.draft.graph e (s.standIns.resolve new))
    (hrests : g.Live old → Rests g s.draft.graph old (s.standIns.resolve new)) :
    Sound g r s' := by
  by_cases hne : old = s.standIns.resolve new
  · obtain ⟨hgraph, hconstants, hresolve⟩ := replace_self hrep hne
    exact hs.congr hgraph hconstants hresolve
  obtain ⟨hx, hconstants, hstandIns⟩ := replace_eq_ok hrep
  generalize s.standIns.resolve new = m at *
  have hc := Contracts.of_exchange hs.faithful.mirrored hne hx
  have hbad : old ≠ Anchor.bad := by
    rintro rfl
    exact hs.not_anchor hp hy hkind rfl rfl
  have hfaithful : Faithful g r False (fun _ => True) (allPositions g) s'.draft.graph := by
    refine hs.faithful.exchange hx (hs.not_persists hy hkind) (hs.not_stays hy hkind) ?_ ?_ hstand
      ?_ ?_
    · rintro rfl
      exact hs.not_anchor hp hy hkind rfl rfl
    · exact not_constant_of_kind hy hkind
    · intro b e hb he htaken _ hcont
      obtain ⟨k, hk⟩ := List.mem_iff_getElem?.mp he
      exact hedge b k e hb ⟨hk, htaken⟩ hcont hne
    · intro n hn hrest
      have hdep := hs.depends hp hy hkind hrest
      exact Rests.trans hdep (hrests (hn.trans hdep))
  refine hs.contract hc hfaithful hconstants (fun n hn hself => ?_) ?_ hbad.symm ?_ ?_
  · have hgone : n ≠ old := by
      rintro rfl
      exact hn ⟨_, by rw [hc.retires n rfl, hy]; rfl, rfl⟩
    rw [hstandIns, Renaming.resolve_replace, hself, if_neg hgone]
  · rintro v n hconst rfl
    exact not_constant_of_kind hy hkind v hconst
  · rintro n k - rfl
    rw [if_pos rfl]
    exact ⟨fun heq => hne heq.symm, hnew⟩
  · rintro n x side t hn hnx hop ht - rfl
    obtain ⟨t', c, ht', hct, hcond⟩ := hp.arm n x side hn hnx hop
    rw [ht] at ht'
    cases ht'
    rcases (hs.faithful.keeps (Graph.shape?_eq hct) hy).op with hop | hop
    · rw [hop, Node.shape, hcond] at hkind
      cases hkind
    · rw [hop] at hkind
      cases hkind

/-! ### What stands in for a node -/

/-- What stands in for nodes in `s` is followed up in `s'`. -/
structure Forward (g : Graph) (r : Solution) (s s' : State) : Prop where
  standIn : ∀ o m, StandIn g r False s.draft.graph o (s.standIns.resolve m) →
    StandIn g r False s'.draft.graph o (s'.standIns.resolve m)
  used : ∀ m, s.draft.graph.isRetired (s.standIns.resolve m) = false →
    s'.draft.graph.isRetired (s'.standIns.resolve m) = false
  rests : ∀ n m, g.Live n → Rests g s.draft.graph n (s.standIns.resolve m) →
    Rests g s'.draft.graph n (s'.standIns.resolve m)
  removed : ∀ n, s.draft.graph.Removed n → s'.draft.graph.Removed n

theorem Forward.refl (s : State) : Forward g r s s :=
  ⟨fun _ _ h => h, fun _ h => h, fun _ _ _ h => h, fun _ h => h⟩

theorem Forward.trans {s₁ s₂ s₃ : State} (h₁ : Forward g r s₁ s₂) (h₂ : Forward g r s₂ s₃) :
    Forward g r s₁ s₃ where
  standIn o m h := h₂.standIn o m (h₁.standIn o m h)
  used m h := h₂.used m (h₁.used m h)
  rests n m hn h := h₂.rests n m hn (h₁.rests n m hn h)
  removed n h := h₂.removed n (h₁.removed n h)

theorem Forward.of_extends (he : Extends s.draft.graph s'.draft.graph)
    (hstandIns : s'.standIns = s.standIns) : Forward g r s s' where
  standIn o m h := by
    rw [hstandIns]
    exact he.standIn h
  used m h := by
    rw [hstandIns]
    exact he.inUse h
  rests n m _ h := by
    rw [hstandIns]
    exact he.rests h
  removed _ h := he.removed h

theorem Forward.replace (hp : Premises g r) (hs : Sound g r s) {old new : NodeId} {y : Shape}
    (hrep : Substitution.replace s old new = .ok s') (hy : s.draft.graph.shape? old = some y)
    (hkind : isReplaced y.op = true)
    (hnew : s.draft.graph.isRetired (s.standIns.resolve new) = false)
    (hstand : Tracked g r old → StandIn g r False s.draft.graph old (s.standIns.resolve new))
    (hrests : g.Live old → Rests g s.draft.graph old (s.standIns.resolve new)) :
    Forward g r s s' := by
  by_cases hne : old = s.standIns.resolve new
  · obtain ⟨hgraph, -, hresolve⟩ := replace_self hrep hne
    refine ⟨fun o n h => ?_, fun n h => ?_, fun k n _ h => ?_, fun n h => ?_⟩
    · rwa [hgraph, hresolve]
    · rwa [hgraph, hresolve]
    · rwa [hgraph, hresolve]
    · rwa [hgraph]
  obtain ⟨hx, -, hstandIns⟩ := replace_eq_ok hrep
  generalize s.standIns.resolve new = m at *
  have hc := Contracts.of_exchange hs.faithful.mirrored hne hx
  have hm : ¬ m = old := fun heq => hne heq.symm
  refine ⟨fun o n h => ?_, fun n h => ?_, fun k n hk h => ?_, fun n h => hc.removed h⟩
  · rw [hstandIns, Renaming.resolve_replace]
    refine hc.standIn (fun hgone o' ht hpres => ?_) h
    rw [if_pos hgone]
    rcases hpres.2 with heq | ⟨-, v, -, hconst⟩
    · obtain rfl : old = o' := hgone.symm.trans heq
      have := hc.standIn (fun hgone => absurd hgone hm) (hstand ht)
      rwa [if_neg hm] at this
    · rw [hgone] at hconst
      exact absurd hconst (not_constant_of_kind hy hkind v)
  · rw [hstandIns, Renaming.resolve_replace]
    split
    next => rw [hc.isRetired hm, hnew]
    next hn => rw [hc.isRetired hn, h]
  · rw [hstandIns, Renaming.resolve_replace]
    split
    next hn =>
      rw [hn] at h
      have hdep := hs.depends hp hy hkind h
      exact hc.rests hm (Rests.trans hdep (hrests (hk.trans hdep)))
    next hn => exact hc.rests hn h

/-! ### New nodes and removed ones -/

theorem Sound.addNode (hs : Sound g r s) {op : Op} {mode : Mode} {block : Option NodeId}
    {n : NodeId} {graph : Graph} (hadd : s.draft.graph.addNode op mode block [] = .ok (n, graph))
    (hop : (∃ v, op = .const v ∧ block = some Anchor.startBlock) ∨ op = .jump) :
    Sound g r { s with draft := { s.draft with graph } } := by
  have he := Extends.of_addNode hadd
  have hfaithful := hs.faithful.addNode hadd hop
  refine
    { faithful := hfaithful
      constant := fun v n hmem => he.isConstant (hs.constant v n hmem)
      resolved := fun n hn => hs.resolved n fun hold => hn (he.removed hold)
      bad := he.inUse hs.bad
      linked := fun n m hn hm => ?_
      arm := fun n x side hn hx hop hused => ?_ }
  · have hm : m ∈ graph.operands n := hm
    rw [Graph.operands_addNode hadd] at hm
    exact he.inUse (hs.linked n m hn hm)
  · obtain ⟨y, hy, -⟩ := hs.faithful.slot n _ (Graph.shape?_eq hx)
    have hsame := Graph.shape?_addNode_of_ne hadd (Graph.ne_of_addNode hadd hy)
    show (graph.operands n).head? = _
    rw [Graph.operands_addNode hadd]
    exact hs.arm n x side hn hx hop (Graph.isRetired_congr hsame ▸ hused)

theorem constantNode_eq_ok {v : Literal} {c : NodeId} (h : constantNode s v = .ok (c, s')) :
    s' = s ∧ (v, c) ∈ s.constants ∨
      ∃ graph, s.draft.graph.addNode (.const v) v.mode (some Anchor.startBlock) [] =
          .ok (c, graph) ∧
        s' = { s with draft := { s.draft with graph }, constants := (v, c) :: s.constants } := by
  unfold constantNode at h
  split at h
  next n hn =>
    cases h
    obtain ⟨l₁, l₂, hl, -⟩ := List.lookup_eq_some_iff.mp hn
    exact .inl ⟨rfl, by simp [hl]⟩
  next =>
    obtain ⟨⟨n, graph⟩, hadd, h⟩ := bind_eq_ok.mp h
    cases h
    exact .inr ⟨graph, hadd, rfl⟩

/-- The invariant with what is known of the jumps made and of the predecessors of blocks. -/
structure Steady (g : Graph) (r : Solution) (s : State) : Prop where
  sound : Sound g r s
  jumps : Jumps g r (allPositions g) s.draft.graph
  edges : Edges g r s.draft.graph

theorem Steady.constantNode (hs : Steady g r s) {v : Literal} {c : NodeId}
    (h : constantNode s v = .ok (c, s')) :
    Steady g r s' ∧ s'.draft.graph.IsConstant c v ∧ s'.standIns = s.standIns ∧
      Extends s.draft.graph s'.draft.graph := by
  rcases constantNode_eq_ok h with ⟨rfl, hmem⟩ | ⟨graph, hadd, rfl⟩
  · exact ⟨hs, hs.sound.constant v c hmem, rfl, fun n y hy => hy⟩
  · have he := Extends.of_addNode hadd
    have hadded := hs.sound.addNode hadd (.inl ⟨v, rfl, rfl⟩)
    have hconst : graph.IsConstant c v := isConstant_of_addNode hadd
    refine ⟨⟨{ hadded with constant := fun w n hmem => ?_ }, hs.jumps.addConstant hadd,
      hs.edges.addNode hs.sound.faithful.mirrored hadd⟩, hconst, rfl, he⟩
    rcases List.mem_cons.mp hmem with heq | hmem
    · cases heq
      exact hconst
    · exact he.isConstant (hs.sound.constant w n hmem)

/-- Only a node without users is removed. -/
theorem Steady.killUnused (hs : Steady g r s) {n : NodeId} (h : killUnused s n = .ok s')
    (hblock : ¬ Persists g r n) (hstop : n ≠ Anchor.stop) (hbad : n ≠ Anchor.bad)
    (hconst : ∀ v, ¬ s.draft.graph.IsConstant n v) : Steady g r s' := by
  obtain ⟨x, hx, h⟩ := bind_eq_ok.mp h
  split at h
  next hempty =>
    obtain ⟨d, hd, h⟩ := bind_eq_ok.mp h
    cases h
    have hk := Draft.edit_eq_ok hd
    have husers : s.draft.graph.users n = [] := by
      rw [Graph.users_eq (Graph.node_eq_ok hx)]
      exact List.isEmpty_iff.mp hempty
    have hunused : ∀ u, n ∉ s.draft.graph.operands u := by
      intro u hu
      have := hs.sound.faithful.mirrored.mem_users.mpr hu
      rw [husers] at this
      cases this
    have hc := Contracts.of_kill hs.sound.faithful.mirrored hk
    have hfaithful := hs.sound.faithful.kill hk hblock hstop husers
    refine ⟨?_, hs.jumps.kill hs.sound.faithful.mirrored hk hblock,
      hs.edges.kill hs.sound.faithful.mirrored hk⟩
    refine hs.sound.contract hc hfaithful rfl (fun m _ hself => hself) ?_ hbad.symm ?_ ?_
    · rintro v m hm rfl
      exact hconst v hm
    · rintro u m hm rfl
      exact absurd hm (hunused u)
    · rintro u x side m - - - - hm rfl
      exact hunused u hm
  next =>
    cases h
    exact hs

/-! ### Values -/

/-- Exchanging a value keeps the invariant, if the new node may stand where the old one stood. -/
theorem Steady.replaceValue (hp : Premises g r) (hs : Steady g r s) {old new : NodeId}
    {y : Shape} (hrep : Substitution.replace s old new = .ok s')
    (hy : s.draft.graph.shape? old = some y) (hkind : isReplaced y.op = true)
    (harm : ∀ side, y.op ≠ .proj (.arm side))
    (hnew : s.draft.graph.isRetired (s.standIns.resolve new) = false)
    (hstand : Tracked g r old → StandIn g r False s.draft.graph old (s.standIns.resolve new))
    (hrests : g.Live old → Rests g s.draft.graph old (s.standIns.resolve new)) :
    Steady g r s' ∧ Forward g r s s' := by
  refine ⟨⟨hs.sound.replace hp hrep hy hkind hnew hstand (fun b k e hb hk hcont _ => ?_) hrests,
    ?_, ?_⟩, .replace hp hs.sound hrep hy hkind hnew hstand hrests⟩
  · obtain ⟨z, t, hz, -, -, -, hop⟩ := hcont.exit hp.built hp.describes hs.sound.faithful hb hk
    rw [hy] at hz
    cases hz
    rcases hop with hop | hop | ⟨side, hop⟩
    · rw [hop] at hkind
      cases hkind
    · rw [hop] at hkind
      cases hkind
    · exact absurd hop (harm side)
  · exact hs.jumps.exchange hs.sound.faithful.mirrored (replace_eq_ok hrep).1
      (hs.sound.not_persists hy hkind)
  · refine hs.edges.exchange hp hs.sound.faithful (replace_eq_ok hrep).1 hy (.inr ?_)
    refine ⟨?_, ?_, ?_, harm, ?_⟩ <;> intro hop <;> rw [hop] at hkind <;> cases hkind

/-- A value the facts know is exchanged with a constant. -/
theorem Steady.replaceByConstant (hp : Premises g r) (hs : Steady g r s) {n c : NodeId}
    {v : Literal} {s₁ : State} {y : Shape} (hc : Substitution.constantNode s v = .ok (c, s₁))
    (hrep : Substitution.replace s₁ n c = .ok s') (hy : s.draft.graph.shape? n = some y)
    (hkind : isReplaced y.op = true) (harm : ∀ side, y.op ≠ .proj (.arm side))
    (hv : Tracked g r n → r.constant? n = some v) : Steady g r s' ∧ Forward g r s s' := by
  obtain ⟨hs₁, hconst, hstandIns, he⟩ := hs.constantNode hc
  have hself : s₁.standIns.resolve c = c :=
    hs₁.sound.resolved c (Graph.not_removed hconst.inUse)
  obtain ⟨hs', hforward⟩ := hs₁.replaceValue hp hrep (he n y hy) hkind harm
    (by rw [hself]; exact hconst.inUse)
    (fun ht => ⟨n, .refl, fun _ => by
      rw [hself]
      exact ⟨hconst.inUse, .inr ⟨hs.sound.not_division hy hkind, v, hv ht, hconst⟩⟩⟩)
    (fun _ => by
      rw [hself]
      exact .inr (.inl ⟨v, hconst⟩))
  exact ⟨hs', (Forward.of_extends he hstandIns).trans hforward⟩

theorem Steady.fold (hp : Premises g r) (hs : Steady g r s) {pass : String} {n : NodeId}
    {x : Node} (h : fold r pass s n x = .ok s') (hx : s.draft.graph.nodes[n]? = some x)
    (hkind : isReplaced x.op = true) (harm : ∀ side, x.op ≠ .proj (.arm side)) :
    Steady g r s' := by
  unfold Substitution.fold at h
  split at h
  next =>
    split at h
    next =>
      cases h
      exact hs
    next v hv =>
      obtain ⟨⟨c, s₁⟩, hc, h⟩ := bind_eq_ok.mp h
      obtain ⟨s₂, hrep, h⟩ := bind_eq_ok.mp h
      cases h
      obtain ⟨hs₂, -⟩ := hs.replaceByConstant hp hc hrep (Graph.shape?_eq hx) hkind harm
        fun _ => hv
      exact ⟨hs₂.sound.congr rfl rfl rfl, hs₂.jumps, hs₂.edges⟩
  next =>
    cases h
    exact hs

/-! ### Divisions -/

/-- Nothing but the memory state of a division leads on while facts are substituted. -/
theorem eq_of_yields {o o' : NodeId} {x : Node} (hx : g.nodes[o]? = some x)
    (hop : x.op ≠ .proj .memory) (hpath : Relation.ReflTransGen (Yields g r False) o o') :
    o' = o := by
  rcases hpath.cases_head with rfl | ⟨m, hstep, -⟩
  · rfl
  · rcases hstep with ⟨y, t, z, v, hy, hmem, -⟩ | ⟨hfalse, -⟩
    · rw [hx] at hy
      cases hy
      exact absurd hmem hop
    · exact hfalse.elim

/-- A projection that uses a division hung off it from the beginning. -/
theorem Sound.hangs (hs : Sound g r s) {p t : NodeId} {x y : Node} (ht : Tracked g r p)
    (hx : g.nodes[p]? = some x) (hkind : x.op = .proj .memory ∨ x.op = .proj .result)
    (hused : s.draft.graph.isRetired p = false) (hmem : t ∈ s.draft.graph.operands p)
    (hy : s.draft.graph.nodes[t]? = some y) (hdiv : y.op.isDivision = true) :
    x.operands = [t] ∧ Tracked g r t := by
  cases ht with
  | node hstand hnomem hnores =>
    rw [hstand.slot] at hx
    cases hx
    rcases hkind with hop | hop
    · exact absurd hop hnomem
    · exact absurd hop hnores
  | @projection _ t' z w hstand hop hops hw hwop ht' hconst =>
    rw [hstand.slot] at hx
    cases hx
    obtain ⟨c, hc, hcop⟩ := Graph.isRetired_eq_false_iff.mp hused
    have hphi : x.op ≠ .phi := by
      rcases hop with hop | hop <;> simp [hop]
    have hall := hs.faithful.node p x c (.inl (.projection hstand hop hops hw hwop ht' hconst))
      hstand.slot hphi hc hcop
    rw [hops] at hall
    obtain ⟨m, l, hm, hnil, hcons⟩ := List.forall₂_cons_left_iff.mp hall
    rw [List.forall₂_nil_left_iff.mp hnil] at hcons
    rw [Graph.operands_eq_of_shape hc, hcons] at hmem
    obtain rfl := List.mem_singleton.mp hmem
    obtain ⟨o, hpath, hend⟩ := hm
    obtain rfl := eq_of_yields hw hwop hpath
    rcases (hend ht').2 with rfl | ⟨-, v, -, a, ha, haop, -⟩
    · exact ⟨hops, ht'⟩
    · rw [Graph.shape?_eq hy] at ha
      cases ha
      rw [show y.op = .const v from haop] at hdiv
      cases hdiv

/-- What is known of a division while its users are replaced. -/
structure Bypassing (g : Graph) (r : Solution) (v : Literal) (mem t : NodeId) (s : State) :
    Prop where
  steady : Steady g r s
  division : ∃ y, g.nodes[t]? = some y ∧ y.op.isDivision = true ∧
    (Tracked g r t → ∃ m, y.operands.head? = some m ∧
      StandIn g r False s.draft.graph m (s.standIns.resolve mem))
  constant : r.constant? t = some v
  used : s.draft.graph.isRetired (s.standIns.resolve mem) = false
  rests : Rests g s.draft.graph t (s.standIns.resolve mem)

theorem Bypassing.forward {v : Literal} {mem t : NodeId} (hb : Bypassing g r v mem t s)
    (ht : g.Live t) (hs' : Steady g r s') (hf : Forward g r s s') :
    Bypassing g r v mem t s' := by
  obtain ⟨y, hy, hdiv, hstand⟩ := hb.division
  refine ⟨hs', ⟨y, hy, hdiv, fun htrack => ?_⟩, hb.constant, hf.used mem hb.used,
    hf.rests t mem ht hb.rests⟩
  obtain ⟨m, hm, hs⟩ := hstand htrack
  exact ⟨m, hm, hf.standIn m mem hs⟩

/-- Replacing one user of a division: its memory state by the state it consumed, its result by a
constant. -/
theorem Bypassing.bypass (hp : Premises g r) {v : Literal} {mem t p : NodeId}
    (hb : Bypassing g r v mem t s) (h : bypass v mem s p = .ok s')
    (hhangs : ∀ x, Tracked g r p → g.nodes[p]? = some x →
      x.op = .proj .memory ∨ x.op = .proj .result → s.draft.graph.isRetired p = false →
      x.operands = [t] ∧ Tracked g r t)
    (hdep : g.Live p → s.draft.graph.isRetired p = false → Relation.TransGen g.Needs p t) :
    Steady g r s' ∧ Forward g r s s' := by
  obtain ⟨x, hx, h⟩ := bind_eq_ok.mp h
  have hx := Graph.node_eq_ok hx
  have hshape := Graph.shape?_eq hx
  obtain ⟨y, hy, hdiv, hstand⟩ := hb.division
  have horigin : Tracked g r p → x.op ≠ .retired → ∃ z, g.nodes[p]? = some z ∧ z.op = x.op ∧
      z.mode = x.mode := by
    intro ht hop
    obtain ⟨z, hz⟩ := ht.standing
    obtain ⟨hkind, hmode, -⟩ := hb.steady.sound.faithful.same hz.slot hx hop
    exact ⟨z, hz.slot, hkind.symm, hmode.symm⟩
  split at h
  next hop =>
    have hpused : s.draft.graph.isRetired p = false :=
      Graph.isRetired_eq_false.mpr ⟨x, hx, by simp [hop]⟩
    refine hb.steady.replaceValue hp h hshape (by simp [Node.shape, hop, isReplaced])
      (fun side => by simp [Node.shape, hop]) hb.used (fun ht => ?_)
      (fun hlive => Rests.trans (hdep hlive hpused) hb.rests)
    obtain ⟨z, hz, hzop, -⟩ := horigin ht (by simp [hop])
    obtain ⟨hops, htt⟩ := hhangs z ht hz (.inl (hzop.trans hop)) hpused
    obtain ⟨m, hm, hs⟩ := hstand htt
    refine hs.trans (.single (.inl ?_))
    exact ⟨z, t, y, v, hz, hzop.trans hop, hops, hy, hdiv, hb.constant, hm⟩
  next hop =>
    obtain ⟨⟨c, s₁⟩, hc, h⟩ := bind_eq_ok.mp h
    refine hb.steady.replaceByConstant hp hc h hshape (by simp [Node.shape, hop, isReplaced])
      (fun side => by simp [Node.shape, hop]) fun ht => ?_
    obtain ⟨z, hz, hzop, hmode⟩ := horigin ht (by simp [hop])
    have hused : s.draft.graph.isRetired p = false :=
      Graph.isRetired_eq_false_iff.mpr ⟨_, hshape, by simp [Node.shape, hop]⟩
    obtain ⟨hops, -⟩ := hhangs z ht hz (.inr (hzop.trans hop)) hused
    cases ht with
    | node hstand hnomem hnores =>
      rw [hstand.slot] at hz
      cases hz
      exact absurd (hzop.trans hop) hnores
    | projection hstand hop' hops' hw hwop ht' hconst =>
      rw [hstand.slot] at hz
      cases hz
      rw [hops] at hops'
      cases hops'
      rw [hy] at hw
      cases hw
      rw [hconst (hzop.trans hop) hdiv v hb.constant, hmode]
  next =>
    cases h
    exact ⟨hb.steady, .refl s⟩

/-- What is said of a node of the graph the pass began with that is no block, anchor or
constant. -/
theorem Steady.ordinary (hp : Premises g r) (hs : Steady g r s) {n : NodeId} {x : Node}
    (hx : g.nodes[n]? = some x) (hkind : x.op.isDivision = true ∨ x.op = .cond) :
    ¬ Persists g r n ∧ n ≠ Anchor.stop ∧ n ≠ Anchor.bad ∧
      ∀ v, ¬ s.draft.graph.IsConstant n v := by
  have hanchor : ∀ z, (Graph.new "" 0).shape? n = some z → z.op = .stop ∨ z.op = .bad →
      False := by
    intro z hz hzop
    obtain ⟨w, hw, hkeep⟩ := hp.built.keeps_anchor hz
    rw [Graph.shape?_eq hx] at hw
    cases hw
    rcases hkeep.op with hop | hop
    · rw [show x.op = z.op from hop] at hkind
      rcases hzop with hzop | hzop <;> simp [hzop, Op.isDivision] at hkind
    · rw [show x.op = .retired from hop] at hkind
      simp [Op.isDivision] at hkind
  refine ⟨fun hn => ?_, ?_, ?_, ?_⟩
  · obtain ⟨z, hz, hop⟩ := hn.isBlock hp.built hp.describes
    rw [hx] at hz
    cases hz
    simp [hop, Op.isDivision] at hkind
  · rintro rfl
    exact hanchor _ rfl (.inl rfl)
  · rintro rfl
    exact hanchor _ rfl (.inr rfl)
  · rintro v ⟨z, hz, hop, -⟩
    rcases (hs.sound.faithful.keeps (Graph.shape?_eq hx) hz).op with hop' | hop'
    · rw [hop] at hop'
      rw [← show Op.const v = x.op from hop'] at hkind
      simp [Op.isDivision] at hkind
    · rw [hop] at hop'
      cases hop'

/-- What was removed stays so, hence a node of the graph the pass began with that is in use has been
so all along. -/
theorem Forward.used_before (hf : Forward g r s s') (hp : Premises g r) (hs : Sound g r s)
    {n : NodeId} (hn : g.Live n) (hused : s'.draft.graph.isRetired n = false) :
    s.draft.graph.isRetired n = false := by
  obtain ⟨y, hy, -⟩ := Graph.isRetired_eq_false.mp (hp.describes.used n hn)
  obtain ⟨w, hw, -⟩ := hs.faithful.slot n _ (Graph.shape?_eq hy)
  refine Graph.isRetired_eq_false_iff.mpr ⟨w, hw, fun hop => ?_⟩
  exact absurd (hf.removed n ⟨w, hw, hop⟩) (Graph.not_removed hused)

/-- Before any of its users is replaced, a division has the operand it consumes its memory state
from. -/
theorem Steady.bypassing (hs : Steady g r s) {v : Literal} {mem t : NodeId} {x z : Node}
    (ht : g.Live t) (hx : s.draft.graph.nodes[t]? = some x) (hz : g.nodes[t]? = some z)
    (hdiv : x.op.isDivision = true) (hzdiv : z.op.isDivision = true)
    (hv : r.constant? t = some v) (hhead : x.operands.head? = some mem) :
    Bypassing g r v mem t s := by
  have hused : x.op ≠ .retired := by
    intro hop
    rw [hop] at hdiv
    cases hdiv
  have hmem : mem ∈ s.draft.graph.operands t := by
    rw [Graph.operands_eq hx]
    exact List.mem_of_mem_head? hhead
  have hmemused := hs.sound.linked t mem ht hmem
  have hself : s.standIns.resolve mem = mem :=
    hs.sound.resolved mem (Graph.not_removed hmemused)
  refine ⟨hs, ⟨z, hz, hzdiv, fun htrack => ?_⟩, hv, by rwa [hself], ?_⟩
  · have hphi : z.op ≠ .phi := by
      intro hphi
      rw [hphi] at hzdiv
      cases hzdiv
    have hall : List.Forall₂ _ z.operands x.operands :=
      hs.sound.faithful.node t z x.shape (.inl htrack) hz hphi (Graph.shape?_eq hx) hused
    cases hops : x.operands with
    | nil =>
      rw [hops] at hhead
      cases hhead
    | cons m l =>
      rw [hops] at hhead hall
      cases hhead
      obtain ⟨o, l', ho, -, hcons⟩ := List.forall₂_cons_right_iff.mp hall
      exact ⟨o, by rw [hcons]; rfl, by rwa [hself]⟩
  · rw [hself]
    exact hs.sound.faithful.rests t mem ht (Graph.isRetired_eq_false.mpr ⟨x, hx, hused⟩) hmem

theorem Steady.splice (hp : Premises g r) (hs : Steady g r s) {pass : String} {t : NodeId}
    {x : Node} (ht : g.Live t) (h : splice r pass s t x = .ok s')
    (hx : s.draft.graph.nodes[t]? = some x) (hdiv : x.op.isDivision = true) :
    Steady g r s' := by
  unfold Substitution.splice at h
  split at h
  next v mem hv hhead =>
    obtain ⟨s₁, hloop, h⟩ := bind_eq_ok.mp h
    obtain ⟨s₂, hkill, h⟩ := bind_eq_ok.mp h
    cases h
    obtain ⟨z, hz, -⟩ := Graph.isRetired_eq_false.mp (hp.describes.used t ht)
    have hzdiv : z.op.isDivision = true := by
      rw [← (hs.sound.faithful.same hz hx ?_).1, hdiv]
      intro hop
      rw [hop] at hdiv
      cases hdiv
    obtain ⟨-, -, hbad, -⟩ := hs.ordinary hp hz (.inl hzdiv)
    have hend : Bypassing g r v mem t s₁ ∧ Forward g r s s₁ := by
      refine foldlM_eq_ok (I := fun _ s₁ => Bypassing g r v mem t s₁ ∧ Forward g r s s₁) hloop
        ⟨hs.bypassing ht hx hz hdiv hzdiv hv hhead, .refl s⟩
        fun done p rest u u' hsplit hu hturn => ?_
      obtain ⟨hu, hforward⟩ := hu
      have huse : t ∈ s.draft.graph.operands p := by
        rw [← hs.sound.faithful.mirrored.mem_users, Graph.users_eq hx, hsplit]
        simp
      have hdep : g.Live p → u.draft.graph.isRetired p = false →
          Relation.TransGen g.Needs p t := by
        intro hlive hpused
        refine depends_of_rests (Graph.shape?_eq hx) (fun w hw => ?_) (fun hw => ?_) hbad
          (hs.sound.faithful.rests p t hlive (hforward.used_before hp hs.sound hlive hpused) huse)
        · rw [show x.op = .const w from hw] at hdiv
          cases hdiv
        · rw [show x.op = .jump from hw] at hdiv
          cases hdiv
      obtain ⟨hu', hstep⟩ := hu.bypass hp hturn (fun y htrack hy hkind hpused => by
        obtain ⟨z, hstands⟩ := htrack.standing
        exact hs.sound.hangs htrack hy hkind
          (hforward.used_before hp hs.sound hstands.live hpused) huse hx hdiv) hdep
      exact ⟨hu.forward ht hu' hstep, hforward.trans hstep⟩
    obtain ⟨hblock, hstop, hbad, hconst⟩ := hend.1.steady.ordinary hp hz (.inl hzdiv)
    have hs₂ := hend.1.steady.killUnused hkill hblock hstop hbad hconst
    exact ⟨hs₂.sound.congr rfl rfl rfl, hs₂.jumps, hs₂.edges⟩
  next =>
    cases h
    exact hs

/-! ### Branches -/

/-- An arm in use is of a kind that is exchanged. -/
theorem Sound.isReplaced_arm (hs : Sound g r s) {n : NodeId} {x : Node} {side : Bool}
    (hx : g.nodes[n]? = some x) (hop : x.op = .proj (.arm side))
    (hused : s.draft.graph.isRetired n = false) :
    ∃ y, s.draft.graph.shape? n = some y ∧ isReplaced y.op = true := by
  obtain ⟨y, hy, hyop⟩ := Graph.isRetired_eq_false_iff.mp hused
  refine ⟨y, hy, ?_⟩
  rw [((hs.faithful.keeps (Graph.shape?_eq hx) hy).op.resolve_right hyop).trans hop]
  rfl

/-- No value is read off an arm. -/
theorem not_tracked_arm {n : NodeId} {x : Node} {side : Bool} (hx : g.nodes[n]? = some x)
    (hop : x.op = .proj (.arm side)) : ¬ Tracked g r n := by
  intro ht
  obtain ⟨z, hz⟩ := ht.standing
  rw [hz.slot] at hx
  cases hx
  exact hz.kind.2.2 side hop

/-- Control that passes an arm of a branch on a constant was let into that side. -/
theorem toBool?_of_enters (hp : Premises g r) {c n t : NodeId} {k : Nat} {x : Node} {side : Bool}
    {v : Literal} (hc : Persists g r c) (hk : Enters g r c k n) (hx : g.nodes[n]? = some x)
    (hop : x.op = .proj (.arm side)) (ht : x.operands.head? = some t)
    (hv : r.constant? t = some v) : v.toBool? = none ∨ v.toBool? = some side := by
  obtain ⟨-, u, ⟨z, hz, -, hpass⟩, -⟩ := hk.source hp.built hp.describes hc
  rw [hx] at hz
  cases hz
  have hvalue : r.assignment.operand x 0 = .constant v := by
    have hzero : x.operands[0]? = some t := by rwa [← List.head?_eq_getElem?]
    rw [Assignment.operand, hzero]
    obtain ⟨a, ha, hconst⟩ := Option.bind_eq_some_iff.mp hv
    show (r.value? t).getD .varying = _
    rw [ha]
    cases a <;> simp_all [Fact.constant?]
  rcases hpass with hpass | hpass | ⟨side', hpass, hadmits⟩
  · rw [hop] at hpass
    cases hpass
  · rw [hop] at hpass
    cases hpass
  · rw [hop] at hpass
    cases hpass
    rw [hvalue] at hadmits
    exact hadmits

/-- An arm chosen for certain becomes a jump. -/
theorem Steady.jump (hp : Premises g r) (hs : Steady g r s) {n j b : NodeId} {x : Node}
    {graph : Graph} (hn : g.Live n) (hx : g.nodes[n]? = some x) (hsel : Selected r x)
    (hused : s.draft.graph.isRetired n = false) (hblock : x.block = some b)
    (hadd : s.draft.graph.addNode .jump .control (some b) [] = .ok (j, graph))
    (hrep : Substitution.replace { s with draft := { s.draft with graph } } n j = .ok s') :
    Steady g r s' := by
  have hs₁ := hs.sound.addNode hadd (.inr rfl)
  have hjused : graph.isRetired j = false :=
    Graph.isRetired_eq_false_iff.mpr ⟨_, Graph.shape?_addNode_self hadd, by simp⟩
  have hself : s.standIns.resolve j = j := hs₁.resolved j (Graph.not_removed hjused)
  have hexchange : graph.exchange n j = .ok s'.draft.graph := by
    obtain ⟨hexchange, -, -⟩ := replace_eq_ok hrep
    rw [← hself]
    exact hexchange
  have hsup : Supplanting g r s.draft.graph graph s'.draft.graph n j b x :=
    ⟨hx, hsel, hused, hblock, hadd, hexchange⟩
  obtain ⟨side, t, v, hop, -⟩ := id hsel
  obtain ⟨y, hy, hkind⟩ := hs₁.isReplaced_arm hx hop ((Extends.of_addNode hadd).inUse hused)
  have hpersists := hs₁.not_persists hy hkind
  have hbad : n ≠ Anchor.bad := by
    rintro rfl
    exact hs₁.not_anchor hp hy hkind rfl rfl
  refine ⟨hs₁.replace hp hrep hy hkind ?_ (fun htrack => ?_) (fun c k e _ _ hcont _ => ?_)
    fun _ => ?_, hsup.jumps hs.sound.faithful hs.jumps hn hpersists,
    hsup.edges hs.sound.faithful hs.edges hbad⟩
  · show graph.isRetired (s.standIns.resolve j) = false
    rw [hself]
    exact hjused
  · exact absurd htrack (not_tracked_arm hx hop)
  · show Continues g s'.draft.graph e (s.standIns.resolve j)
    rw [hself]
    exact hsup.continues hs.sound.faithful hp.built hcont
  · show Rests g graph n (s.standIns.resolve j)
    rw [hself]
    have hin : b ∈ g.inputs n := by
      rw [Graph.inputs_eq hx, Node.inputs, hblock]
      exact List.mem_append_left _ (List.mem_singleton_self _)
    exact .inr (.inr (.inr ⟨_, b, hsup.size_le hs.sound.faithful, hsup.shape, rfl, rfl,
      .single ⟨hin, hp.describes.inUse n b hn hin⟩⟩))

/-- An arm that is never chosen becomes dead control. -/
theorem Steady.bury (hp : Premises g r) (hs : Steady g r s) {n t : NodeId} {x : Node}
    {side : Bool} {v : Literal} (hx : g.nodes[n]? = some x) (hop : x.op = .proj (.arm side))
    (hused : s.draft.graph.isRetired n = false) (ht : x.operands.head? = some t)
    (hv : r.constant? t = some v) (hside : v.toBool? = some (!side))
    (hrep : Substitution.replace s n Anchor.bad = .ok s') : Steady g r s' := by
  have hself : s.standIns.resolve Anchor.bad = Anchor.bad :=
    hs.sound.resolved _ (Graph.not_removed hs.sound.bad)
  obtain ⟨y, hy, hkind⟩ := hs.sound.isReplaced_arm hx hop hused
  refine ⟨hs.sound.replace hp hrep hy hkind (by rw [hself]; exact hs.sound.bad)
    (fun htrack => ?_) ?_ fun _ => ?_, ?_,
    hs.edges.exchange hp hs.sound.faithful (replace_eq_ok hrep).1 hy (.inl hself)⟩
  · exact absurd htrack (not_tracked_arm hx hop)
  · rintro c k e hc hk ⟨-, -, rfl | ⟨hsize, -⟩⟩ -
    · -- The edge is taken, so its branch lets control into this side.
      rcases toBool?_of_enters hp hc hk hx hop ht hv with hnone | hsome
      · rw [hside] at hnone
        cases hnone
      · rw [hside] at hsome
        cases side <;> cases hsome
    · exact absurd hsize (Nat.not_le_of_lt (Graph.lt_size_of_getElem? hx))
  · rw [hself]
    exact .inr (.inr (.inl rfl))
  · exact hs.jumps.exchange hs.sound.faithful.mirrored (replace_eq_ok hrep).1
      (hs.sound.not_persists hy hkind)

theorem Steady.foldArm (hp : Premises g r) (hs : Steady g r s) {pass : String} {n : NodeId}
    {x : Node} {side : Bool} (hn : g.Live n) (h : foldArm r pass s n x side = .ok s')
    (hx : s.draft.graph.nodes[n]? = some x) (hop : x.op = .proj (.arm side)) :
    Steady g r s' := by
  obtain ⟨z, hz, -⟩ := Graph.isRetired_eq_false.mp (hp.describes.used n hn)
  obtain ⟨hkind, -, hblock⟩ := hs.sound.faithful.same hz hx (by simp [hop])
  have hzop : z.op = .proj (.arm side) := hkind.symm.trans hop
  have hused : s.draft.graph.isRetired n = false :=
    Graph.isRetired_eq_false.mpr ⟨x, hx, by simp [hop]⟩
  have hhead := hs.sound.arm n z side hn hz hzop hused
  rw [Graph.operands_eq hx] at hhead
  obtain ⟨t, c, ht, hct, hcond⟩ := hp.arm n z side hn hz hzop
  unfold Substitution.foldArm at h
  rw [hhead, ht] at h
  dsimp only at h
  split at h
  next selected b hsel hb =>
    obtain ⟨v, hv, hbool⟩ := Option.bind_eq_some_iff.mp hsel
    split at h
    next hside =>
      subst hside
      obtain ⟨⟨j, graph⟩, hadd, h⟩ := bind_eq_ok.mp h
      obtain ⟨s₁, hrep, h⟩ := bind_eq_ok.mp h
      have hs₁ := hs.jump hp hn hz ⟨selected, t, v, hzop, ht, hv, hbool⟩ hused
        (hblock.symm.trans hb) hadd hrep
      obtain ⟨hkeep, hstop, hbad, hconst⟩ := hs₁.ordinary hp hct (.inr hcond)
      refine Steady.killUnused ?_ h hkeep hstop hbad hconst
      exact ⟨hs₁.sound.congr rfl rfl rfl, hs₁.jumps, hs₁.edges⟩
    next hside =>
      obtain ⟨s₁, hrep, h⟩ := bind_eq_ok.mp h
      have hs₁ := hs.bury hp hz hzop hused ht hv
        (by rw [hbool]; cases selected <;> cases side <;> simp_all) hrep
      obtain ⟨hkeep, hstop, hbad, hconst⟩ := hs₁.ordinary hp hct (.inr hcond)
      exact hs₁.killUnused h hkeep hstop hbad hconst
  next =>
    cases h
    exact hs

/-! ### The pass -/

/-- One visit keeps the invariant. -/
theorem Steady.visit (hp : Premises g r) (hs : Steady g r s) {pass : String} {n : NodeId}
    (hn : g.Live n) (h : visit r pass s n = .ok s') : Steady g r s' := by
  obtain ⟨x, hx, h⟩ := bind_eq_ok.mp h
  have hx := Graph.node_eq_ok hx
  cases hop : x.op with
  | proj k =>
    cases k with
    | arm side =>
      simp only [hop] at h
      exact hs.foldArm hp hn h hx hop
    | _ =>
      simp only [hop] at h
      cases h
      exact hs
  | div =>
    simp only [hop] at h
    exact hs.splice hp hn h hx (by simp [hop, Op.isDivision])
  | mod =>
    simp only [hop] at h
    exact hs.splice hp hn h hx (by simp [hop, Op.isDivision])
  | phi | binary | cmp | minus | not | conv =>
    simp only [hop] at h
    exact hs.fold hp h hx (by simp [hop, isReplaced]) (by simp [hop])
  | _ =>
    simp only [hop] at h
    cases h
    exact hs

theorem mem_knownConstants {v : Literal} {n : NodeId} (h : (v, n) ∈ knownConstants g) :
    g.IsConstant n v := by
  rw [knownConstants, List.mem_reverse, List.mem_filterMap] at h
  obtain ⟨⟨x, i⟩, hmem, h⟩ := h
  have hx : g.nodes[i]? = some x := by
    rw [List.mem_zipIdx_iff_getElem?, Array.getElem?_toList] at hmem
    exact hmem
  dsimp only at h
  split at h
  next w hop =>
    split at h
    next hblock =>
      cases h
      exact ⟨_, Graph.shape?_eq hx, hop, hblock⟩
    next => cases h
  next => cases h

/-- The pass begins with the graph it was given. -/
theorem Steady.ofDraft (hp : Premises g r) {d : Draft} (hd : d.graph = g) :
    Steady g r (.ofDraft d) := by
  subst hd
  have hr := hp.describes
  refine ⟨?_, .start, .start⟩
  exact
    { faithful := .start hp
      constant := fun v n hmem => mem_knownConstants hmem
      resolved := fun n _ => rfl
      bad := hr.used _ ⟨Anchor.bad, by simp, .refl⟩
      linked := fun n m hn hm => by
        obtain ⟨x, hx, -⟩ := Graph.isRetired_eq_false.mp (hr.used n hn)
        have hm : m ∈ d.graph.operands n := hm
        rw [Graph.operands_eq hx] at hm
        exact hr.used m (hr.operands_live hn hx m hm)
      arm := fun n x side _ hx _ _ => by
        show (d.graph.operands n).head? = _
        rw [Graph.operands_eq hx] }

/-- Substituting the facts keeps what is tracked. -/
theorem run_eq_ok (hp : Premises g r) {pass : String} {d d' : Draft} {c : Counts}
    (hd : d.graph = g) (h : run r pass d = .ok c d') :
    Faithful g r False (fun _ => True) (allPositions g) d'.graph ∧
      Jumps g r (allPositions g) d'.graph ∧ Edges g r d'.graph := by
  have h := Editing.change_eq_ok h
  obtain ⟨walk, hwalk, h⟩ := bind_eq_ok.mp h
  obtain ⟨s, hloop, h⟩ := bind_eq_ok.mp h
  cases h
  have hcomplete := Walk.complete_of_run hwalk
  have hend := foldlM_eq_ok (I := fun _ s => Steady g r s) hloop (.ofDraft hp hd)
    fun done n rest u u' hsplit hu hturn => by
      have hn : n ∈ walk.order := by
        rw [hsplit]
        simp
      exact hu.visit hp (hd ▸ (hcomplete.mem_order n).mp hn) hturn
  exact ⟨hend.sound.faithful, hend.jumps, hend.edges⟩

end Substitution

end SeaOfNodes
