import SeaOfNodes.Proofs.Cycles
import SeaOfNodes.Proofs.Image
import SeaOfNodes.Proofs.Substituting

/-!
Substituting facts makes an image of the graph.

The stand-ins of a state are the renaming (`Substitution.Mapped`). A node is exchanged with one that
was made for it, or it is the memory state of a division and is exchanged with what stands in for
the state that the division consumed (`Substitution.Hands`). Every node whose fact asks for it is
replaced when it is visited (`Substitution.Settled`).
-/

namespace SeaOfNodes

namespace Substitution

open Rewriting Image

variable (g : Graph) (r : Solution)

/-- The memory state `p` of a division with a constant result is the state `m` it consumed. -/
def Hands (p m : NodeId) : Prop :=
  ∃ d x v, g.Live p ∧ g.shape? p = some x ∧ x.op = .proj .memory ∧ Quotient g r d v ∧
    (Apart g → d ∈ x.operands) ∧ (g.operands d).head? = some m

/-- A node that may stand in for nodes of another kind: a new one, a constant, or dead control. -/
def Made (m : NodeId) : Prop := g.size ≤ m ∨ (∃ v, g.IsConstant m v) ∨ m = Anchor.bad

/-- What holds between two visits. -/
structure Mapped (s : State) : Prop where
  image : Image g r s.standIns.resolve (allPositions g) (Scope g) s.draft.graph
  constant : ∀ v n, (v, n) ∈ s.constants → s.draft.graph.IsConstant n v
  kept : ∀ n x, g.shape? n = some x → isReplaced x.op = false → s.standIns.resolve n = n
  spliced : ∀ n, g.Live n →
    Relation.ReflTransGen (Hands g r) n (s.standIns.resolve n) ∨ Made g (s.standIns.resolve n)

/-- What stands in for `m` may be put in the place of a node. -/
def Usable (s : State) (m : NodeId) : Prop :=
  Scope g (s.standIns.resolve m) ∧ s.draft.graph.isRetired (s.standIns.resolve m) = false

/-- Nothing that `s` relies on is lost on the way to `s'`. -/
structure Onward (s s' : State) : Prop where
  descends : Descends s.draft.graph s'.draft.graph
  usable : ∀ m, Usable g s m → Usable g s' m
  congr : ∀ m m', s.standIns.resolve m = s.standIns.resolve m' →
    s'.standIns.resolve m = s'.standIns.resolve m'
  division : ∀ d x, g.shape? d = some x → x.op.isDivision = true →
    s.draft.graph.isRetired d = false → s'.draft.graph.isRetired d = false

/-- The fact about `n` was substituted. -/
structure Settled (h : Graph) (n : NodeId) : Prop where
  value : ∀ x v, g.shape? n = some x → x.op.isFolded = true → x.mode.isFoldable = true →
    r.constant? n = some v → h.Removed n
  arm : ∀ x side t v, g.shape? n = some x → x.op = .proj (.arm side) →
    x.operands.head? = some t → r.constant? t = some v → v.toBool? ≠ none → h.Removed n
  /-- The memory state and the result of a division. -/
  division : Apart g → ∀ x v m, g.shape? n = some x → x.op.isDivision = true →
    r.constant? n = some v → x.operands.head? = some m → ∀ p y, g.Live p → g.shape? p = some y →
    y.op = .proj .memory ∨ y.op = .proj .result → n ∈ y.operands → h.Removed p

variable {g r} {s s' : State}

theorem Onward.refl (s : State) : Onward g s s :=
  ⟨.refl _, fun _ h => h, fun _ _ h => h, fun _ _ _ _ h => h⟩

theorem Onward.trans {s₁ s₂ s₃ : State} (h₁ : Onward g s₁ s₂) (h₂ : Onward g s₂ s₃) :
    Onward g s₁ s₃ where
  descends := h₁.descends.trans h₂.descends
  usable m h := h₂.usable m (h₁.usable m h)
  congr m m' h := h₂.congr m m' (h₁.congr m m' h)
  division d x hx hop h := h₂.division d x hx hop (h₁.division d x hx hop h)

/-- The invariant is about the graph, the table of constants and the stand-ins. -/
theorem Mapped.congr (hs : Mapped g r s) (hgraph : s'.draft.graph = s.draft.graph)
    (hconstants : s'.constants = s.constants)
    (hresolve : s'.standIns.resolve = s.standIns.resolve) : Mapped g r s' where
  image := by
    rw [hgraph, hresolve]
    exact hs.image
  constant v n hmem := hgraph ▸ hs.constant v n (hconstants ▸ hmem)
  kept := hresolve ▸ hs.kept
  spliced := hresolve ▸ hs.spliced

theorem Onward.congr_of_eq (hgraph : s'.draft.graph = s.draft.graph)
    (hresolve : s'.standIns.resolve = s.standIns.resolve) : Onward g s s' where
  descends := by
    rw [hgraph]
    exact .refl _
  usable m h := by rwa [Usable, hgraph, hresolve]
  congr m m' h := by rwa [hresolve]
  division d x _ _ h := by rwa [hgraph]

theorem Hands.live (hb : Basis g r) {p m : NodeId} (h : Hands g r p m) : g.Live m := by
  obtain ⟨d, x, v, -, -, -, ⟨hd, -, -⟩, -, hm⟩ := h
  obtain ⟨y, hy, hmem⟩ := Graph.mem_operands_of_shape (List.mem_of_mem_head? hm)
  obtain ⟨z, hz, rfl⟩ := Option.map_eq_some_iff.mp hy
  exact hb.describes.operands_live hd hz m hmem

theorem Hands.gives {h : Graph} {p m : NodeId} (hh : Hands g r p m) : Gives g r h p m := by
  obtain ⟨d, x, v, hp, hx, hop, hq, hd, hm⟩ := hh
  exact .splice hp hx hop hq hd hm

/-- No memory state stands in for a node as a division. -/
theorem eq_of_hands (hapart : Apart g) {n d : NodeId} {x : Shape}
    (h : Relation.ReflTransGen (Hands g r) n d) (hx : g.shape? d = some x)
    (hdiv : x.op.isDivision = true) : n = d := by
  cases h with
  | refl => rfl
  | tail _ hlast =>
    obtain ⟨e, -, -, -, -, -, ⟨he, ⟨y, hy, hyop⟩, -⟩, -, hm⟩ := hlast
    rw [Graph.operands_eq_of_shape hy] at hm
    rw [hapart e y d x he hy hyop hm hx] at hdiv
    cases hdiv

theorem Made.scope (hb : Basis g r) {m : NodeId} (h : Made g m) : Scope g m := by
  rcases h with h | h | rfl
  · exact .inr (.inl h)
  · exact .inr (.inr h)
  · exact .inl (hb.anchor_live _ (by decide))

/-- What stands in for nodes of another kind and was there from the beginning is a constant or dead
control. -/
theorem Made.kind_of_bad (hbad : ∃ y, g.shape? Anchor.bad = some y ∧ y.op = .bad) {m : NodeId}
    {x : Shape} (h : Made g m) (hx : g.shape? m = some x) :
    (∃ v, x.op = .const v) ∨ x.op = .bad := by
  rcases h with hm | ⟨v, y, hy, hv, -⟩ | rfl
  · exact absurd (Graph.lt_size_of_shape? hx) (Nat.not_lt_of_le hm)
  · rw [hx] at hy
    cases hy
    exact .inl ⟨v, hv⟩
  · obtain ⟨y, hy, hbad⟩ := hbad
    rw [hx] at hy
    cases hy
    exact .inr hbad

theorem Made.kind (hb : Basis g r) {m : NodeId} {x : Shape} (h : Made g m)
    (hx : g.shape? m = some x) : (∃ v, x.op = .const v) ∨ x.op = .bad := by
  obtain ⟨y, hy, hbad, -⟩ := hb.anchor (n := Anchor.bad) rfl (by decide)
  exact h.kind_of_bad ⟨y, hy, hbad⟩ hx

/-! ### Exchanging -/

/-- A node of a kind that is exchanged has been there from the beginning. -/
theorem Mapped.origin (hs : Mapped g r s) {n : NodeId} {y : Shape}
    (hy : s.draft.graph.shape? n = some y) (hkind : isReplaced y.op = true) :
    ∃ x, g.shape? n = some x ∧ y.op = x.op ∧ y.mode = x.mode ∧ y.block = x.block := by
  refine hs.image.origin hy ?_ ?_ ?_
  · rintro hop
    rw [hop] at hkind
    cases hkind
  · rintro v hop
    rw [hop] at hkind
    cases hkind
  · rintro hop
    rw [hop] at hkind
    cases hkind

/-- Nodes of these kinds were not made for others. -/
theorem Mapped.not_made (hb : Basis g r) (hs : Mapped g r s) {n : NodeId} {y : Shape}
    (hy : s.draft.graph.shape? n = some y) (hkind : isReplaced y.op = true) : ¬ Made g n := by
  intro hmade
  obtain ⟨x, hx, hop, -⟩ := hs.origin hy hkind
  rcases hmade.kind hb hx with ⟨v, hv⟩ | hbad
  · rw [hop, hv] at hkind
    cases hkind
  · rw [hop, hbad] at hkind
    cases hkind

/-- The node `old`, of a kind that is exchanged, may give way to `new`: that was made for it, or
stands in for the memory state that a division hands on. -/
structure Exchangeable (g : Graph) (r : Solution) (s : State) (old new : NodeId) (y : Shape) :
    Prop where
  shape : s.draft.graph.shape? old = some y
  kind : isReplaced y.op = true
  ne : old ≠ new
  scope : Scope g new
  used : s.draft.graph.isRetired new = false
  reason : Scope g old → Made g new ∧ Gives g r s.draft.graph old new ∨
    ∃ m, Hands g r old m ∧ s.standIns.resolve m = new

section exchangeable

variable {old new : NodeId} {y : Shape}

theorem Exchangeable.image (he : Exchangeable g r s old new y) (hb : Basis g r)
    (hs : Mapped g r s) {h : Graph} (hex : s.draft.graph.exchange old new = .ok h) :
    Image g r (fun n => if s.standIns.resolve n = old then new else s.standIns.resolve n)
      (allPositions g) (Scope g) h := by
  obtain ⟨x, hx, hop, -⟩ := hs.origin he.shape he.kind
  have hkind : isReplaced x.op = true := hop ▸ he.kind
  refine hs.image.exchange hb hex he.ne ?_ ?_ he.scope he.used fun hscope => ?_
  · intro hmem
    rcases hb.anchor_kind hmem hx with h | h | h | h <;>
      · rw [h] at hkind
        cases hkind
  · rintro n z hn - hz hzop hzb
    obtain ⟨-, w, hw, hblock⟩ := hs.image.block_of_used hb hn hz hzop hzb
    rw [hx] at hw
    cases hw
    rw [hblock] at hkind
    cases hkind
  · rcases he.reason hscope with ⟨-, hgives⟩ | ⟨m, hhands, hm⟩
    · exact ⟨new, hgives, hs.image.self new (Graph.not_removed he.used), .refl⟩
    · exact ⟨m, hhands.gives, hm, hm ▸ hs.image.trail m (hhands.live hb)⟩

/-- What stood in for a node hands its memory state on, or was made for it. -/
theorem Exchangeable.spliced (he : Exchangeable g r s old new y) (hb : Basis g r)
    (hs : Mapped g r s) {n : NodeId} (hn : g.Live n) (hold : s.standIns.resolve n = old) :
    Relation.ReflTransGen (Hands g r) n new ∨ Made g new := by
  have hscope : Scope g old := hold ▸ hs.image.scope_of_live hb hn
  rcases he.reason hscope with ⟨hmade, -⟩ | ⟨m, hhands, hm⟩
  · exact .inr hmade
  have hbefore : Relation.ReflTransGen (Hands g r) n old := by
    rcases hs.spliced n hn with hpath | hmade
    · exact hold ▸ hpath
    · exact absurd (hold ▸ hmade) (hs.not_made hb he.shape he.kind)
  rcases hs.spliced m (hhands.live hb) with hpath | hmade
  · exact .inl ((hbefore.tail hhands).trans (hm ▸ hpath))
  · exact .inr (hm ▸ hmade)

/-- The exchange keeps the invariant and what it relies on, and retires the old node. -/
theorem Exchangeable.exchange (he : Exchangeable g r s old new y) (hb : Basis g r)
    (hs : Mapped g r s) (hex : s.draft.graph.exchange old new = .ok s'.draft.graph)
    (hconstants : s'.constants = s.constants)
    (hresolve : ∀ n, s'.standIns.resolve n =
      if s.standIns.resolve n = old then new else s.standIns.resolve n) :
    Mapped g r s' ∧ Onward g s s' ∧ s'.draft.graph.Removed old := by
  obtain ⟨x, hx, hop, -⟩ := hs.origin he.shape he.kind
  have hkind : isReplaced x.op = true := hop ▸ he.kind
  have hc := Contracts.of_exchange hs.image.mirrored he.ne hex
  refine ⟨⟨?_, fun v n hmem => ?_, fun n z hz hzop => ?_, fun n hn => ?_⟩,
    ⟨hc.descends, ?_, fun n n' heq => ?_, fun d z hz hdiv hd => ?_⟩, ?_⟩
  · rw [show s'.standIns.resolve = _ from funext hresolve]
    exact he.image hb hs hex
  · have hn := hs.constant v n (hconstants ▸ hmem)
    refine hc.isConstant ?_ hn
    rintro rfl
    obtain ⟨z, hz, hzop, -⟩ := hn
    cases hz.symm.trans he.shape
    have hkind := he.kind
    rw [hzop] at hkind
    cases hkind
  · rw [hresolve, hs.kept n z hz hzop, if_neg]
    rintro rfl
    cases hx.symm.trans hz
    rw [hzop] at hkind
    cases hkind
  · rw [hresolve]
    split
    next hold => exact he.spliced hb hs hn hold
    next => exact hs.spliced n hn
  · rintro n ⟨hn, hnused⟩
    rw [Usable, hresolve]
    split
    next => exact ⟨he.scope, by rw [hc.isRetired (Ne.symm he.ne), he.used]⟩
    next hne => exact ⟨hn, by rw [hc.isRetired hne, hnused]⟩
  · rw [hresolve, hresolve, heq]
  · rw [hc.isRetired, hd]
    rintro rfl
    cases hx.symm.trans hz
    cases hzop : x.op <;> simp [hzop, Op.isDivision, isReplaced] at hdiv hkind
  · exact ⟨_, by rw [hc.retires old rfl, he.shape]; rfl, rfl⟩

end exchangeable

/-- An exchange keeps the invariant, if the new node was made for the old one, or the old one is a
memory state that a division hands on. -/
theorem Mapped.replace (hb : Basis g r) (hs : Mapped g r s) {old new : NodeId} {y : Shape}
    (hrep : replace s old new = .ok s') (hy : s.draft.graph.shape? old = some y)
    (hkind : isReplaced y.op = true) (hnew : Usable g s new)
    (hreason : Scope g old →
      Made g (s.standIns.resolve new) ∧
        Gives g r s.draft.graph old (s.standIns.resolve new) ∨
      ∃ m, Hands g r old m ∧ s.standIns.resolve m = s.standIns.resolve new) :
    Mapped g r s' ∧ Onward g s s' ∧
      (old ≠ s.standIns.resolve new → s'.draft.graph.Removed old) := by
  by_cases hne : old = s.standIns.resolve new
  · obtain ⟨hgraph, hconstants, hsame⟩ := replace_self hrep hne
    exact ⟨hs.congr hgraph hconstants hsame, .congr_of_eq hgraph hsame, fun h => absurd hne h⟩
  · obtain ⟨hex, hconstants, hstandIns⟩ := replace_eq_ok hrep
    obtain ⟨hscope, hused⟩ := hnew
    generalize s.standIns.resolve new = m at *
    have hresolve (n : NodeId) : s'.standIns.resolve n =
        if s.standIns.resolve n = old then m else s.standIns.resolve n := by
      rw [hstandIns, Renaming.resolve_replace]
    have he : Exchangeable g r s old m y := ⟨hy, hkind, hne, hscope, hused, hreason⟩
    obtain ⟨hs', honward, hgone⟩ := he.exchange hb hs hex hconstants hresolve
    exact ⟨hs', honward, fun _ => hgone⟩

/-! ### New nodes and removed ones -/

theorem Onward.of_extends (he : Extends s.draft.graph s'.draft.graph)
    (hstandIns : s'.standIns = s.standIns) : Onward g s s' where
  descends n y hy := ⟨y, he n y hy, .refl y⟩
  usable m h := by
    rw [Usable, hstandIns]
    exact ⟨h.1, he.inUse h.2⟩
  congr m m' h := by rwa [hstandIns]
  division d x _ _ h := he.inUse h

/-- A constant of the start block or a jump is added. -/
theorem Mapped.addNode (hb : Basis g r) (hs : Mapped g r s) {op : Op} {mode : Mode} {b n : NodeId}
    {graph : Graph} {x : Shape}
    (hadd : s.draft.graph.addNode op mode (some b) [] = .ok (n, graph)) (hlive : g.Live b)
    (hused : s.draft.graph.isRetired b = false) (hx : g.shape? b = some x) (hblock : x.op = .block)
    (hop : (∃ v, op = .const v) ∧ b = Anchor.startBlock ∨ op = .jump) :
    Mapped g r { s with draft := { s.draft with graph } } where
  image := hs.image.addNode hb hadd (.inl hlive) hused hlive hx hblock hop
  constant v m hmem := (Extends.of_addNode hadd).isConstant (hs.constant v m hmem)
  kept := hs.kept
  spliced := hs.spliced

theorem Mapped.constantNode (hb : Basis g r) (hs : Mapped g r s) {v : Literal} {c : NodeId}
    (h : constantNode s v = .ok (c, s')) :
    Mapped g r s' ∧ s'.draft.graph.IsConstant c v ∧ s'.standIns = s.standIns ∧
      Extends s.draft.graph s'.draft.graph := by
  rcases constantNode_eq_ok h with ⟨rfl, hmem⟩ | ⟨graph, hadd, rfl⟩
  · exact ⟨hs, hs.constant v c hmem, rfl, fun n y hy => hy⟩
  · obtain ⟨x, hx, hop, -⟩ := hb.anchor (n := Anchor.startBlock) rfl (by decide)
    have hentry : Anchor.startBlock ∈ Anchor.all := by decide
    have hadded := hs.addNode hb hadd (hb.anchor_live _ hentry) (hs.image.anchor _ hentry).2 hx hop
      (.inl ⟨⟨v, rfl⟩, rfl⟩)
    have hconst : graph.IsConstant c v := isConstant_of_addNode hadd
    refine ⟨{ hadded with constant := fun w n hmem => ?_ }, hconst, rfl, .of_addNode hadd⟩
    rcases List.mem_cons.mp hmem with heq | hmem
    · cases heq
      exact hconst
    · exact hadded.constant w n hmem

theorem Mapped.carries (hs : Mapped g r s) {c : NodeId} {v : Literal}
    (hc : s.draft.graph.IsConstant c v) : Carries g s.draft.graph c v := by
  obtain ⟨y, hy, hop, hblock⟩ := hc
  refine ⟨?_, y, hy, hblock, .inl hop⟩
  by_cases hlt : c < g.size
  · obtain ⟨x, hx⟩ := Graph.exists_node_of_lt hlt
    obtain ⟨hxop, -, hxb⟩ := hs.image.same (Graph.shape?_eq hx) hy (by simp [hop])
    exact .inr ⟨_, Graph.shape?_eq hx, hxop.symm.trans hop, hxb.symm.trans hblock⟩
  · exact .inl (Nat.le_of_not_lt hlt)

/-- A value is exchanged with a constant. -/
theorem Mapped.replaceByConstant (hb : Basis g r) (hs : Mapped g r s) {n c : NodeId} {v : Literal}
    {s₁ : State} {y : Shape} (hc : Substitution.constantNode s v = .ok (c, s₁))
    (hrep : Substitution.replace s₁ n c = .ok s') (hy : s.draft.graph.shape? n = some y)
    (hkind : isReplaced y.op = true)
    (hreason : ∀ h c, Scope g n → Carries g h c v → Gives g r h n c) :
    Mapped g r s' ∧ Onward g s s' ∧ s'.draft.graph.Removed n := by
  obtain ⟨hs₁, hconst, hstandIns, he⟩ := hs.constantNode hb hc
  have hself : s₁.standIns.resolve c = c := hs₁.image.self c (Graph.not_removed hconst.inUse)
  have hcarries := hs₁.carries hconst
  have hmade : Made g c := hcarries.origin.imp id fun h => .inl ⟨v, h⟩
  have hne : n ≠ c := by
    rintro rfl
    exact hs.not_made hb hy hkind hmade
  obtain ⟨hs', honward, hgone⟩ := hs₁.replace hb hrep (he n y hy) hkind
    (by rw [Usable, hself]; exact ⟨hmade.scope hb, hconst.inUse⟩)
    (fun hscope => .inl (by rw [hself]; exact ⟨hmade, hreason _ _ hscope hcarries⟩))
  exact ⟨hs', (Onward.of_extends he hstandIns).trans honward, hgone (by rwa [hself])⟩

/-- A division or branch without users is removed. -/
theorem Mapped.killUnused (hb : Basis g r) (hs : Mapped g r s) {n : NodeId} {x : Shape}
    (hx : g.shape? n = some x) (hkind : x.op.isDivision = true ∨ x.op = .cond)
    (h : killUnused s n = .ok s') :
    Mapped g r s' ∧ Descends s.draft.graph s'.draft.graph ∧
      ∀ m, m ≠ n → s.draft.graph.isRetired m = false → s'.draft.graph.isRetired m = false := by
  obtain ⟨y, hy, h⟩ := bind_eq_ok.mp h
  split at h
  next hempty =>
    obtain ⟨d, hd, h⟩ := bind_eq_ok.mp h
    cases h
    have hk := Draft.edit_eq_ok hd
    have hc := Contracts.of_kill hs.image.mirrored hk
    have hunused (u : NodeId) : n ∉ s.draft.graph.operands u := by
      intro hu
      have huser := hs.image.mirrored.mem_users.mpr hu
      rw [Graph.users_eq (Graph.node_eq_ok hy), List.isEmpty_iff.mp hempty] at huser
      cases huser
    have hnot {op : Op} (hop : x.op = op) : op.isDivision = true ∨ op = .cond := hop ▸ hkind
    have himage := hs.image.remove hb hc (fun m hm => hm ▸ (Graph.kill_eq_ok hk).1) ?_ ?_
    · refine ⟨⟨himage, fun v m hmem => ?_, hs.kept, hs.spliced⟩, fun m z hz => hc.keeps hz,
        fun m hm hused => by rw [hc.isRetired hm, hused]⟩
      have hm := hs.constant v m hmem
      refine hc.isConstant ?_ hm
      rintro rfl
      obtain ⟨z, hz, hzop, -⟩ := hm
      have hop := (hs.image.same hx hz (by simp [hzop])).1
      exact absurd (hnot (hop.symm.trans hzop)) (by simp [Op.isDivision])
    · rintro m hm rfl
      rcases hb.anchor_kind hm hx with hop | hop | hop | hop <;>
        exact absurd (hnot hop) (by simp [Op.isDivision])
    · rintro u m hu - hused hm rfl
      obtain ⟨z, hz, hblock | hmem⟩ := Graph.mem_inputs.mp hm
      · obtain ⟨w, hw, hwop⟩ := Graph.exists_shape hused
        rw [hz] at hw
        cases hw
        obtain ⟨-, w, hw, hop⟩ := hs.image.block_of_used hb hu hz hwop hblock
        rw [hx] at hw
        cases hw
        exact absurd (hnot hop) (by simp [Op.isDivision])
      · exact hunused u (by rwa [Graph.operands_eq_of_shape hz])
  next =>
    cases h
    exact ⟨hs, .refl _, fun _ _ h => h⟩

/-! ### What a visit achieves -/

/-- What a visit of `n` leaves behind. -/
structure Visited (g : Graph) (r : Solution) (n : NodeId) (s s' : State) : Prop where
  mapped : Mapped g r s'
  descends : Descends s.draft.graph s'.draft.graph
  division : ∀ d x, g.shape? d = some x → x.op.isDivision = true → d ≠ n →
    s.draft.graph.isRetired d = false → s'.draft.graph.isRetired d = false
  settled : Settled g r s'.draft.graph n

theorem Settled.descend {h h' : Graph} {n : NodeId} (hs : Settled g r h n) (hd : Descends h h') :
    Settled g r h' n where
  value x v hx hop hmode hv := hd.removed (hs.value x v hx hop hmode hv)
  arm x side t v hx hop ht hv hbool := hd.removed (hs.arm x side t v hx hop ht hv hbool)
  division hapart x v m hx hop hv hm p y hp hy hkind hmem :=
    hd.removed (hs.division hapart x v m hx hop hv hm p y hp hy hkind hmem)

/-- Nothing more is to be done about a node that was replaced. -/
theorem Settled.of_removed {h : Graph} {n : NodeId} (hn : h.Removed n)
    (hdiv : ∀ x, g.shape? n = some x → x.op.isDivision = false) : Settled g r h n where
  value _ _ _ _ _ _ := hn
  arm _ _ _ _ _ _ _ _ _ := hn
  division _ x _ _ hx hop := by
    rw [hdiv x hx] at hop
    cases hop

/-- A node is settled if its fact asks for nothing, or it is a division whose memory states and
results are gone. -/
theorem Settled.of_shape {h : Graph} {n : NodeId} {z : Shape} (hz : g.shape? n = some z)
    (hvalue : z.op.isFolded = true → z.mode.isFoldable = true → r.constant? n = none)
    (harm : ∀ side t v, z.op = .proj (.arm side) → z.operands.head? = some t →
      r.constant? t = some v → v.toBool? = none)
    (hdiv : z.op.isDivision = true → Apart g → ∀ v m, r.constant? n = some v →
      z.operands.head? = some m → ∀ p y, g.Live p → g.shape? p = some y →
      y.op = .proj .memory ∨ y.op = .proj .result → n ∈ y.operands → h.Removed p) :
    Settled g r h n where
  value x v hx hop hmode hv := by
    cases hz.symm.trans hx
    cases (hvalue hop hmode).symm.trans hv
  arm x side t v hx hop ht hv hbool := by
    cases hz.symm.trans hx
    exact absurd (harm side t v hop ht hv) hbool
  division hapart x v m hx hop hv hm := by
    cases hz.symm.trans hx
    exact hdiv hop hapart v m hv hm

/-- A live node other than the stop node has its operands renamed. -/
theorem Mapped.operands (hs : Mapped g r s) {n : NodeId} (hn : g.Live n) (hstop : n ≠ Anchor.stop)
    (hused : s.draft.graph.isRetired n = false) :
    s.draft.graph.operands n = (g.operands n).map s.standIns.resolve := by
  rw [hs.image.operands n hstop (.inl hn) hn hused, allPositions, pick_range]

/-- A value whose fact is a constant is exchanged with it. -/
theorem Mapped.fold (hb : Basis g r) (hs : Mapped g r s) {pass : String} {n : NodeId} {x : Node}
    (hn : g.Live n) (h : fold r pass s n x = .ok s') (hx : s.draft.graph.nodes[n]? = some x)
    (hkind : x.op.isFolded = true) : Visited g r n s s' := by
  have hreplaced : isReplaced x.shape.op = true := by
    show isReplaced x.op = true
    cases hop : x.op <;> simp [hop, Op.isFolded, isReplaced] at hkind ⊢
  obtain ⟨z, hz, hop, hmode, -⟩ := hs.origin (Graph.shape?_eq hx) hreplaced
  have hzop : z.op.isFolded = true := hop ▸ hkind
  have hmode : x.mode = z.mode := hmode
  have hdiv : ∀ y, g.shape? n = some y → y.op.isDivision = false := by
    intro y hy
    rw [hz] at hy
    cases hy
    cases hop : z.op <;> simp [hop, Op.isFolded, Op.isDivision] at hzop ⊢
  have hidle (hv : x.mode.isFoldable = true → r.constant? n = none) : Visited g r n s s := by
    refine ⟨hs, .refl _, fun _ _ _ _ _ h => h,
      .of_shape hz (fun _ hfoldable => hv (hmode ▸ hfoldable)) ?_ ?_⟩
    · intro side t v hop
      rw [hop] at hzop
      cases hzop
    · intro hop
      rw [hdiv z hz] at hop
      cases hop
  unfold Substitution.fold at h
  split at h
  next hfoldable =>
    split at h
    next hnone =>
      cases h
      exact hidle fun _ => hnone
    next v hv =>
      obtain ⟨⟨c, s₁⟩, hc, h⟩ := bind_eq_ok.mp h
      obtain ⟨s₂, hrep, h⟩ := bind_eq_ok.mp h
      cases h
      obtain ⟨hs₂, honward, hgone⟩ := hs.replaceByConstant hb hc hrep (Graph.shape?_eq hx)
        hreplaced fun _ _ _ hcarries => .fold hn hz hzop (hmode ▸ hfoldable) hv hcarries
      exact ⟨hs₂.congr rfl rfl rfl, honward.descends,
        fun d y hy hyop _ => honward.division d y hy hyop, .of_removed hgone hdiv⟩
  next hfoldable =>
    cases h
    exact hidle fun hmode' => absurd hmode' hfoldable

/-! ### Divisions -/

/-- What is known of a division while its users are replaced. -/
structure Splicing (g : Graph) (r : Solution) (v : Literal) (d m mem : NodeId) (s : State) :
    Prop where
  mapped : Mapped g r s
  quotient : Quotient g r d v
  head : (g.operands d).head? = some m
  resolved : s.standIns.resolve m = s.standIns.resolve mem
  usable : Usable g s mem

theorem Splicing.onward {v : Literal} {d m mem : NodeId} (h : Splicing g r v d m mem s)
    (hs' : Mapped g r s') (ho : Onward g s s') : Splicing g r v d m mem s' :=
  ⟨hs', h.quotient, h.head, ho.congr _ _ h.resolved, ho.usable mem h.usable⟩

/-- One user of a division is replaced. -/
theorem Splicing.bypass (hb : Basis g r) {v : Literal} {d m mem p : NodeId}
    (hsp : Splicing g r v d m mem s) (h : bypass v mem s p = .ok s')
    (hhangs : Apart g → g.Live p → s.draft.graph.isRetired p = false → d ∈ g.operands p) :
    Mapped g r s' ∧ Onward g s s' ∧
      ∀ y, s.draft.graph.shape? p = some y →
        y.op = .proj .memory ∧ p ≠ s.standIns.resolve mem ∨ y.op = .proj .result →
        s'.draft.graph.Removed p := by
  obtain ⟨x, hx, h⟩ := bind_eq_ok.mp h
  have hx := Graph.node_eq_ok hx
  have hshape := Graph.shape?_eq hx
  -- A projection that matters was there from the beginning, and hangs off the division.
  have horigin (hop : isReplaced x.op = true) (hscope : Scope g p) :
      g.Live p ∧ ∃ z, g.shape? p = some z ∧ x.op = z.op ∧ x.mode = z.mode ∧
        (Apart g → d ∈ z.operands) := by
    obtain ⟨z, hz, hzop, hmode, -⟩ := hsp.mapped.origin hshape hop
    have hlive : g.Live p := hscope.live hz fun w hw => by
      rw [show x.op = z.op from hzop, hw] at hop
      cases hop
    refine ⟨hlive, z, hz, hzop, hmode, fun hapart => ?_⟩
    rw [← Graph.operands_eq_of_shape hz]
    exact hhangs hapart hlive (used_of_kind hshape hop)
  split at h
  next hop =>
    obtain ⟨hs', honward, hgone⟩ := hsp.mapped.replace hb h hshape
      (by simp [Node.shape, hop, isReplaced]) hsp.usable fun hscope => by
        obtain ⟨hlive, z, hz, hzop, -, hmem⟩ := horigin (by simp [hop, isReplaced]) hscope
        exact .inr ⟨m, ⟨d, z, v, hlive, hz, hzop.symm.trans hop, hsp.quotient, hmem, hsp.head⟩,
          hsp.resolved⟩
    refine ⟨hs', honward, fun y hy hcase => ?_⟩
    rw [hshape] at hy
    cases hy
    rcases hcase with ⟨-, hne⟩ | hres
    · exact hgone hne
    · cases hop.symm.trans hres
  next hop =>
    obtain ⟨⟨c, s₁⟩, hc, h⟩ := bind_eq_ok.mp h
    obtain ⟨hs', honward, hgone⟩ := hsp.mapped.replaceByConstant hb hc h hshape
      (by simp [Node.shape, hop, isReplaced]) fun _ _ hscope hcarries => by
        obtain ⟨hlive, z, hz, hzop, hmode, hmem⟩ := horigin (by simp [hop, isReplaced]) hscope
        rw [hmode] at hcarries
        exact .quotient hlive hz (hzop.symm.trans hop) hsp.quotient hmem hcarries
    exact ⟨hs', honward, fun _ _ _ => hgone⟩
  next hmem hres =>
    cases h
    refine ⟨hsp.mapped, .refl _, fun y hy hcase => ?_⟩
    rw [hshape] at hy
    cases hy
    rcases hcase with ⟨hop, -⟩ | hop
    · exact absurd hop hmem
    · exact absurd hop hres

/-- What uses a division has used it from the beginning. -/
theorem Mapped.hangs (hb : Basis g r) (hs : Mapped g r s) (hapart : Apart g) {d p : NodeId}
    {z : Shape} (hz : g.shape? d = some z) (hdiv : z.op.isDivision = true) (hp : g.Live p)
    (hused : s.draft.graph.isRetired p = false) (hmem : d ∈ s.draft.graph.operands p) :
    d ∈ g.operands p := by
  obtain ⟨q, hq, hresolve⟩ : ∃ q ∈ g.operands p, s.standIns.resolve q = d := by
    by_cases hstop : p = Anchor.stop
    · subst hstop
      obtain ⟨q, hq, heq⟩ := hs.image.stop d hmem
      exact ⟨q, hq, heq.symm⟩
    · rw [hs.operands hp hstop hused] at hmem
      exact List.mem_map.mp hmem
  obtain ⟨y, hy, hin⟩ := Graph.mem_operands_of_shape hq
  obtain ⟨y', hy', rfl⟩ := Option.map_eq_some_iff.mp hy
  have hqlive := hb.describes.operands_live hp hy' q hin
  rcases hs.spliced q hqlive with hpath | hmade
  · rw [hresolve] at hpath
    rwa [← eq_of_hands hapart hpath hz hdiv]
  · rw [hresolve] at hmade
    rcases hmade.kind hb hz with ⟨v, hv⟩ | hbad
    · rw [hv] at hdiv
      cases hdiv
    · rw [hbad] at hdiv
      cases hdiv

/-- What holds after the users `done` of a division were replaced. -/
structure Bypassed (g : Graph) (r : Solution) (v : Literal) (d m mem : NodeId) (s : State)
    (done : List NodeId) (u : State) : Prop where
  splicing : Splicing g r v d m mem u
  onward : Onward g s u
  gone : Apart g → ∀ p ∈ done, ∀ y, g.Live p → g.shape? p = some y →
    y.op = .proj .memory ∨ y.op = .proj .result → u.draft.graph.Removed p

/-- A memory state does not stand in for the state that its division consumed: the chain of memory
states has no cycle. -/
theorem Splicing.ne_resolve (hb : Basis g r) {v : Literal} {d m mem q : NodeId} {w : Shape}
    (hsp : Splicing g r v d m mem s) (hacyclic : ∀ p, ¬ Relation.TransGen (Hands g r) p p)
    (hhands : Hands g r q m) (hw : s.draft.graph.shape? q = some w)
    (hkind : isReplaced w.op = true) : q ≠ s.standIns.resolve mem := by
  intro heq
  rcases hsp.mapped.spliced m (hhands.live hb) with hpath | hmade
  · rw [hsp.resolved, ← heq] at hpath
    exact hacyclic q (.head' hhands hpath)
  · rw [hsp.resolved, ← heq] at hmade
    exact hsp.mapped.not_made hb hw hkind hmade

theorem Bypassed.step (hb : Basis g r)
    (hacyclic : Apart g → ∀ p, ¬ Relation.TransGen (Hands g r) p p) {v : Literal}
    {d m mem p : NodeId} {done : List NodeId} {u u' : State}
    (hu : Bypassed g r v d m mem s done u) (hturn : bypass v mem u p = .ok u')
    (hhangs : Apart g → g.Live p → u.draft.graph.isRetired p = false → d ∈ g.operands p) :
    Bypassed g r v d m mem s (done ++ [p]) u' := by
  obtain ⟨hu', hstep, hgone⟩ := hu.splicing.bypass hb hturn hhangs
  refine ⟨hu.splicing.onward hu' hstep, hu.onward.trans hstep,
    fun hapart q hq y hlive hy hkind => ?_⟩
  rcases List.mem_append.mp hq with hq | hq
  · exact hstep.descends.removed (hu.gone hapart q hq y hlive hy hkind)
  obtain rfl := List.mem_singleton.mp hq
  obtain ⟨w, hw, hkeep⟩ := hu.splicing.mapped.image.slot q y hy
  rcases hkeep.op with hwop | hwop
  · refine hgone w hw ?_
    rw [hwop]
    refine hkind.imp (fun hmem => ⟨hmem, ?_⟩) id
    have hreplaced : isReplaced w.op = true := by
      rw [hwop, hmem]
      rfl
    refine hu.splicing.ne_resolve hb (hacyclic hapart) ?_ hw hreplaced
    refine ⟨d, y, v, hlive, hy, hmem, hu.splicing.quotient, fun _ => ?_, hu.splicing.head⟩
    rw [← Graph.operands_eq_of_shape hy]
    exact hhangs hapart hlive (used_of_kind hw hreplaced)
  · exact hstep.descends.removed ⟨w, hw, hwop⟩

/-- The users of a division with a constant result are replaced. -/
theorem Mapped.bypassAll (hb : Basis g r) (hs : Mapped g r s)
    (hacyclic : Apart g → ∀ p, ¬ Relation.TransGen (Hands g r) p p) {d mem : NodeId} {x : Node}
    {z : Shape} {v : Literal} (hd : g.Live d) (hx : s.draft.graph.nodes[d]? = some x)
    (hz : g.shape? d = some z) (hdiv : z.op.isDivision = true)
    (hused : s.draft.graph.isRetired d = false) (hv : r.constant? d = some v)
    (hhead : x.operands.head? = some mem) (hloop : x.users.foldlM (bypass v mem) s = .ok s') :
    ∃ m, Bypassed g r v d m mem s x.users s' := by
  have hstop : d ≠ Anchor.stop := hb.ne_stop hz fun hop => by
    rw [hop] at hdiv
    cases hdiv
  obtain ⟨m, hm, hmmem⟩ : ∃ m, (g.operands d).head? = some m ∧ s.standIns.resolve m = mem := by
    rw [← Graph.operands_eq hx, hs.operands hd hstop hused, List.head?_map] at hhead
    exact Option.map_eq_some_iff.mp hhead
  have hmemin : mem ∈ s.draft.graph.inputs d := by
    rw [Graph.inputs_eq hx]
    exact List.mem_append_right _ (List.mem_of_mem_head? hhead)
  obtain ⟨hscope, hmemused⟩ := hs.image.closed d mem (.inl hd) hused hmemin
  have hself : s.standIns.resolve mem = mem := hs.image.self mem (Graph.not_removed hmemused)
  have hbegin : Splicing g r v d m mem s :=
    ⟨hs, ⟨hd, ⟨z, hz, hdiv⟩, hv⟩, hm, by rw [hself, hmmem],
      by rw [Usable, hself]; exact ⟨hscope, hmemused⟩⟩
  refine ⟨m, foldlM_eq_ok (I := Bypassed g r v d m mem s) hloop ⟨hbegin, .refl s, by simp⟩ ?_⟩
  intro done p rest u u' hsplit hu hturn
  refine hu.step hb hacyclic hturn fun hapart hlive hpused => ?_
  have hmem : d ∈ s.draft.graph.operands p := by
    refine hs.image.mirrored.mem_users.mp ?_
    rw [Graph.users_eq hx, hsplit]
    simp
  obtain ⟨y, hy, -⟩ := Graph.exists_shape (hb.describes.used p hlive)
  obtain ⟨w, hw, -⟩ := hs.image.slot p y hy
  refine hs.hangs hb hapart hz hdiv hlive (Graph.isRetired_eq_false_iff.mpr ⟨w, hw, ?_⟩) hmem
  exact fun hop => Graph.not_removed hpused (hu.onward.descends.removed ⟨w, hw, hop⟩)

/-- A division with a constant result is taken out of the memory chain. -/
theorem Mapped.splice (hb : Basis g r) (hs : Mapped g r s)
    (hacyclic : Apart g → ∀ p, ¬ Relation.TransGen (Hands g r) p p) {pass : String}
    {d : NodeId} {x : Node} (hd : g.Live d) (h : splice r pass s d x = .ok s')
    (hx : s.draft.graph.nodes[d]? = some x) (hdiv : x.op.isDivision = true) :
    Visited g r d s s' := by
  have hxop : x.op ≠ .retired := by
    intro hop
    rw [hop] at hdiv
    cases hdiv
  have hused : s.draft.graph.isRetired d = false := Graph.isRetired_eq_false.mpr ⟨x, hx, hxop⟩
  obtain ⟨z, hz, -⟩ := Graph.exists_shape (hb.describes.used d hd)
  have hzdiv : z.op.isDivision = true := (hs.image.same hz (Graph.shape?_eq hx) hxop).1 ▸ hdiv
  have hsettled {h : Graph} (hall : Apart g → ∀ v m, r.constant? d = some v →
      z.operands.head? = some m → ∀ p y, g.Live p → g.shape? p = some y →
      y.op = .proj .memory ∨ y.op = .proj .result → d ∈ y.operands → h.Removed p) :
      Settled g r h d := by
    refine .of_shape hz (fun hop => ?_) (fun side t v hop => ?_) fun _ => hall
    · cases hzop : z.op <;> simp [hzop, Op.isFolded, Op.isDivision] at hop hzdiv
    · rw [hop] at hzdiv
      cases hzdiv
  unfold Substitution.splice at h
  split at h
  next v mem hv hhead =>
    obtain ⟨s₁, hloop, h⟩ := bind_eq_ok.mp h
    obtain ⟨s₂, hkill, h⟩ := bind_eq_ok.mp h
    cases h
    obtain ⟨m, hs₁⟩ := hs.bypassAll hb hacyclic hd hx hz hzdiv hused hv hhead hloop
    obtain ⟨hs₂, hdesc, hkeep⟩ := hs₁.splicing.mapped.killUnused hb hz (.inl hzdiv) hkill
    refine ⟨hs₂.congr rfl rfl rfl, hs₁.onward.descends.trans hdesc, fun e y hy hyop hne hused =>
      hkeep e hne (hs₁.onward.division e y hy hyop hused), hsettled fun hapart w k _ _ p y hp hy
        hkind hmem => ?_⟩
    by_cases hpused : s.draft.graph.isRetired p = false
    · refine hdesc.removed (hs₁.gone hapart p ?_ y hp hy hkind)
      have hps : p ≠ Anchor.stop := hb.ne_stop hy fun hop => by simp [hop] at hkind
      rw [← Graph.users_eq hx]
      refine hs.image.mirrored.mem_users.mpr ?_
      rw [hs.operands hp hps hpused, Graph.operands_eq_of_shape hy]
      exact List.mem_map.mpr ⟨d, hmem, hs.image.self d (Graph.not_removed hused)⟩
    · obtain ⟨w, hw, -⟩ := hs.image.slot p y hy
      refine (hs₁.onward.descends.trans hdesc).removed ⟨w, hw, ?_⟩
      by_contra hwop
      exact hpused (Graph.isRetired_eq_false_iff.mpr ⟨w, hw, hwop⟩)
  next hnone =>
    cases h
    refine ⟨hs, .refl _, fun _ _ _ _ _ h => h, hsettled fun _ v m hv hm => ?_⟩
    have hstop : d ≠ Anchor.stop := hb.ne_stop hz fun hop => by
      rw [hop] at hzdiv
      cases hzdiv
    have hhead : x.operands.head? = some (s.standIns.resolve m) := by
      rw [← Graph.operands_eq hx, hs.operands hd hstop hused, Graph.operands_eq_of_shape hz,
        List.head?_map, hm]
      rfl
    exact absurd hhead (hnone v _ hv)

/-! ### Branches -/

/-- The arm that is always chosen becomes a jump. -/
theorem Mapped.replaceByJump (hb : Basis g r) (hs : Mapped g r s) {n b j t : NodeId}
    {graph : Graph} {x : Node} {z : Shape} {side : Bool} {v : Literal} (hn : g.Live n)
    (hx : s.draft.graph.nodes[n]? = some x) (hop : x.op = .proj (.arm side))
    (hz : g.shape? n = some z) (ht : z.operands.head? = some t) (hv : r.constant? t = some v)
    (hbool : v.toBool? = some side) (hxb : x.block = some b)
    (hadd : s.draft.graph.addNode .jump .control (some b) [] = .ok (j, graph))
    (hrep : Substitution.replace { s with draft := { s.draft with graph } } n j = .ok s') :
    Mapped g r s' ∧ Onward g s s' ∧ s'.draft.graph.Removed n := by
  have hshape := Graph.shape?_eq hx
  have hreplaced : isReplaced x.shape.op = true := by simp [Node.shape, hop, isReplaced]
  obtain ⟨hzop, -, hblock⟩ := hs.image.same hz hshape (by simp [Node.shape, hop])
  have hzop : z.op = .proj (.arm side) := hzop.symm.trans hop
  obtain ⟨hlive, w, hw, hwop⟩ := hs.image.block_of_used hb (.inl hn) hshape
    (by simp [Node.shape, hop]) hxb
  have hbused := (hs.image.closed n b (.inl hn) (used_of_kind hshape hreplaced)
    (Graph.mem_inputs.mpr ⟨_, hshape, .inl hxb⟩)).2
  have hs₀ := hs.addNode hb hadd hlive hbused hw hwop (.inr rfl)
  have he := Extends.of_addNode hadd
  have hj : graph.shape? j = some ⟨.jump, .control, some b, []⟩ := Graph.shape?_addNode_self hadd
  have hjused : graph.isRetired j = false := Graph.isRetired_eq_false_iff.mpr ⟨_, hj, by simp⟩
  have hself : s.standIns.resolve j = j := hs₀.image.self j (Graph.not_removed hjused)
  have hsize : g.size ≤ j := (Graph.addNode_eq_ok hadd).1 ▸ hs.image.size_le
  obtain ⟨hs₁, honward, hgone⟩ := hs₀.replace hb hrep (he n _ hshape) hreplaced
    (show Scope g (s.standIns.resolve j) ∧ graph.isRetired (s.standIns.resolve j) = false by
      rw [hself]
      exact ⟨.inr (.inl hsize), hjused⟩)
    (fun _ => .inl (show Made g (s.standIns.resolve j) ∧
        Gives g r graph n (s.standIns.resolve j) by
      rw [hself]
      exact ⟨.inl hsize, .jump hn hz hzop ht hv hbool (hblock.symm.trans hxb)
        ⟨hsize, _, hj, rfl, .inl rfl⟩⟩))
  have hne : n ≠ s.standIns.resolve j := by
    rw [hself]
    rintro rfl
    exact absurd (Graph.lt_size_of_shape? hz) (Nat.not_lt_of_le hsize)
  have hadded : Onward g s { s with draft := { s.draft with graph } } := .of_extends he rfl
  exact ⟨hs₁, hadded.trans honward, hgone hne⟩

/-- The arm that is never chosen becomes dead control. -/
theorem Mapped.replaceByBad (hb : Basis g r) (hs : Mapped g r s) {n t : NodeId} {y z : Shape}
    {side other : Bool} {v : Literal} (hn : g.Live n) (hy : s.draft.graph.shape? n = some y)
    (hop : y.op = .proj (.arm side)) (hz : g.shape? n = some z) (ht : z.operands.head? = some t)
    (hv : r.constant? t = some v) (hbool : v.toBool? = some other) (hother : other ≠ side)
    (hrep : Substitution.replace s n Anchor.bad = .ok s') :
    Mapped g r s' ∧ Onward g s s' ∧ s'.draft.graph.Removed n := by
  have hreplaced : isReplaced y.op = true := by simp [hop, isReplaced]
  have hzop : z.op = .proj (.arm side) :=
    (hs.image.same hz hy (by simp [hop])).1.symm.trans hop
  have hbad := hs.image.anchor Anchor.bad (by decide)
  have hself : s.standIns.resolve Anchor.bad = Anchor.bad :=
    hs.image.self _ (Graph.not_removed hbad.2)
  obtain ⟨hs₁, honward, hgone⟩ := hs.replace hb hrep hy hreplaced
    (by rw [Usable, hself]; exact hbad)
    (fun _ => .inl (by
      rw [hself]
      exact ⟨.inr (.inr rfl), .dead hn hz hzop ht hv hbool hother⟩))
  refine ⟨hs₁, honward, hgone ?_⟩
  rw [hself]
  rintro rfl
  exact hs.not_made hb hy hreplaced (.inr (.inr rfl))

/-- An arm of a branch on a constant becomes a jump or dead control. -/
theorem Mapped.foldArm (hb : Basis g r) (hs : Mapped g r s) {pass : String} {n : NodeId} {x : Node}
    {side : Bool} (hn : g.Live n) (h : foldArm r pass s n x side = .ok s')
    (hx : s.draft.graph.nodes[n]? = some x) (hop : x.op = .proj (.arm side)) :
    Visited g r n s s' := by
  have hshape := Graph.shape?_eq hx
  have hreplaced : isReplaced x.shape.op = true := by simp [Node.shape, hop, isReplaced]
  obtain ⟨z, hz, hzop, -, hblock⟩ := hs.origin hshape hreplaced
  have hzop : z.op = .proj (.arm side) := hzop.symm.trans hop
  -- The arm still hangs off its branch.
  obtain ⟨t, c, ht, hc, hcond⟩ := hb.arm n z side hn hz hzop
  have hhead : x.operands.head? = some t := by
    rw [← Graph.operands_eq hx, hs.operands hn (hb.ne_stop hz (by simp [hzop]))
      (used_of_kind hshape hreplaced), Graph.operands_eq_of_shape hz, List.head?_map, ht,
      Option.map_some, hs.kept t c hc (by rw [hcond]; rfl)]
  have hfinish {s₁ s₂ : State} (h₁ : Mapped g r s₁ ∧ Onward g s s₁ ∧ s₁.draft.graph.Removed n)
      (hkill : Substitution.killUnused s₂ t = .ok s') (hgraph : s₂.draft.graph = s₁.draft.graph)
      (hconstants : s₂.constants = s₁.constants) (hstandIns : s₂.standIns = s₁.standIns) :
      Visited g r n s s' := by
    obtain ⟨hs₁, honward, hgone⟩ := h₁
    obtain ⟨hs₂, hdesc, hkeep⟩ := (hs₁.congr hgraph hconstants (by rw [hstandIns])).killUnused hb hc
      (.inr hcond) hkill
    rw [hgraph] at hdesc hkeep
    refine ⟨hs₂, honward.descends.trans hdesc, fun d y hy hyop _ hd => ?_,
      .of_removed (hdesc.removed hgone) fun y hy => ?_⟩
    · refine hkeep d ?_ (honward.division d y hy hyop hd)
      rintro rfl
      cases hc.symm.trans hy
      rw [hcond] at hyop
      cases hyop
    · cases hz.symm.trans hy
      rw [hzop]
      rfl
  unfold Substitution.foldArm at h
  rw [hhead] at h
  dsimp only at h
  split at h
  next selected b hsel hxb =>
    obtain ⟨v, hv, hbool⟩ := Option.bind_eq_some_iff.mp hsel
    split at h
    next hside =>
      subst hside
      obtain ⟨⟨j, graph⟩, hadd, h⟩ := bind_eq_ok.mp h
      obtain ⟨s₁, hrep, h⟩ := bind_eq_ok.mp h
      exact hfinish (hs.replaceByJump hb hn hx hop hz ht hv hbool hxb hadd hrep) h rfl rfl rfl
    next hside =>
      obtain ⟨s₁, hrep, h⟩ := bind_eq_ok.mp h
      exact hfinish (hs.replaceByBad hb hn hshape hop hz ht hv hbool hside hrep) h rfl rfl rfl
  next hnone =>
    cases h
    refine ⟨hs, .refl _, fun _ _ _ _ _ h => h,
      .of_shape hz (by simp [hzop, Op.isFolded]) (fun _ t' v _ ht' hv => ?_)
        (by simp [hzop, Op.isDivision])⟩
    obtain rfl := Option.some.inj (ht.symm.trans ht')
    obtain ⟨b, -, hzb, -⟩ := hb.structured.placed n z hn hz (by simp [hzop])
    cases hbool : v.toBool? with
    | none => rfl
    | some selected =>
      exact absurd (hblock.trans hzb) (hnone selected b (by rw [hv]; exact hbool))

/-! ### The pass -/

/-- One visit keeps the invariant and settles the node. -/
theorem Mapped.visit (hb : Basis g r) (hs : Mapped g r s)
    (hacyclic : Apart g → ∀ p, ¬ Relation.TransGen (Hands g r) p p) {pass : String}
    {n : NodeId} (hn : g.Live n)
    (hdivision : ∀ x, g.shape? n = some x → x.op.isDivision = true →
      s.draft.graph.isRetired n = false) (h : visit r pass s n = .ok s') : Visited g r n s s' := by
  obtain ⟨x, hx, h⟩ := bind_eq_ok.mp h
  have hx := Graph.node_eq_ok hx
  obtain ⟨z, hz, -⟩ := Graph.exists_shape (hb.describes.used n hn)
  -- Kinds about which nothing is done are settled from the beginning.
  have hidle (hfolded : z.op.isFolded = false) (harm : ∀ side, z.op ≠ .proj (.arm side))
      (hdiv : z.op.isDivision = false) : Visited g r n s s := by
    refine ⟨hs, .refl _, fun _ _ _ _ _ h => h, .of_shape hz ?_ (fun side _ _ hop => ?_) ?_⟩
    · simp [hfolded]
    · exact absurd hop (harm side)
    · simp [hdiv]
  have hkind (hop : x.op ≠ .retired) : z.op = x.op :=
    (hs.image.same hz (Graph.shape?_eq hx) hop).1.symm
  cases hop : x.op with
  | proj k =>
    cases k with
    | arm side =>
      simp only [hop] at h
      exact hs.foldArm hb hn h hx hop
    | _ =>
      simp only [hop] at h
      cases h
      have := hkind (by simp [hop])
      exact hidle (by rw [this, hop]; rfl) (by simp [this, hop]) (by rw [this, hop]; rfl)
  | div =>
    simp only [hop] at h
    exact hs.splice hb hacyclic hn h hx (by rw [hop]; rfl)
  | mod =>
    simp only [hop] at h
    exact hs.splice hb hacyclic hn h hx (by rw [hop]; rfl)
  | phi | binary | cmp | minus | not | conv =>
    simp only [hop] at h
    exact hs.fold hb hn h hx (by rw [hop]; rfl)
  | retired =>
    simp only [hop] at h
    cases h
    have hgone : s.draft.graph.Removed n := ⟨_, Graph.shape?_eq hx, hop⟩
    refine ⟨hs, .refl _, fun _ _ _ _ _ h => h, .of_removed hgone fun y hy => ?_⟩
    by_contra hdiv
    exact Graph.not_removed (hdivision y hy (by simpa using hdiv)) hgone
  | _ =>
    simp only [hop] at h
    cases h
    have := hkind (by simp [hop])
    exact hidle (by rw [this, hop]; rfl) (by simp [this, hop]) (by rw [this, hop]; rfl)

/-- The pass begins with the graph it was given. -/
theorem Mapped.ofDraft (hb : Basis g r) {d : Draft} (hd : d.graph = g) :
    Mapped g r (.ofDraft d) := by
  subst hd
  exact ⟨Image.start hb, fun v n hmem => mem_knownConstants hmem, fun _ _ _ _ => rfl,
    fun _ _ => .inl .refl⟩

/-- A walk that ends has met no cycle of divisions. -/
theorem not_hands_cycle (hb : Basis g r) {w : Walk} (hw : Walk.Complete g w)
    (hapart : Apart g) (p : NodeId) : ¬ Relation.TransGen (Hands g r) p p := by
  intro hcycle
  -- A memory state on the way binds the division it comes from and the state that one consumed.
  have hbinds {p m : NodeId} (h : Hands g r p m) (hm : ∃ k, Hands g r m k) :
      Relation.TransGen g.Binds p m := by
    obtain ⟨d, x, v, hp, hx, hop, ⟨hd, ⟨y, hy, hdiv⟩, -⟩, hmem, hhead⟩ := h
    obtain ⟨k, -, z, -, -, hz, hzop, -⟩ := hm
    obtain ⟨y', hy', rfl⟩ := Option.map_eq_some_iff.mp hy
    obtain ⟨z', hz', rfl⟩ := Option.map_eq_some_iff.mp hz
    have hpd : g.Binds p d := by
      have hin : d ∈ g.inputs p := Graph.mem_inputs.mpr ⟨x, hx, .inr (hmem hapart)⟩
      refine ⟨⟨hin, hb.describes.inUse p d hp hin⟩, y', hy', ?_⟩
      have hdiv : y'.op.isDivision = true := hdiv
      cases hop : y'.op <;> simp [hop, Op.isDivision] at hdiv <;> rfl
    have hdm : g.Binds d m := by
      have hin : m ∈ g.inputs d := by
        refine Graph.mem_inputs.mpr ⟨_, hy, .inr ?_⟩
        rw [← Graph.operands_eq_of_shape hy]
        exact List.mem_of_mem_head? hhead
      refine ⟨⟨hin, hb.describes.inUse d m hd hin⟩, z', hz', ?_⟩
      rw [show z'.op = .proj .memory from hzop]
      rfl
    exact .tail (.single hpd) hdm
  have hlive : g.Live p := by
    obtain ⟨m, ⟨-, -, -, hp, -⟩, -⟩ := Relation.TransGen.head'_iff.mp hcycle
    exact hp
  refine hw.not_knotted ⟨p, hlive, ?_⟩
  have hstep : ∀ q, Relation.TransGen (Hands g r) p q → (∃ k, Hands g r q k) →
      Relation.TransGen g.Binds p q := by
    intro q hpath
    induction hpath with
    | single h => exact hbinds h
    | tail _ h ih =>
      intro hq
      exact (ih ⟨_, h⟩).trans (hbinds h hq)
  obtain ⟨m, hfirst, -⟩ := Relation.TransGen.head'_iff.mp hcycle
  exact hstep p hcycle ⟨m, hfirst⟩

/-- Substituting the facts makes an image, in which every node is settled. -/
theorem exists_image (hb : Basis g r) {pass : String} {d d' : Draft} {c : Counts}
    (hd : d.graph = g) (h : run r pass d = .ok c d') :
    (∃ σ, Image g r σ (allPositions g) (Scope g) d'.graph) ∧
      ∀ n, g.Live n → Settled g r d'.graph n := by
  have h := Editing.change_eq_ok h
  obtain ⟨walk, hwalk, h⟩ := bind_eq_ok.mp h
  obtain ⟨s, hloop, h⟩ := bind_eq_ok.mp h
  cases h
  have hcomplete := Walk.complete_of_run hwalk
  rw [hd] at hcomplete
  have hend := foldlM_eq_ok (I := fun done s => Mapped g r s ∧
      (∀ n ∈ done, Settled g r s.draft.graph n) ∧
      ∀ n x, g.shape? n = some x → x.op.isDivision = true → g.Live n → n ∉ done →
        s.draft.graph.isRetired n = false) hloop
    ⟨.ofDraft hb hd, by simp, fun n x _ _ hn _ => by
      show d.graph.isRetired n = false
      rw [hd]
      exact hb.describes.used n hn⟩ fun done n rest u u' hsplit hu hturn => by
      obtain ⟨hu, hdone, htodo⟩ := hu
      have hfresh : n ∉ done := by
        have hnodup := hcomplete.nodup
        rw [hsplit] at hnodup
        exact fun hmem => (List.nodup_append.mp hnodup).2.2 n hmem n List.mem_cons_self rfl
      have hn : g.Live n := (hcomplete.mem_order n).mp (by rw [hsplit]; simp)
      have hvisit := hu.visit hb (not_hands_cycle hb hcomplete) hn
        (fun x hx hop => htodo n x hx hop hn hfresh) hturn
      refine ⟨hvisit.mapped, fun m hm => ?_, fun m x hx hop hm hnot => ?_⟩
      · rcases List.mem_append.mp hm with hm | hm
        · exact (hdone m hm).descend hvisit.descends
        · obtain rfl := List.mem_singleton.mp hm
          exact hvisit.settled
      · simp only [List.mem_append, List.mem_singleton, not_or] at hnot
        exact hvisit.division m x hx hop hnot.2 (htodo m x hx hop hm hnot.1)
  exact ⟨⟨_, hend.1.image⟩, fun n hn => hend.2.1 n ((hcomplete.mem_order n).mpr hn)⟩

end Substitution

end SeaOfNodes
