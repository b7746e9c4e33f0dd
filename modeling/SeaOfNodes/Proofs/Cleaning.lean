import Mathlib.Logic.Function.Basic
import SeaOfNodes.Proofs.Substituting

/-!
Cleaning up keeps what folding tracks.

Blocks that persist stay live and reachable (`Faithful.live`, `Faithful.reachable`), so a round of
cleaning up removes none of them. While a round works, only the nodes that were live when it began
matter: their phis lose the operands of dropped edges, and nothing else can become live again
(`Confined`). At its end what is not live is retired, and all phis left are aligned.
-/

namespace SeaOfNodes

namespace Graph

theorem mem_inputs {g : Graph} {n m : NodeId} :
    m ∈ g.inputs n ↔ ∃ y, g.shape? n = some y ∧ (y.block = some m ∨ m ∈ y.operands) := by
  unfold inputs shape?
  cases g.nodes[n]? with
  | none => simp
  | some x =>
    show m ∈ x.inputs ↔ _
    simp [Node.inputs, Node.shape]

theorem exists_shape {g : Graph} {n : NodeId} (h : g.isRetired n = false) :
    ∃ x, g.shape? n = some x ∧ x.op ≠ .retired := isRetired_eq_false_iff.mp h

theorem lt_size_of_shape? {g : Graph} {n : NodeId} {x : Shape} (h : g.shape? n = some x) :
    n < g.size := by
  obtain ⟨y, hy, -⟩ := Option.map_eq_some_iff.mp h
  exact lt_size_of_getElem? hy

theorem blockOf_of_shape {g : Graph} {n : NodeId} {x : Shape} (h : g.shape? n = some x) :
    g.blockOf n = x.block := by
  obtain ⟨y, hy, rfl⟩ := Option.map_eq_some_iff.mp h
  exact blockOf_eq hy

theorem blockOf_congr {g h : Graph} {n : NodeId} (hn : h.shape? n = g.shape? n) :
    h.blockOf n = g.blockOf n := by
  have hshape (g : Graph) : g.blockOf n = (g.shape? n).bind Shape.block := by
    rw [blockOf, shape?, Option.bind_map]
    rfl
  rw [hshape, hshape, hn]

end Graph

namespace Rewriting

variable {g : Graph} {r : Solution} {h h' : Graph} {kept : NodeId → List Nat}
  {A aligned : NodeId → Prop} {merged : Prop}

/-! ### Slots -/

/-- The nodes of `h` are still in their slots, in use or not. -/
def Descends (h h' : Graph) : Prop :=
  ∀ n y, h.shape? n = some y → ∃ z, h'.shape? n = some z ∧ y.Keeps z

theorem Descends.refl (h : Graph) : Descends h h := fun _ y hy => ⟨y, hy, .refl y⟩

theorem Descends.removed {h h' : Graph} (hd : Descends h h') {n : NodeId} (hn : h.Removed n) :
    h'.Removed n := by
  obtain ⟨y, hy, hop⟩ := hn
  obtain ⟨z, hz, hkeep⟩ := hd n y hy
  exact ⟨z, hz, hkeep.op.elim (fun heq => heq.trans hop) id⟩

theorem Descends.trans {h₁ h₂ h₃ : Graph} (h₁₂ : Descends h₁ h₂) (h₂₃ : Descends h₂ h₃) :
    Descends h₁ h₃ := by
  intro n y hy
  obtain ⟨z, hz, hkeep⟩ := h₁₂ n y hy
  obtain ⟨w, hw, hkeep'⟩ := h₂₃ n z hz
  exact ⟨w, hw, hkeep.trans hkeep'⟩

theorem Contracts.descends {gone : NodeId → Prop} {move : NodeId → NodeId}
    (hc : Contracts h h' gone move) : Descends h h' := fun _ _ hy => hc.keeps hy

/-! ### Weaker forms -/

theorem Faithful.mono (hf : Faithful g r merged aligned kept h) (hA : ∀ n, A n → aligned n) :
    Faithful g r merged A kept h :=
  { hf with
    phi := fun n x b y ht hx hop hb hy hused ha => hf.phi n x b y ht hx hop hb hy hused (hA n ha) }

/-- Before phis are merged there are fewer stand-ins. -/
theorem Faithful.merge (hf : Faithful g r False aligned kept h) :
    Faithful g r True aligned kept h := by
  have hstand : ∀ o m, StandIn g r False h o m → StandIn g r True h o m := by
    rintro o m ⟨o', hpath, hend⟩
    refine ⟨o', Relation.ReflTransGen.mono (fun a b hab => ?_) o o' hpath, hend⟩
    exact hab.imp id fun hfalse => hfalse.1.elim
  refine
    { hf with
      phi := fun n x b y ht hx hop hb hy hused ha => ?_
      node := fun n x y ht hx hop hy hused =>
        (hf.node n x y ht hx hop hy hused).imp fun o m => hstand o m }
  obtain ⟨hlen, hpos⟩ := hf.phi n x b y ht hx hop hb hy hused ha
  refine ⟨hlen, fun i k e o hi hk ho => ?_⟩
  obtain ⟨m, hm, hs⟩ := hpos i k e o hi hk ho
  exact ⟨m, hm, hstand o m hs⟩

/-! ### Blocks that persist are live and reachable -/

/-- A taken edge into a persisting block is continued from the block it left. -/
theorem Faithful.edge (hp : Premises g r) (hf : Faithful g r merged aligned kept h)
    {s t : NodeId} (hlead : r.assignment.Leads g s t) (ht : Persists g r t) :
    ∃ e' ∈ h.operands t, e' ≠ Anchor.bad ∧ h.isRetired e' = false ∧ h.blockOf e' = some s := by
  obtain ⟨e, he, htaken, hblock⟩ := hlead.edge
  obtain ⟨k, hk⟩ := List.mem_iff_getElem?.mp he
  have hk : Enters g r t k e := ⟨hk, htaken⟩
  obtain ⟨i, hi⟩ := List.mem_iff_getElem?.mp (hf.covers t ht k e hk)
  obtain ⟨y, hy, -, -, hpos⟩ := hf.block t ht
  obtain ⟨e', he', hcont⟩ := hpos i k e hi hk
  obtain ⟨z, s', hz, hzs, hes, -⟩ := hcont.exit hp.built hp.describes hf ht hk
  rw [hblock] at hes
  cases hes
  refine ⟨e', ?_, hcont.2.1, hcont.1, ?_⟩
  · rw [Graph.operands_eq_of_shape hy]
    exact List.mem_of_getElem? he'
  · obtain ⟨x, hx, rfl⟩ := Option.map_eq_some_iff.mp hz
    rw [Graph.blockOf_eq hx]
    exact hzs

theorem Faithful.blockInUse (hf : Faithful g r merged aligned kept h) {b : NodeId}
    (hb : Persists g r b) : h.isRetired b = false := by
  obtain ⟨y, hy, hop, -⟩ := hf.block b hb
  exact Graph.isRetired_eq_false_iff.mpr ⟨y, hy, by simp [hop]⟩

/-- What stays is live. -/
theorem Faithful.stays_live (hf : Faithful g r merged aligned kept h) {n : NodeId}
    (hn : Stays g r n) : h.Live n := by
  obtain ⟨hmem, hused⟩ := hf.keepAlive n hn
  obtain ⟨y, hy, hmem⟩ := Graph.mem_operands_of_shape hmem
  have hstop : h.Live Anchor.stop := ⟨Anchor.stop, by simp, .refl⟩
  exact hstop.needs ⟨Graph.mem_inputs.mpr ⟨y, hy, .inr hmem⟩, hused⟩

/-- A block that persists is live. -/
theorem Faithful.live (hp : Premises g r) (hf : Faithful g r merged aligned kept h) {b : NodeId}
    (hb : Persists g r b) : h.Live b := by
  have hstop : h.Live Anchor.stop := ⟨Anchor.stop, by simp, .refl⟩
  obtain ⟨hreach, c, hc, hpath⟩ := hb
  -- From the block that is held backwards along the taken edges.
  suffices hkey : Persists g r b → h.Live b from hkey ⟨hreach, c, hc, hpath⟩
  clear hreach
  induction hpath using Relation.ReflTransGen.head_induction_on with
  | refl =>
    intro hcp
    rcases hc with rfl | hc | ⟨n, hn, hbad, x, hx, hkind, hblock⟩
    · obtain ⟨x, hx, hkeep⟩ := hp.built.keeps_anchor (i := Anchor.stop) rfl
      obtain ⟨y, hy, hkeep'⟩ := hf.slot _ x hx
      exact hstop.needs ⟨Graph.mem_inputs.mpr ⟨y, hy, .inl (hkeep.trans hkeep').block⟩,
        hf.blockInUse hcp⟩
    · exact hf.stays_live ⟨hc, .inl hcp⟩
    · obtain ⟨y, hy, hkeep⟩ := hf.slot n _ (Graph.shape?_eq hx)
      exact (hf.stays_live ⟨hn, .inr ⟨hbad, x, c, hx, hkind, hblock, hcp⟩⟩).needs
        ⟨Graph.mem_inputs.mpr ⟨y, hy, .inl (hkeep.block.trans hblock)⟩, hf.blockInUse hcp⟩
  | @head s t hlead hrest ih =>
    intro hs
    have ht : Persists g r t := by
      obtain ⟨x, hx, hop⟩ := hlead.block
      obtain ⟨e, he, htaken, -⟩ := hlead.edge
      rw [Graph.operands_eq hx] at he
      exact ⟨hp.describes.solves.enter t x hlead.live hx hop e he htaken, c, hc, hrest⟩
    obtain ⟨e', he', -, hused, hblock⟩ := hf.edge hp hlead ht
    obtain ⟨y, hy, -⟩ := hf.block t ht
    rw [Graph.operands_eq_of_shape hy] at he'
    have hedge : h.Live e' := (ih ht).needs ⟨Graph.mem_inputs.mpr ⟨y, hy, .inr he'⟩, hused⟩
    obtain ⟨x, hx, -⟩ := Graph.isRetired_eq_false.mp hused
    rw [Graph.blockOf_eq hx] at hblock
    exact hedge.needs ⟨Graph.mem_inputs.mpr ⟨_, Graph.shape?_eq hx, .inl hblock⟩,
      hf.blockInUse hs⟩

/-- Control reaches a block that persists from the entry. -/
theorem Faithful.reachable (hp : Premises g r) (hf : Faithful g r merged aligned kept h)
    {blocks : List NodeId} (hblocks : ∀ b, Persists g r b → b ∈ blocks) {b : NodeId}
    (hb : Persists g r b) : Relation.ReflTransGen (h.Follows blocks) Anchor.startBlock b := by
  have hpath := hp.describes.reached (hb.live hp.built hp.describes) hb.1
  unfold Assignment.Reached at hpath
  induction hpath with
  | refl => exact .refl
  | tail _ hlead ih =>
    have hpath := ih (.of_leads hp.describes hlead hb)
    exact hpath.tail ⟨hblocks _ hb, hf.edge hp hlead hb⟩

/-! ### What can still become live -/

/-- Everything live in `h` satisfies `A`. -/
structure Confined (A : NodeId → Prop) (h : Graph) : Prop where
  root : ∀ n ∈ [Anchor.stop, Anchor.start, Anchor.bad], A n
  closed : ∀ n m, A n → h.Needs n m → A m

theorem Confined.live (hA : Confined A h) {n : NodeId} (hn : h.Live n) : A n := by
  obtain ⟨root, hroot, hpath⟩ := hn
  induction hpath with
  | refl => exact hA.root root hroot
  | tail _ hneeds ih => exact hA.closed _ _ ih hneeds

theorem Confined.of_live (h : Graph) : Confined h.Live h where
  root n hn := ⟨n, hn, .refl⟩
  closed _ _ hn hm := hn.needs hm

theorem Confined.contract {gone : NodeId → Prop} {move : NodeId → NodeId} (hA : Confined A h)
    (hc : Contracts h h' gone move)
    (hmove : ∀ n m, A n → m ∈ h.operands n → gone m → h'.isRetired (move m) = false →
      A (move m)) : Confined A h' where
  root := hA.root
  closed n m hn hm := by
    obtain ⟨hin, hused⟩ := hm
    have hback (k : NodeId) (hk : h'.isRetired k = false) := (hc.used_before hk).2
    obtain ⟨z, hz, hcase⟩ := Graph.mem_inputs.mp hin
    by_cases hgone : gone n
    · rw [hc.retires n hgone] at hz
      obtain ⟨y, hy, rfl⟩ := Option.map_eq_some_iff.mp hz
      rcases hcase with hblock | hmem
      · exact hA.closed n m hn ⟨Graph.mem_inputs.mpr ⟨y, hy, .inl hblock⟩, hback m hused⟩
      · cases hmem
    · rw [hc.moves n hgone] at hz
      obtain ⟨y, hy, rfl⟩ := Option.map_eq_some_iff.mp hz
      rcases hcase with hblock | hmem
      · exact hA.closed n m hn ⟨Graph.mem_inputs.mpr ⟨y, hy, .inl hblock⟩, hback m hused⟩
      · obtain ⟨k, hk, rfl⟩ := List.mem_map.mp hmem
        by_cases hgone' : gone k
        · exact hmove n k hn (by rwa [Graph.operands_eq_of_shape hy]) hgone' hused
        · rw [hc.stays k hgone'] at hused ⊢
          exact hA.closed n k hn ⟨Graph.mem_inputs.mpr ⟨y, hy, .inr hk⟩, hback k hused⟩

/-! ### Removing operands -/

/-- `h'` is `h` with fewer operands. -/
structure Trims (h h' : Graph) (cut : NodeId → List NodeId → List NodeId) : Prop where
  mirrored : h'.Mirrored
  shape : ∀ n, h'.shape? n = (h.shape? n).map fun y => { y with operands := cut n y.operands }
  sublist : ∀ n l, (cut n l).Sublist l

section trims

variable {cut : NodeId → List NodeId → List NodeId}

theorem Trims.some (hc : Trims h h' cut) {n : NodeId} {y : Shape} (hy : h.shape? n = some y) :
    h'.shape? n = Option.some { y with operands := cut n y.operands } := by
  rw [hc.shape, hy]
  rfl

theorem Trims.descends (hc : Trims h h' cut) : Descends h h' :=
  fun _ _ hy => ⟨_, hc.some hy, .inl rfl, rfl, rfl⟩

theorem Trims.isRetired (hc : Trims h h' cut) (n : NodeId) : h'.isRetired n = h.isRetired n := by
  have hiff : h'.isRetired n = false ↔ h.isRetired n = false := by
    rw [Graph.isRetired_eq_false_iff, Graph.isRetired_eq_false_iff, hc.shape]
    cases h.shape? n <;> simp
  cases hn : h.isRetired n with
  | false => exact hiff.mpr hn
  | true =>
    cases hn' : h'.isRetired n with
    | true => rfl
    | false =>
      rw [hiff.mp hn'] at hn
      cases hn

theorem Trims.removed (hc : Trims h h' cut) {n : NodeId} (hn : h.Removed n) : h'.Removed n := by
  obtain ⟨y, hy, hop⟩ := hn
  exact ⟨_, hc.some hy, hop⟩

theorem Trims.isConstant (hc : Trims h h' cut) {n : NodeId} {v : Literal}
    (hn : h.IsConstant n v) : h'.IsConstant n v := by
  obtain ⟨y, hy, hv⟩ := hn
  exact ⟨_, hc.some hy, hv⟩

theorem Trims.standIn (hc : Trims h h' cut) {o m : NodeId} (hs : StandIn g r merged h o m) :
    StandIn g r merged h' o m := by
  obtain ⟨o', hpath, hend⟩ := hs
  refine ⟨o', hpath, fun ht => ⟨by rw [hc.isRetired, (hend ht).1], (hend ht).2.imp id ?_⟩⟩
  rintro ⟨hdiv, v, hv, hconst⟩
  exact ⟨hdiv, v, hv, hc.isConstant hconst⟩

theorem Trims.continues (hc : Trims h h' cut) {e e' : NodeId} (hcont : Continues g h e e') :
    Continues g h' e e' := by
  obtain ⟨hret, hbad, hcase⟩ := hcont
  refine ⟨by rw [hc.isRetired, hret], hbad, hcase.imp id ?_⟩
  rintro ⟨hsize, hgone, y, hy, hjump⟩
  exact ⟨hsize, hc.removed hgone, _, hc.some hy, hjump⟩

theorem Trims.rests (hc : Trims h h' cut) {n m : NodeId} (hrest : Rests g h n m) :
    Rests g h' n m := by
  rcases hrest with hdep | ⟨v, hv⟩ | hbad | ⟨y, b, hsize, hy, hjump⟩
  · exact .inl hdep
  · exact .inr (.inl ⟨v, hc.isConstant hv⟩)
  · exact .inr (.inr (.inl hbad))
  · exact .inr (.inr (.inr ⟨_, b, hsize, hc.some hy, hjump⟩))

theorem Trims.operands (hc : Trims h h' cut) {n m : NodeId} (hm : m ∈ h'.operands n) :
    m ∈ h.operands n := by
  rw [Graph.operands_of_shape?, hc.shape] at hm
  cases hy : h.shape? n with
  | none => simp [hy] at hm
  | some y =>
    rw [hy] at hm
    rw [Graph.operands_eq_of_shape hy]
    exact (hc.sublist n _).subset hm

theorem Trims.operands_eq (hc : Trims h h' cut) (n : NodeId) :
    h'.operands n = cut n (h.operands n) := by
  rw [Graph.operands_of_shape?, Graph.operands_of_shape?, hc.shape]
  cases h.shape? n with
  | none => exact (List.sublist_nil.mp (hc.sublist n [])).symm
  | some y => rfl

theorem Confined.trim (hA : Confined A h) (hc : Trims h h' cut) : Confined A h' where
  root := hA.root
  closed n m hn hm := by
    obtain ⟨hin, hused⟩ := hm
    refine hA.closed n m hn ⟨?_, by rw [← hc.isRetired, hused]⟩
    obtain ⟨z, hz, hcase⟩ := Graph.mem_inputs.mp hin
    rw [hc.shape] at hz
    obtain ⟨y, hy, rfl⟩ := Option.map_eq_some_iff.mp hz
    exact Graph.mem_inputs.mpr ⟨y, hy, hcase.imp id fun hm => (hc.sublist n _).subset hm⟩

theorem Trims.refl (hm : h.Mirrored) : Trims h h fun _ l => l where
  mirrored := hm
  shape n := by cases h.shape? n <;> rfl
  sublist _ l := .refl l

theorem Trims.trans {h₁ h₂ h₃ : Graph} {cut cut' : NodeId → List NodeId → List NodeId}
    (h₁₂ : Trims h₁ h₂ cut) (h₂₃ : Trims h₂ h₃ cut') :
    Trims h₁ h₃ fun n l => cut' n (cut n l) where
  mirrored := h₂₃.mirrored
  shape n := by
    rw [h₂₃.shape, h₁₂.shape, Option.map_map]
    rfl
  sublist n l := (h₂₃.sublist n _).trans (h₁₂.sublist n l)

/-- Removing one operand. -/
def cutAt (u : NodeId) (i : Nat) (n : NodeId) (l : List NodeId) : List NodeId :=
  if n = u then l.eraseIdx i else l

theorem cutAt_sublist (u : NodeId) (i : Nat) (n : NodeId) (l : List NodeId) :
    (cutAt u i n l).Sublist l := by
  unfold cutAt
  split
  next => exact List.eraseIdx_sublist l i
  next => exact .refl l

theorem Trims.of_removeOperand {u : NodeId} {i : Nat} (hm : h.Mirrored)
    (hr : h.removeOperand u i = .ok h') : Trims h h' (cutAt u i) where
  mirrored := hm.removeOperand hr
  shape n := by
    obtain ⟨old, -, -, hshape, -⟩ := Graph.removeOperand_eq_ok hr
    rw [hshape]
    unfold cutAt
    by_cases hn : n = u
    · simp only [if_pos hn]
    · simp only [if_neg hn]
      cases h.shape? n <;> rfl
  sublist := cutAt_sublist u i

/-- Removing operands keeps what is tracked, if the blocks that persist and their phis lose the
same positions, none of them taken, and other tracked nodes lose nothing. -/
theorem Faithful.trim {kept' : NodeId → List Nat} (hf : Faithful g r merged aligned kept h)
    (hc : Trims h h' cut)
    (hkept : ∀ b, Persists g r b → (kept' b).Pairwise (· < ·))
    (hcovers : ∀ b, Persists g r b → ∀ k e, Enters g r b k e → k ∈ kept' b)
    (hblock : ∀ b y, Persists g r b → h.shape? b = some y →
      (cut b y.operands).length = (kept' b).length ∧
      ∀ (i k : Nat), (kept' b)[i]? = some k →
        ∃ j : Nat, (kept b)[j]? = some k ∧ y.operands[j]? = (cut b y.operands)[i]?)
    (hphi : ∀ n x b y, Tracked g r n → g.nodes[n]? = some x → x.op = .phi → x.block = some b →
      h.shape? n = some y → y.op ≠ .retired → aligned n →
      (cut n y.operands).length = (kept' b).length ∧
      ∀ (i k : Nat), (kept' b)[i]? = some k →
        ∃ j : Nat, (kept b)[j]? = some k ∧ y.operands[j]? = (cut n y.operands)[i]?)
    (hnode : ∀ n x y, Reads g r n → g.nodes[n]? = some x → x.op ≠ .phi →
      h.shape? n = some y → y.op ≠ .retired → cut n y.operands = y.operands)
    (hkeep : ∀ n y, Stays g r n → h.shape? Anchor.stop = some y → n ∈ y.operands →
      n ∈ cut Anchor.stop y.operands) :
    Faithful g r merged aligned kept' h' where
  mirrored := hc.mirrored
  slot n x hx := by
    obtain ⟨y, hy, hkeep⟩ := hf.slot n x hx
    exact ⟨_, hc.some hy, hkeep.op, hkeep.mode, hkeep.block⟩
  fresh n z hn hz := by
    rw [hc.shape] at hz
    obtain ⟨y, hy, rfl⟩ := Option.map_eq_some_iff.mp hz
    obtain ⟨hnil, hkind⟩ := hf.fresh n y hn hy
    refine ⟨List.eq_nil_iff_forall_not_mem.mpr fun m hm => ?_, hkind⟩
    have := (hc.sublist n _).subset hm
    rw [hnil] at this
    cases this
  ascending := hkept
  covers := hcovers
  block b hb := by
    obtain ⟨y, hy, hop, -, hpos⟩ := hf.block b hb
    obtain ⟨hlen, hmap⟩ := hblock b y hb hy
    refine ⟨_, hc.some hy, hop, hlen, fun i k e hi hk => ?_⟩
    obtain ⟨j, hj, heq⟩ := hmap i k hi
    obtain ⟨e', he', hcont⟩ := hpos j k e hj hk
    exact ⟨e', heq ▸ he', hc.continues hcont⟩
  phi n x b z ht hx hop hb hz hused ha := by
    rw [hc.shape] at hz
    obtain ⟨y, hy, rfl⟩ := Option.map_eq_some_iff.mp hz
    obtain ⟨-, hpos⟩ := hf.phi n x b y ht hx hop hb hy hused ha
    obtain ⟨hlen, hmap⟩ := hphi n x b y ht hx hop hb hy hused ha
    refine ⟨hlen, fun i k e o hi hk ho => ?_⟩
    obtain ⟨j, hj, heq⟩ := hmap i k hi
    obtain ⟨m, hm, hs⟩ := hpos j k e o hj hk ho
    exact ⟨m, heq ▸ hm, hc.standIn hs⟩
  node n x z ht hx hop hz hused := by
    rw [hc.shape] at hz
    obtain ⟨y, hy, rfl⟩ := Option.map_eq_some_iff.mp hz
    show List.Forall₂ _ x.operands (cut n y.operands)
    rw [hnode n x y ht hx hop hy hused]
    exact (hf.node n x y ht hx hop hy hused).imp fun _ _ => hc.standIn
  keepAlive n hn := by
    obtain ⟨hold, hused⟩ := hf.keepAlive n hn
    obtain ⟨y, hy, hold⟩ := Graph.mem_operands_of_shape hold
    rw [Graph.operands_eq_of_shape (hc.some hy), hc.isRetired]
    exact ⟨hkeep n y hn hy hold, hused⟩
  rests n m hn hused hm := by
    rw [hc.isRetired] at hused
    exact hc.rests (hf.rests n m hn hused (hc.operands hm))

/-- Jumps keep their places, if no operand in use is removed from a block that persists. -/
theorem Jumps.trim {kept' : NodeId → List Nat} (hj : Jumps g r kept h) (hc : Trims h h' cut)
    (hplace : ∀ b y, Persists g r b → h.shape? b = some y → ∀ (i k : Nat) m,
      (kept b)[i]? = some k → y.operands[i]? = some m → m ≠ Anchor.bad → h.isRetired m = false →
      ∃ j : Nat, (kept' b)[j]? = some k ∧ (cut b y.operands)[j]? = some m)
    (hbad : Anchor.bad < g.size) : Jumps g r kept' h' := by
  intro j z hsize hz hop
  rw [hc.shape] at hz
  obtain ⟨y, hy, rfl⟩ := Option.map_eq_some_iff.mp hz
  obtain ⟨e, x, he, hx, hsel, hgone, hblock, hat⟩ := hj j y hsize hy hop
  refine ⟨e, x, he, hx, hsel, hc.removed hgone, hblock, fun b k hb hk => ?_⟩
  obtain ⟨i, hi, hij⟩ := hat b k hb hk
  obtain ⟨w, hw, -⟩ := Graph.mem_operands_of_shape (List.mem_of_getElem? hij)
  rw [Graph.operands_eq_of_shape hw] at hij
  rw [Graph.operands_eq_of_shape (hc.some hw)]
  refine hplace b w hb hw i k j hi hij ?_ ?_
  · rintro rfl
    exact absurd hsize (Nat.not_le_of_lt hbad)
  · exact Graph.isRetired_eq_false_iff.mpr ⟨y, hy, by rw [show y.op = .jump from hop]; decide⟩

end trims

/-! ### Dead edges -/

/-- Blocks lose predecessors and gain none. -/
theorem Edges.trim (he : Edges g r h) (hc : Trims h h' cut) : Edges g r h' := by
  intro c x hlive hx hop m hm hbad hused
  obtain ⟨e, hex, hcount, horigin⟩ :=
    he c x hlive hx hop m (hc.operands hm) hbad (by rw [← hc.isRetired, hused])
  refine ⟨e, hex, Nat.le_trans ?_ hcount, horigin.imp id ?_⟩
  · obtain ⟨y, hy, -⟩ := Graph.mem_operands_of_shape (hc.operands hm)
    rw [Graph.operands_eq_of_shape (hc.some hy), Graph.operands_eq_of_shape hy]
    exact (hc.sublist c _).count_le m
  · rintro ⟨hsize, u, w, hu, hsel, hw, hjump⟩
    exact ⟨hsize, u, _, hu, hsel, hc.some hw, hjump⟩

/-- The same position is removed from two lists: what is left still matches. -/
theorem exists_position {α : Type} (l : List Nat) (xs : List α) (i : Nat) {j k : Nat}
    (h : (l.eraseIdx i)[j]? = some k) :
    ∃ j' : Nat, l[j']? = some k ∧ xs[j']? = (xs.eraseIdx i)[j]? := by
  rw [List.getElem?_eraseIdx] at h
  rw [List.getElem?_eraseIdx]
  split at h
  next hlt => exact ⟨j, h, by rw [if_pos hlt]⟩
  next hge => exact ⟨j + 1, h, by rw [if_neg hge]⟩

/-- Only what stood at the removed position is gone. -/
theorem exists_position_of_ne {α : Type} (l : List Nat) (xs : List α) {i j k : Nat} {a : α}
    (hij : j ≠ i) (hk : l[j]? = some k) (ha : xs[j]? = some a) :
    ∃ j' : Nat, (l.eraseIdx i)[j']? = some k ∧ (xs.eraseIdx i)[j']? = some a := by
  by_cases hlt : j < i
  · exact ⟨j, by rw [List.getElem?_eraseIdx, if_pos hlt, hk],
      by rw [List.getElem?_eraseIdx, if_pos hlt, ha]⟩
  · have hpos : j - 1 + 1 = j := by omega
    have hge : ¬ j - 1 < i := by omega
    exact ⟨j - 1, by rw [List.getElem?_eraseIdx, if_neg hge, hpos, hk],
      by rw [List.getElem?_eraseIdx, if_neg hge, hpos, ha]⟩

/-- Removes position `i` of a block and of some phis. -/
def dropAt (b : NodeId) (phis : List NodeId) (i : Nat) (n : NodeId) (l : List NodeId) :
    List NodeId := if n = b ∨ n ∈ phis then l.eraseIdx i else l

theorem dropAt_self (b : NodeId) (phis : List NodeId) (i : Nat) (l : List NodeId) :
    dropAt b phis i b l = l.eraseIdx i := if_pos (.inl rfl)

theorem dropAt_of_mem {b n : NodeId} {phis : List NodeId} (hn : n ∈ phis) (i : Nat)
    (l : List NodeId) : dropAt b phis i n l = l.eraseIdx i := if_pos (.inr hn)

theorem dropAt_of_not_mem {b n : NodeId} {phis : List NodeId} (hb : n ≠ b) (hn : n ∉ phis)
    (i : Nat) (l : List NodeId) : dropAt b phis i n l = l := if_neg (not_or.mpr ⟨hb, hn⟩)

/-- Where the edge at a position is dead, no taken edge is continued. -/
theorem Faithful.position_ne (hf : Faithful g r merged A kept h) {b p : NodeId} {i : Nat}
    (hb : Persists g r b) (hat : (h.operands b)[i]? = some p)
    (hdead : p = Anchor.bad ∨ h.isRetired p = true) {j k : Nat} {e : NodeId}
    (hj : (kept b)[j]? = some k) (hk : Enters g r b k e) : j ≠ i := by
  rintro rfl
  obtain ⟨y, hy, -, -, hpos⟩ := hf.block b hb
  obtain ⟨e', he', hret, hbad, -⟩ := hpos j k e hj hk
  rw [Graph.operands_eq_of_shape hy, he'] at hat
  cases hat
  rcases hdead with hdead | hdead
  · exact hbad hdead
  · rw [hret] at hdead
    cases hdead

/-- The edge at position `i` of the block `b` is dead; `phis` are phis of the block. -/
structure DeadEdge (h : Graph) (b : NodeId) (phis : List NodeId) (i : Nat) : Prop where
  block : ∃ w, h.shape? b = some w ∧ w.op = .block
  dead : ∃ p, (h.operands b)[i]? = some p ∧ (p = Anchor.bad ∨ h.isRetired p = true)
  phis : ∀ n ∈ phis, ∃ y, h.shape? n = some y ∧ y.op = .phi ∧ y.block = some b

section deadEdge

variable {b : NodeId} {phis : List NodeId} {i : Nat}

/-- What is no block is not the block that loses the edge. -/
theorem DeadEdge.ne_block (hd : DeadEdge h b phis i) {n : NodeId} {y : Shape}
    (hy : h.shape? n = some y) (hop : y.op ≠ .block) : n ≠ b := by
  rintro rfl
  obtain ⟨w, hw, hwop⟩ := hd.block
  cases hy.symm.trans hw
  exact hop hwop

/-- Nothing but the block and its phis changes. -/
theorem DeadEdge.dropAt_other (hd : DeadEdge h b phis i) {n : NodeId} {y : Shape}
    (hy : h.shape? n = some y) (hn : n ≠ b) (hother : y.op ≠ .phi ∨ y.block ≠ some b)
    (l : List NodeId) : dropAt b phis i n l = l := by
  refine dropAt_of_not_mem hn (fun hmem => ?_) i l
  obtain ⟨z, hz, hop, hblock⟩ := hd.phis n hmem
  cases hy.symm.trans hz
  exact hother.elim (fun hne => hne hop) fun hne => hne hblock

theorem Faithful.ascending_dropEdge (hf : Faithful g r merged A kept h) {c : NodeId}
    (hc : Persists g r c) :
    (Function.update kept b ((kept b).eraseIdx i) c).Pairwise (· < ·) := by
  by_cases hcb : c = b
  · subst hcb
    rw [Function.update_self]
    exact (hf.ascending c hc).sublist (List.eraseIdx_sublist _ _)
  · rw [Function.update_of_ne hcb]
    exact hf.ascending c hc

/-- No taken edge enters at the position of a dead one. -/
theorem Faithful.covers_dropEdge (hf : Faithful g r merged A kept h) (hd : DeadEdge h b phis i)
    {c e : NodeId} {k : Nat} (hc : Persists g r c) (hk : Enters g r c k e) :
    k ∈ Function.update kept b ((kept b).eraseIdx i) c := by
  by_cases hcb : c = b
  · subst hcb
    obtain ⟨p, hp, hdead⟩ := hd.dead
    rw [Function.update_self, List.mem_eraseIdx_iff_getElem?]
    obtain ⟨j, hj⟩ := List.mem_iff_getElem?.mp (hf.covers c hc k e hk)
    exact ⟨j, hf.position_ne hc hp hdead hj hk, hj⟩
  · rw [Function.update_of_ne hcb]
    exact hf.covers c hc k e hk

/-- The predecessors that are left match the positions that are left. -/
theorem Faithful.block_dropEdge (hf : Faithful g r merged A kept h) (hd : DeadEdge h b phis i)
    {c : NodeId} {y : Shape} (hc : Persists g r c) (hy : h.shape? c = some y) :
    (dropAt b phis i c y.operands).length =
        (Function.update kept b ((kept b).eraseIdx i) c).length ∧
      ∀ j k : Nat, (Function.update kept b ((kept b).eraseIdx i) c)[j]? = some k →
        ∃ j' : Nat, (kept c)[j']? = some k ∧
          y.operands[j']? = (dropAt b phis i c y.operands)[j]? := by
  obtain ⟨z, hz, hop, hlen, -⟩ := hf.block c hc
  cases hy.symm.trans hz
  by_cases hcb : c = b
  · subst hcb
    rw [Function.update_self, dropAt_self]
    refine ⟨by rw [List.length_eraseIdx, List.length_eraseIdx, hlen], fun j k hj => ?_⟩
    exact exists_position _ _ i hj
  · rw [Function.update_of_ne hcb, hd.dropAt_other hy hcb (.inl (by simp [hop]))]
    exact ⟨hlen, fun j k hj => ⟨j, hj, rfl⟩⟩

/-- So do the operands of the phis, if no phi of the block is left out. -/
theorem Faithful.phi_dropEdge (hf : Faithful g r merged A kept h) (hd : DeadEdge h b phis i)
    (hall : ∀ n y, A n → h.shape? n = some y → y.op = .phi → y.block = some b → n ∈ phis)
    {n c : NodeId} {x : Node} {y : Shape} (ht : Tracked g r n) (hx : g.nodes[n]? = some x)
    (hop : x.op = .phi) (hxc : x.block = some c) (hy : h.shape? n = some y)
    (hused : y.op ≠ .retired) (hn : A n) :
    (dropAt b phis i n y.operands).length =
        (Function.update kept b ((kept b).eraseIdx i) c).length ∧
      ∀ j k : Nat, (Function.update kept b ((kept b).eraseIdx i) c)[j]? = some k →
        ∃ j' : Nat, (kept c)[j']? = some k ∧
          y.operands[j']? = (dropAt b phis i n y.operands)[j]? := by
  have hkeep := hf.keeps (Graph.shape?_eq hx) hy
  have hphi : y.op = .phi := (hkeep.op.resolve_right hused).trans hop
  have hblock : y.block = some c := hkeep.block.trans hxc
  obtain ⟨hlen, -⟩ := hf.phi n x c y ht hx hop hxc hy hused hn
  by_cases hcb : c = b
  · subst hcb
    rw [Function.update_self, dropAt_of_mem (hall n y hn hy hphi hblock)]
    refine ⟨by rw [List.length_eraseIdx, List.length_eraseIdx, hlen], fun j k hj => ?_⟩
    exact exists_position _ _ i hj
  · have hother : y.block ≠ some b := by
      rw [hblock]
      exact fun heq => hcb (Option.some.inj heq)
    rw [Function.update_of_ne hcb,
      hd.dropAt_other hy (hd.ne_block hy (by simp [hphi])) (.inr hother)]
    exact ⟨hlen, fun j k hj => ⟨j, hj, rfl⟩⟩

/-- Dropping a dead edge keeps what is tracked. -/
theorem Faithful.dropEdge (hf : Faithful g r merged A kept h) (hp : Premises g r)
    (hc : Trims h h' (dropAt b phis i)) (hd : DeadEdge h b phis i)
    (hall : ∀ n y, A n → h.shape? n = some y → y.op = .phi → y.block = some b → n ∈ phis) :
    Faithful g r merged A (Function.update kept b ((kept b).eraseIdx i)) h' := by
  refine hf.trim hc (fun _ hcp => hf.ascending_dropEdge hcp)
    (fun _ hcp _ _ hk => hf.covers_dropEdge hd hcp hk)
    (fun _ _ hcp hy => hf.block_dropEdge hd hcp hy)
    (fun _ _ _ _ ht hx hop hxc hy hused hn => hf.phi_dropEdge hd hall ht hx hop hxc hy hused hn)
    (fun n x y ht hx hop hy hused => ?_) (fun n y _ hy hmem => ?_)
  · have hsame : y.op = x.op := (hf.keeps (Graph.shape?_eq hx) hy).op.resolve_right hused
    rw [← hsame] at hop
    refine hd.dropAt_other hy (hd.ne_block hy ?_) (.inl hop) _
    rw [hsame]
    exact (ht.kind hx).1
  · have hstop : y.op = .stop ∨ y.op = .retired := (hf.anchor hp rfl hy).op
    rwa [hd.dropAt_other hy (hd.ne_block hy ?_) (.inl ?_)]
    · rcases hstop with hstop | hstop <;> simp [hstop]
    · rcases hstop with hstop | hstop <;> simp [hstop]

/-- Dropping a dead edge leaves the jumps where they are. -/
theorem Jumps.dropEdge (hj : Jumps g r kept h) (hf : Faithful g r merged A kept h)
    (hp : Premises g r) (hc : Trims h h' (dropAt b phis i)) (hd : DeadEdge h b phis i) :
    Jumps g r (Function.update kept b ((kept b).eraseIdx i)) h' := by
  refine hj.trim hc (fun c y hcp hy j k m hjk hm hbad hused => ?_) ?_
  · by_cases hcb : c = b
    · subst hcb
      rw [Function.update_self, dropAt_self]
      refine exists_position_of_ne _ _ ?_ hjk hm
      rintro rfl
      obtain ⟨p, hat, hdead⟩ := hd.dead
      rw [Graph.operands_eq_of_shape hy, hm] at hat
      cases hat
      rcases hdead with hdead | hdead
      · exact hbad hdead
      · rw [hused] at hdead
        cases hdead
    · refine ⟨j, by rwa [Function.update_of_ne hcb], ?_⟩
      obtain ⟨z, hz, hop, -⟩ := hf.block c hcp
      rw [hd.dropAt_other hz hcb (.inl (by simp [hop])), hm]
  · obtain ⟨z, hz, -⟩ := hp.built.keeps_anchor (i := Anchor.bad) rfl
    obtain ⟨w, hw, -⟩ := Option.map_eq_some_iff.mp hz
    exact Graph.lt_size_of_getElem? hw

end deadEdge

end Rewriting

end SeaOfNodes
