import SeaOfNodes.Proofs.Pruning
import SeaOfNodes.Proofs.Settling

/-!
Cleaning up makes an image of the graph, and leaves nothing to clean up.

Control reaches what it reached in the graph the image was made from, so the blocks that a round
removes are ones that control never enters (`Cleanup.Buries.image`). With what rounds do to any
graph, an image is tidied (`Cleanup.Tidied`).
-/

namespace SeaOfNodes

open Rewriting

namespace Image

variable {g : Graph} {r : Solution} {σ : NodeId → NodeId} {K : NodeId → List Nat} {h : Graph}

/-! ### Control flow -/

/-- A taken edge into a live block is still there, or a jump in its place. -/
theorem flows_of_leads (hb : Basis g r) (hi : Image g r σ K h.Live h) {s t : NodeId}
    (hlead : r.assignment.Leads g s t) (hlive : h.Live t) : h.Flows s t := by
  obtain ⟨x, hx, hop⟩ := hlead.block
  obtain ⟨e, he, htaken, hs⟩ := hlead.edge
  have hused := (hi.of_live hlive).2
  obtain ⟨y, hy, hyop, -⟩ := hi.exists_same (Graph.shape?_eq hx) hused
  have hstop : t ≠ Anchor.stop :=
    hb.ne_stop (Graph.shape?_eq hx) fun h => by cases hop.symm.trans h
  obtain ⟨k, hk⟩ := List.mem_iff_getElem?.mp he
  rw [Graph.operands_eq hx] at hk he
  have hkept := hi.kept t _ hlive (Graph.shape?_eq hx) hop hused k e hk htaken
  have hmem : σ e ∈ h.operands t := by
    rw [hi.operands t hstop hlive hlead.live hused]
    refine List.mem_map.mpr ⟨e, mem_pick.mpr ⟨k, hkept, ?_⟩, rfl⟩
    rw [Graph.operands_eq hx, hk]
  have helive := hb.describes.operands_live hlead.live hx e he
  obtain ⟨hbad, hstand⟩ := hi.taken_stands hb helive htaken
  rw [Graph.operands_eq_of_shape hy] at hmem
  have heused := (hi.closed t (σ e) hlive hused (Graph.mem_inputs.mpr ⟨y, hy, .inr hmem⟩)).2
  refine ⟨hlive, ⟨y, hy, hyop.trans hop⟩, σ e, ?_, hbad, heused, ?_⟩
  · rwa [Graph.operands_eq_of_shape hy]
  · rcases hstand with hsame | ⟨b, hblock, -, z, hz, hzb, -⟩
    · obtain ⟨z, hz, -⟩ := Graph.exists_shape (hb.describes.used e helive)
      rw [hsame] at heused ⊢
      obtain ⟨w, hw, -, -, hwb⟩ := hi.exists_same hz heused
      rw [Graph.blockOf_of_shape hw, hwb, ← hs, Graph.blockOf_of_shape hz]
    · rw [Graph.blockOf_of_shape hz, hzb, ← hblock, hs]

/-- Control still reaches the live blocks that it entered. -/
theorem reaches (hb : Basis g r) (hi : Image g r σ K h.Live h) {b : NodeId} {y : Shape}
    (hlive : h.Live b) (hy : h.shape? b = some y) (hop : y.op = .block)
    (hreach : r.assignment.reachable b = true) :
    Relation.ReflTransGen h.Flows Anchor.startBlock b := by
  refine Graph.reaches_of_steps (fun s t _ hlead ht => ?_)
    (hb.describes.reached (hi.block_live hlive hy hop).1 hreach) hlive
  have hflow := hi.flows_of_leads hb hlead ht
  obtain ⟨-, -, p, hp, -, hused, hps⟩ := id hflow
  obtain ⟨x, hx, hmem⟩ := Graph.mem_operands_of_shape hp
  have hplive : h.Live p := ht.needs ⟨Graph.mem_inputs.mpr ⟨x, hx, .inr hmem⟩, hused⟩
  obtain ⟨z, hz, -⟩ := Graph.exists_shape hused
  rw [Graph.blockOf_of_shape hz] at hps
  exact ⟨hflow, .inr (hi.closed p s hplive hused (Graph.mem_inputs.mpr ⟨z, hz, .inl hps⟩)).2⟩

end Image

namespace Cleanup

open Image (Basis)

variable {g : Graph} {r : Solution} {d d' : Draft} {σ : NodeId → NodeId} {K : NodeId → List Nat}
  {A : NodeId → Prop} {h t u v : Graph}

/-! ### Unreachable blocks -/

/-- Control never enters a stranded block. -/
theorem reachable_of_stranded (hb : Basis g r) (hi : Image g r σ K h.Live h) {b : NodeId}
    (hstranded : h.Stranded b) :
    (g.Live b ∧ ∃ x, g.shape? b = some x ∧ x.op = .block) ∧
      r.assignment.reachable b = false := by
  obtain ⟨hlive, ⟨y, hy, hop⟩, -, -, hout⟩ := hstranded
  refine ⟨hi.block_live hlive hy hop, Bool.eq_false_iff.mpr fun hreach => ?_⟩
  exact hout (hi.reaches hb hlive hy hop hreach)

/-- What is adrift may be turned into dead control. -/
theorem gives_of_adrift (hb : Basis g r) (hi : Image g r σ K h.Live h) {n : NodeId}
    (hn : h.Adrift n) : Image.Gives g r h n Anchor.bad := by
  rcases hn with hstranded | ⟨hlive, y, b, hy, hyb, hstranded⟩
  · obtain ⟨⟨hlive, x, hx, hop⟩, hreach⟩ := reachable_of_stranded hb hi hstranded
    exact .block hlive hx hop hreach
  · have ⟨_, hreach⟩ := reachable_of_stranded hb hi hstranded
    have hused := (hi.of_live hlive).2
    have hret : y.op ≠ .retired := by
      obtain ⟨z, hz, hzop⟩ := Graph.exists_shape hused
      rw [hy] at hz
      cases hz
      exact hzop
    rcases hi.scope n hlive with hn | hn | ⟨v, x, hx, -, hxb⟩
    · obtain ⟨x, hx, -⟩ := Graph.exists_shape (hb.describes.used n hn)
      obtain ⟨-, -, hblock⟩ := hi.same hx hy hret
      refine .bury hn hx (fun hop => ?_) (hblock.symm.trans hyb) hreach
      rw [hb.structured.outermost n x hn hx hop, hyb] at hblock
      cases hblock
    · rcases (hi.fresh n y hn hy).2 with hop | ⟨-, hstart⟩ | ⟨hop, -⟩
      · exact absurd hop hret
      · exact absurd (Option.some.inj (hyb.symm.trans hstart)) hstranded.2.2.1
      · exact .buryJump ⟨hn, y, hy, hyb, .inl hop⟩ hreach
    · have hblock := (hi.same hx hy hret).2.2
      exact absurd (Option.some.inj (hyb.symm.trans (hblock.trans hxb))) hstranded.2.2.1

/-- Removing unreachable blocks keeps the image. -/
theorem Buries.image (hb : Basis g r) (hi : Image g r σ K h.Live h) {l : List NodeId}
    (hl : Buries h u l) (hmem : ∀ n, n ∈ l ↔ h.Adrift n) :
    Image g r (fun n => if σ n ∈ l then Anchor.bad else σ n) K h.Live u := by
  have hanchor : ∀ n ∈ Anchor.all, n ∉ l := fun n hn hin =>
    (hi.orderly hb).not_adrift_anchor n hn ((hmem n).mp hin)
  have hbad := hi.anchor Anchor.bad (by decide)
  have hself : σ Anchor.bad = Anchor.bad := hi.self _ (Graph.not_removed hbad.2)
  refine hi.contract hb hl (fun n hn => ?_) hanchor (fun n y b hlive hout hy hret hyb hin => ?_)
    (fun n m _ _ _ _ hm => ?_) fun n hn _ hstays _ => ?_
  · have hlive : h.Live n := ((hmem n).mp hn).elim (·.1) (·.1)
    obtain ⟨y, hy, -⟩ := Graph.exists_shape (hi.of_live hlive).2
    exact Graph.lt_size_of_shape? hy
  · -- Blocks stand in no block, so `b` is stranded itself, and `n` stands in it.
    refine hout ((hmem n).mpr ?_)
    rcases (hmem b).mp hin with hstranded | ⟨hblive, z, c, hz, hzc, -⟩
    · exact .inr ⟨hlive, y, b, hy, hyb, hstranded⟩
    · obtain ⟨-, x, hx, hop⟩ := hi.block_of_used hb hlive hy hret hyb
      obtain ⟨w, hw, hwop, -⟩ := hi.exists_same hx (hi.of_live hblive).2
      rw [hz] at hw
      cases hw
      rw [hi.outermost hb hblive hz (hwop.trans hop)] at hzc
      cases hzc
  · simp only [if_pos hm]
    exact ⟨hbad.1, hanchor _ (by decide), hbad.2⟩
  · simp only [if_pos hn]
    refine .single ⟨gives_of_adrift hb hi ((hmem n).mp hn), ?_⟩
    simp only [hstays, if_pos hn, hself, if_neg (hanchor Anchor.bad (by decide))]

/-! ### Rounds -/

/-- What holds of an image after a round. -/
structure Tidied (g : Graph) (r : Solution) (h : Graph) : Prop extends Settled h where
  image : ∃ σ K, Image g r σ K h.Live h

/-- A round keeps the image. -/
theorem Round.tidied (hb : Basis g r) (hi : Image g r σ K h.Live h)
    (hsettled : ∀ n, g.Live n → Substitution.Settled g r h n) (hr : Round h t u v) :
    Tidied g r v := by
  refine ⟨hr.settled (hi.orderly hb), ?_⟩
  obtain ⟨σ₁, K₁, hi₁⟩ := hi.sweeps hb hsettled hr.sweeps
  obtain ⟨l, hl, hmem⟩ := hr.buries
  have hi₂ := (hl.image hb (hi₁.restrict_live hb) hmem).restrict_live hb
  refine ⟨_, _, Image.restrict_live hb (hi₂.remove hb hr.collects (fun n hn => ?_)
    (fun n hn hdead => ?_) ?_)⟩
  · obtain ⟨y, hy, -⟩ := Graph.exists_shape hn.1
    exact Graph.lt_size_of_shape? hy
  · exact hdead.2 (hi₂.anchor n hn).1
  · exact fun n m hn _ hused hin hdead => hdead.2 (hi₂.closed n m hn hused hin).1

/-- A round tidies up. If control reached every block before it, nothing is left to do after
it. -/
theorem round_tidies (hb : Basis g r) (hi : Image g r σ K A d.graph)
    (hsettled : ∀ n, g.Live n → Substitution.Settled g r d.graph n) {c : Counts}
    (h : round d = .ok c d') :
    Tidied g r d'.graph ∧ Descends d.graph d'.graph ∧ (d.graph.Connected → Clean d'.graph) := by
  have hi := hi.restrict_live hb
  obtain ⟨t, u, hr⟩ := Round.of_ok (hi.orderly hb) h
  exact ⟨hr.tidied hb hi hsettled, hr.descends, hr.clean (hi.orderly hb)⟩

/-- Cleaning up leaves nothing to clean up. -/
theorem run_tidies (hb : Basis g r) (hi : Image g r σ K A d.graph)
    (hsettled : ∀ n, g.Live n → Substitution.Settled g r d.graph n) {check : Bool} {c : Counts}
    (h : run check d = .ok c d') :
    Tidied g r d'.graph ∧ Descends d.graph d'.graph ∧ Clean d'.graph := by
  obtain ⟨first, d₁, hfirst, h⟩ := Editing.bind_eq_ok h
  obtain ⟨second, d₂, hsecond, h⟩ := Editing.bind_eq_ok h
  obtain ⟨htidied₁, hdesc₁, -⟩ := round_tidies hb hi hsettled hfirst
  obtain ⟨σ₁, K₁, hi₁⟩ := htidied₁.image
  have hsettled₁ n hn := (hsettled n hn).descend hdesc₁
  obtain ⟨htidied₂, hdesc₂, hclean₂⟩ := round_tidies hb hi₁ hsettled₁ hsecond
  have hdesc := hdesc₁.trans hdesc₂
  cases check with
  | false =>
    cases h
    exact ⟨htidied₂, hdesc, hclean₂ htidied₁.connected⟩
  | true =>
    obtain ⟨extra, d₃, hextra, h⟩ := Editing.bind_eq_ok h
    obtain ⟨d₃', hround, hgraph⟩ := Editing.silently_eq_ok hextra
    obtain ⟨σ₂, K₂, hi₂⟩ := htidied₂.image
    obtain ⟨htidied₃, hdesc₃, hclean₃⟩ :=
      round_tidies hb hi₂ (fun n hn => (hsettled n hn).descend hdesc) hround
    cases hchanged : extra.changed with
    | true =>
      rw [hchanged] at h
      cases h
    | false =>
      rw [hchanged] at h
      cases h
      rw [hgraph]
      exact ⟨htidied₃, hdesc.trans hdesc₃, hclean₃ htidied₂.connected⟩

end Cleanup

end SeaOfNodes
