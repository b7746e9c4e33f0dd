import Mathlib.Data.List.InsertIdx
import SeaOfNodes.Proofs.Replacing
import SeaOfNodes.Proofs.Sweeping

/-!
The first half of a round of cleaning up makes an image of the graph.

Each of its steps does (`Image.sweep`): a predecessor that is dropped is one that control does not
pass, and a phi that is exchanged is one that control enters at one position only. Along a path of
the image every edge is one that the analysis took, since an arm that it did not take has become
dead control (`Image.admits_of_stands`), and only a chosen arm has become a jump.
-/

namespace SeaOfNodes

open Rewriting

namespace Image

variable {g : Graph} {r : Solution} {σ : NodeId → NodeId} {K : NodeId → List Nat}
  {A : NodeId → Prop} {h h' : Graph}

/-! ### Edges that are left -/

/-- A node that is replaced by a live one is replaced for a reason. -/
theorem gives_of_ne (hi : Image g r σ K A h) {n : NodeId} (hn : g.Live n)
    (hne : σ n ≠ n) : ∃ m, Gives g r h n m ∧ σ n = σ m :=
  (hi.fate n hn).resolve_left hne

theorem ne_stop_of_op (hb : Basis g r) {n : NodeId} {x : Node} (hx : g.nodes[n]? = some x)
    (hop : x.op ≠ .stop) : n ≠ Anchor.stop := hb.ne_stop (Graph.shape?_eq hx) hop

theorem stands_bad (hi : Image g r σ K A h) : σ Anchor.bad = Anchor.bad :=
  hi.self _ (Graph.not_removed (hi.anchor _ (by decide)).2)

/-- An arm that is still there, or a jump in its place, is one that control may pass. -/
theorem admits_of_stands (hi : Image g r σ K A h)
    (hsettled : ∀ n, g.Live n → Substitution.Settled g r h n) {e : NodeId} {x : Node} {side : Bool}
    (he : g.Live e) (hx : g.nodes[e]? = some x) (hop : x.op = .proj (.arm side))
    (hknown : r.assignment.operand x 0 ≠ .unknown) (hbad : σ e ≠ Anchor.bad)
    (hused : h.isRetired (σ e) = false) (hdescribes : r.Describes g) :
    (r.assignment.operand x 0).Admits side := by
  cases hval : r.assignment.operand x 0 with
  | unknown => exact absurd hval hknown
  | varying => trivial
  | constant c =>
    cases hc : c.toBool? with
    | none => exact .inl hc
    | some selected =>
      -- The selector is a constant, so the arm was replaced, and not by dead control.
      obtain ⟨t, ht⟩ : ∃ t, x.operands[0]? = some t := by
        cases ht : x.operands[0]? with
        | none => simp [Assignment.operand, ht] at hval
        | some t => exact ⟨t, rfl⟩
      have hhead : x.operands.head? = some t := by rw [List.head?_eq_getElem?, ht]
      have hvalue : r.assignment.value t = .constant c := by
        simpa [Assignment.operand, ht] using hval
      have hconst : r.constant? t = some c := by
        rw [hdescribes.constant?_eq
          (hdescribes.operands_live he hx t (List.mem_of_getElem? ht)), hvalue]
        rfl
      have hremoved := (hsettled e he).arm _ side t c (Graph.shape?_eq hx) hop hhead hconst
        (by simp [hc])
      have hne : σ e ≠ e := fun heq => Graph.not_removed (heq ▸ hused) hremoved
      obtain ⟨m, hg, hm⟩ := hi.gives_of_ne he hne
      have hshape {y : Shape} (hy : g.shape? e = some y) : y = x.shape := by
        rw [Graph.shape?_eq hx] at hy
        exact (Option.some.inj hy).symm
      have hlast : m ≠ Anchor.bad := by
        rintro rfl
        exact hbad (hm.trans hi.stands_bad)
      cases hg with
      | jump _ hy hop' ht' hv hside =>
        cases hshape hy
        cases hop.symm.trans hop'
        cases hhead.symm.trans ht'
        cases hconst.symm.trans hv
        exact .inr hside
      | dead => exact absurd rfl hlast
      | bury => exact absurd rfl hlast
      | buryJump => exact absurd rfl hlast
      | block => exact absurd rfl hlast
      | fold _ hy hop' =>
        cases hshape hy
        have hop' : x.op.isFolded = true := hop'
        simp [hop, Op.isFolded] at hop'
      | quotient _ hy hop' => cases hshape hy; cases hop.symm.trans hop'
      | splice _ hy hop' => cases hshape hy; cases hop.symm.trans hop'
      | merge _ hy hop' => cases hshape hy; cases hop.symm.trans hop'

/-- Control that leaves a block it came to before the graph was folded passes an edge that was
taken. -/
theorem taken_of_flows (hb : Basis g r) (hi : Image g r σ K A h)
    (hsettled : ∀ n, g.Live n → Substitution.Settled g r h n) (harms : Decided g r.assignment)
    {e s : NodeId} {x : Node} (he : g.Live e) (hx : g.nodes[e]? = some x)
    (hkind : x.op = .jump ∨ x.op = .ret ∨ ∃ side, x.op = .proj (.arm side))
    (hbad : σ e ≠ Anchor.bad) (hused : h.isRetired (σ e) = false)
    (hblock : h.blockOf (σ e) = some s) (hs : r.assignment.reachable s = true) :
    r.assignment.taken e = true := by
  have hin : r.assignment.enters x = true := by
    refine Assignment.enters_eq_true.mpr ⟨s, ?_, hs⟩
    rcases hi.edge_stands hb he (Graph.shape?_eq hx) hkind with
      heq | ⟨b, hxb, -, z, hz, hzb, -⟩ | heq
    · rw [heq] at hused hblock
      obtain ⟨z, hz, -, -, hzb⟩ := hi.exists_same (Graph.shape?_eq hx) hused
      rw [Graph.blockOf_of_shape hz] at hblock
      exact hzb.symm.trans hblock
    · rw [Graph.blockOf_of_shape hz, hzb] at hblock
      exact Eq.trans hxb hblock
    · exact absurd heq hbad
  rcases hkind with hop | hop | ⟨side, hop⟩
  · exact hb.describes.solves.leave e x he hx (.inl hop) hin
  · exact hb.describes.solves.leave e x he hx (.inr hop) hin
  · exact hb.describes.solves.choose e x side he hx hop hin
      (hi.admits_of_stands hsettled he hx hop (harms e x side he hx hop hin) hbad hused
        hb.describes)

/-- Control comes to no block of the image that it did not come to before. -/
theorem reachable_of_flows (hb : Basis g r) (hi : Image g r σ K A h)
    (hsettled : ∀ n, g.Live n → Substitution.Settled g r h n) (harms : Decided g r.assignment)
    {b : NodeId} (hflow : Relation.ReflTransGen (h.FlowsAmong A) Anchor.startBlock b) :
    r.assignment.reachable b = true := by
  induction hflow with
  | refl => exact hb.describes.solves.entry
  | @tail s t _ hlast ih =>
    obtain ⟨hA, ⟨y, hy, hop⟩, p, hp, hbad, hpused, hblock⟩ := hlast
    obtain ⟨hglive, x, hx, hxop⟩ := hi.block_live hA hy hop
    obtain ⟨x', hx', rfl⟩ := Option.map_eq_some_iff.mp hx
    have hstop := ne_stop_of_op hb hx' (by rw [show x'.op = .block from hxop]; simp)
    have hused : h.isRetired t = false := Graph.isRetired_eq_false_iff.mpr ⟨y, hy, by simp [hop]⟩
    rw [hi.operands t hstop hA hglive hused] at hp
    obtain ⟨e, he, rfl⟩ := List.mem_map.mp hp
    obtain ⟨k, -, hk⟩ := mem_pick.mp he
    rw [Graph.operands_eq hx'] at hk
    have hmem : e ∈ x'.operands := List.mem_of_getElem? hk
    have helive := hb.describes.operands_live hglive hx' e hmem
    rcases hb.structured.predecessor t _ hglive hx hxop e hmem with rfl | ⟨z, hz, henters⟩
    · exact absurd hi.stands_bad hbad
    · obtain ⟨z', hz', rfl⟩ := Option.map_eq_some_iff.mp hz
      exact hb.describes.solves.enter t x' hglive hx' hxop e hmem
        (hi.taken_of_flows hb hsettled harms helive hz' (exit_of_entersBlock henters) hbad hpused
          hblock ih)

/-! ### Steps of the first half -/

theorem dropAt_sublist (b : NodeId) (phis : List NodeId) (i : Nat) (n : NodeId) (l : List NodeId) :
    (dropAt b phis i n l).Sublist l := by
  unfold dropAt
  split
  · exact List.eraseIdx_sublist _ _
  · exact .refl _

/-- Where the predecessor at a position is dead, control does not pass the one it stands for. -/
theorem position_ne (hb : Basis g r) (hi : Image g r σ K A h) {b p : NodeId} {x w : Shape} {i : Nat}
    (hA : A b) (hx : g.shape? b = some x) (hxop : x.op = .block) (hlive : g.Live b)
    (hw : h.shape? b = some w) (hwop : w.op = .block) (hat : w.operands[i]? = some p)
    (hdead : p = Anchor.bad ∨ h.isRetired p = true) {j k : Nat} {q : NodeId}
    (hj : (K b)[j]? = some k) (hq : x.operands[k]? = some q)
    (htaken : r.assignment.taken q = true) : j ≠ i := by
  rintro rfl
  have hused : h.isRetired b = false := Graph.isRetired_eq_false_iff.mpr ⟨w, hw, by simp [hwop]⟩
  have hops := hi.operands b (hb.ne_stop hx (by simp [hxop])) hA hlive hused
  rw [Graph.operands_eq_of_shape hw] at hops
  rw [hops, List.getElem?_map, getElem?_pick hi.valid, hj, Option.bind_some,
    Graph.operands_eq_of_shape hx, hq] at hat
  cases hat
  obtain ⟨x', hx', rfl⟩ := Option.map_eq_some_iff.mp hx
  have hqlive := hb.describes.operands_live hlive hx' q (List.mem_of_getElem? hq)
  rcases hdead with hbad | hret
  · exact (hi.taken_stands hb hqlive htaken).1 hbad
  · have hin : σ q ∈ h.inputs b := by
      refine Graph.mem_inputs.mpr ⟨w, hw, .inr ?_⟩
      rw [hops]
      refine List.mem_map.mpr ⟨q, mem_pick.mpr ⟨k, List.mem_of_getElem? hj, ?_⟩, rfl⟩
      rw [Graph.operands_eq_of_shape (Graph.shape?_eq hx')]
      exact hq
    rw [(hi.closed b (σ q) hA hused hin).2] at hret
    cases hret

/-- Dropping a dead predecessor, with the operands of the phis that belong to it, keeps the
image. -/
theorem dropEdge (hb : Basis g r) (hi : Image g r σ K A h) {b p : NodeId} {phis : List NodeId}
    {i : Nat} {w : Shape} (hc : Trims h h' (dropAt b phis i)) (hA : A b)
    (hw : h.shape? b = some w) (hwop : w.op = .block) (hat : w.operands[i]? = some p)
    (hdead : p = Anchor.bad ∨ h.isRetired p = true)
    (hphis : ∀ n ∈ phis, ∃ y, h.shape? n = some y ∧ y.op = .phi ∧ y.block = some b)
    (hall : ∀ n y, A n → h.shape? n = some y → y.op = .phi → y.block = some b → n ∈ phis) :
    Image g r σ (fun n => dropAt b phis i n (K n)) A h' := by
  obtain ⟨hlive, x, hx, hxop⟩ := hi.block_live hA hw hwop
  -- The nodes that lose an operand are the block and phis.
  have hphi {n : NodeId} {z : Shape} (hn : n ∈ phis) (hz : g.shape? n = some z) :
      z.op = .phi ∧ z.block = some b := by
    obtain ⟨y, hy, hyop, hyb⟩ := hphis n hn
    obtain ⟨hop, -, hblock⟩ := hi.same hz hy (by simp [hyop])
    exact ⟨hop.symm.trans hyop, hblock.symm.trans hyb⟩
  have hstay {n : NodeId} {z : Shape} (hz : g.shape? n = some z) (hne : n ≠ b)
      (hop : z.op ≠ .phi) (l : List Nat) : dropAt b phis i n l = l :=
    dropAt_of_not_mem hne (fun hmem => hop (hphi hmem hz).1) i l
  refine hi.trim hc (fun n => dropAt_sublist b phis i n (K n)) ?_ ?_ ?_ ?_
  · intro n hstop hAn hn hnused
    rw [hi.operands n hstop hAn hn hnused]
    unfold dropAt
    split
    · rw [pick_eraseIdx hi.valid, List.eraseIdx_map]
    · rfl
  · intro n z hz hblock hphi
    refine hstay hz ?_ hphi _
    rintro rfl
    rw [hx] at hz
    cases hz
    exact hblock hxop
  · intro n z c hAn hz hzop hzc hnused
    have hn : g.Live n := Scope.live (hi.scope n hAn) hz (by simp [hzop])
    obtain ⟨y, hy, hyop, -, hyb⟩ := hi.exists_same hz hnused
    show dropAt b phis i n (K n) = dropAt b phis i c (K c)
    rw [hi.aligned n z c hAn hz hzop hzc hnused]
    by_cases hcb : c = b
    · subst hcb
      have hmem := hall n y hAn hy (hyop.trans hzop) (hyb.trans hzc)
      rw [dropAt_of_mem hmem, dropAt_self]
    · obtain ⟨c', v, hc', hv, hvop⟩ := hb.structured.placed n z hn hz (by simp [hzop])
      obtain rfl := Option.some.inj (hzc.symm.trans hc')
      rw [hstay hv hcb (by simp [hvop]), dropAt_of_not_mem]
      · rintro rfl
        rw [hx] at hz
        cases hz
        cases hxop.symm.trans hzop
      · exact fun hmem => hcb (Option.some.inj (hzc.symm.trans (hphi hmem hz).2))
  · intro c z hAc hz hzop hcused k q hq htaken
    have hmem := hi.kept c z hAc hz hzop hcused k q hq htaken
    by_cases hcb : c = b
    · subst hcb
      rw [hx] at hz
      cases hz
      obtain ⟨j, hj⟩ := List.mem_iff_getElem?.mp hmem
      rw [dropAt_self]
      exact List.mem_eraseIdx_iff_getElem?.mpr
        ⟨j, hi.position_ne hb hA hx hxop hlive hw hwop hat hdead hj hq htaken, hj⟩
    · show k ∈ dropAt b phis i c (K c)
      rwa [hstay hz hcb (by simp [hzop])]

/-- Exchanging a phi with the one operand it has left keeps the image. -/
theorem mergePhi (hb : Basis g r) (hi : Image g r σ K A h) {n value : NodeId} {y : Shape}
    (hA : A n) (hy : h.shape? n = some y) (hop : y.op = .phi) (hops : y.operands = [value])
    (hreach : ∀ b, y.block = some b → Decided g r.assignment → r.assignment.reachable b = true)
    (hne : n ≠ value) (hex : h.exchange n value = .ok h') :
    Image g r (fun m => if σ m = n then value else σ m) K A h' := by
  obtain ⟨x, hx, hxop, -, hxb⟩ := hi.origin hy (by simp [hop]) (by simp [hop]) (by simp [hop])
  have hxop : x.op = .phi := hxop.symm.trans hop
  have hn : g.Live n := Scope.live (hi.scope n hA) hx (by simp [hxop])
  have hused : h.isRetired n = false := Graph.isRetired_eq_false_iff.mpr ⟨y, hy, by simp [hop]⟩
  obtain ⟨hAv, hvused⟩ := hi.closed n value hA hused
    (Graph.mem_inputs.mpr ⟨y, hy, .inr (by rw [hops]; exact List.mem_singleton_self value)⟩)
  have hanchor : n ∉ Anchor.all := by
    intro hmem
    rcases hb.anchor_kind hmem hx with h | h | h | h <;> cases hxop.symm.trans h
  refine hi.exchange hb hex hne hanchor ?_ hAv hvused fun _ => ?_
  · rintro m z hAm - hz hzop hzb
    obtain ⟨-, w, hw, hwop⟩ := hi.block_of_used hb hAm hz hzop hzb
    rw [hx] at hw
    cases hw
    cases hxop.symm.trans hwop
  · obtain ⟨b, v, hb', hv, hvop⟩ := hb.structured.placed n x hn hx (by simp [hxop])
    obtain ⟨hAb, hbused⟩ := hi.closed n b hA hused
      (Graph.mem_inputs.mpr ⟨y, hy, .inl (hxb.trans hb')⟩)
    have hstop : n ≠ Anchor.stop := hb.ne_stop hx (by simp [hxop])
    -- One position is kept, in the phi as in its block.
    have hlen := hi.length_operands hstop hA hn hused
    rw [Graph.operands_eq_of_shape hy, hops] at hlen
    obtain ⟨k, hk⟩ := List.length_eq_one_iff.mp hlen.symm
    have hkb : K b = [k] := by rw [← hi.aligned n x b hA hx hxop hb' hused, hk]
    have hrename := hi.operands n hstop hA hn hused
    rw [Graph.operands_eq_of_shape hy, hops, hk] at hrename
    have hlt : k < (g.operands n).length := hi.valid k (by rw [hk]; exact List.mem_singleton_self k)
    rw [pick_cons hlt] at hrename
    refine ⟨(g.operands n)[k], .merge (k := k) hn hx hxop hb' ?_ ?_ (hreach b (hxb.trans hb')),
      (List.cons.inj hrename).1.symm, ?_⟩
    · intro j p hp htaken
      have hmem := hi.kept b v hAb hv hvop hbused j p
        (by rwa [Graph.operands_eq_of_shape hv] at hp) htaken
      rwa [hkb, List.mem_singleton] at hmem
    · rw [← Graph.operands_eq_of_shape hx]
      exact List.getElem?_eq_getElem hlt
    · rw [(List.cons.inj hrename).1]
      refine hi.trail _ ?_
      obtain ⟨x', hx', rfl⟩ := Option.map_eq_some_iff.mp hx
      refine hb.describes.operands_live hn hx' _ ?_
      rw [← Graph.operands_eq hx']
      exact List.getElem_mem hlt

/-- A block in use stands in no block. -/
theorem outermost (hb : Basis g r) (hi : Image g r σ K A h) {b : NodeId} {y : Shape} (hA : A b)
    (hy : h.shape? b = some y) (hop : y.op = .block) : y.block = none := by
  obtain ⟨hlive, x, hx, hxop⟩ := hi.block_live hA hy hop
  rw [(hi.same hx hy (by simp [hop])).2.2, hb.structured.outermost b x hlive hx hxop]

/-- An image is orderly. -/
theorem orderly (hb : Basis g r) (hi : Image g r σ K h.Live h) : Cleanup.Orderly h.Live h where
  mirrored := hi.mirrored
  anchor n x hx := by
    obtain ⟨y, hy, hkeep⟩ := hb.built.keeps_anchor hx
    obtain ⟨z, hz, hkeep'⟩ := hi.slot n y hy
    exact ⟨z, hz, hkeep.trans hkeep'⟩
  confined := .of_live h
  outermost _ _ := hi.outermost hb
  predecessor b y hlive hy hop p hp z hz hphi := by
    rcases hi.predecessor hb hlive hy hop hp with rfl | ⟨w, hw, henters⟩
    · obtain ⟨v, hv, hvop, -⟩ := hb.anchor (n := Anchor.bad) rfl (by decide)
      cases hphi.symm.trans ((hi.same hv hz (by simp [hphi])).1.trans hvop)
    · rw [hz] at hw
      cases hw
      rw [hphi] at henters
      cases henters

/-- A step of the first half of a round keeps the image. -/
theorem sweep (hb : Basis g r) (hi : Image g r σ K A h)
    (hsettled : ∀ n, g.Live n → Substitution.Settled g r h n) (hstep : Cleanup.Sweep A h h') :
    ∃ σ' K', Image g r σ' K' A h' := by
  cases hstep with
  | dropEdge hA hw hop hat hdead hphis hall hc =>
    exact ⟨_, _, hi.dropEdge hb hc hA hw hop hat hdead hphis hall⟩
  | mergePhi hA hy hop hops hreach hne hex =>
    exact ⟨_, _, hi.mergePhi hb hA hy hop hops
      (fun b hyb harms => hi.reachable_of_flows hb hsettled harms (hreach b hyb)) hne hex⟩
  | dropKeepAlives hc hother =>
    refine ⟨σ, K, hi.trim hc (fun n => .refl _) (fun n hn hA hlive hu => ?_)
      (fun _ _ _ _ _ => rfl) hi.aligned hi.kept⟩
    rw [hother n hn, hi.operands n hn hA hlive hu]

theorem sweeps (hb : Basis g r) (hi : Image g r σ K A h)
    (hsettled : ∀ n, g.Live n → Substitution.Settled g r h n)
    (hsteps : Relation.ReflTransGen (Cleanup.Sweep A) h h') :
    ∃ σ' K', Image g r σ' K' A h' := by
  suffices h : (∃ σ' K', Image g r σ' K' A h') ∧
      ∀ n, g.Live n → Substitution.Settled g r h' n from h.1
  induction hsteps with
  | refl => exact ⟨⟨σ, K, hi⟩, hsettled⟩
  | tail _ hlast ih =>
    obtain ⟨⟨σ', K', hi'⟩, hsettled'⟩ := ih
    exact ⟨hi'.sweep hb hsettled' hlast,
      fun n hn => (hsettled' n hn).descend (hlast.descends hi'.mirrored)⟩

end Image

end SeaOfNodes
