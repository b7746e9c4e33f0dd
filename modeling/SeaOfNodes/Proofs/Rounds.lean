import SeaOfNodes.Folding
import SeaOfNodes.Proofs.Cleaning

/-!
Rounds of cleaning up keep what folding tracks (`Cleanup.run_eq_ok`), and so does folding as a
whole (`Folding.apply_eq_ok`).

During a round `A` stands for the nodes that were live when it began (`Underway`).
-/

namespace SeaOfNodes

theorem Graph.contains_live {g : Graph} {live : BitSet} (h : g.live = .ok live) {n : NodeId} :
    live.contains n = true ↔ g.Live n := by
  obtain ⟨w, hw, h⟩ := bind_eq_ok.mp h
  cases h
  exact (Walk.complete_of_run hw).contains_iff n

namespace Editing

/-- A sequence succeeds if both its parts do. -/
theorem bind_eq_ok {α β : Type} {x : Editing α} {f : α → Editing β} {d d' : Draft} {b : β}
    (h : (x >>= f) d = .ok b d') : ∃ a d₁, x d = .ok a d₁ ∧ f a d₁ = .ok b d' := by
  have h : EStateM.bind x f d = .ok b d' := h
  unfold EStateM.bind at h
  split at h
  next a d₁ hx => exact ⟨a, d₁, hx, h⟩
  next => cases h

theorem bind_of_ok {α β : Type} {x : Editing α} {d d' : Draft} {a : α} (h : x d = .ok a d')
    (f : α → Editing β) : (x >>= f) d = f a d' := by
  show EStateM.bind x f d = _
  unfold EStateM.bind
  rw [h]

theorem change_of_ok {α : Type} {f : Draft → Except Error (α × Draft)} {d d' : Draft} {a : α}
    (h : f d = .ok (a, d')) : change f d = .ok a d' := by
  unfold change
  rw [h]

theorem silently_eq_ok {α : Type} {act : Editing α} {d d' : Draft} {a : α}
    (h : Editing.silently act d = .ok a d') :
    ∃ d₁, act d = .ok a d₁ ∧ d'.graph = d₁.graph := by
  unfold Editing.silently at h
  split at h
  next a' d₁ hact =>
    cases h
    exact ⟨d₁, hact, rfl⟩
  next => cases h

theorem silently_of_ok {α : Type} {act : Editing α} {d d' : Draft} {a : α}
    (h : act d = .ok a d') : silently act d = .ok a { d' with log := d.log } := by
  unfold silently
  rw [h]

end Editing

namespace Cleanup

open Rewriting

variable {g : Graph} {r : Solution} {A : NodeId → Prop} {d d' : Draft}

/-- What holds within a round that began with the live nodes `A`. -/
structure Underway (g : Graph) (r : Solution) (A : NodeId → Prop) (h : Graph) : Prop where
  tracked : ∃ kept, Faithful g r True A kept h ∧ Jumps g r kept h
  edges : Edges g r h
  confined : Confined A h

theorem Underway.mirrored {h : Graph} (hu : Underway g r A h) : h.Mirrored := by
  obtain ⟨kept, hf, -⟩ := hu.tracked
  exact hf.mirrored

theorem isDead_iff {h : Graph} {n : NodeId} :
    isDead h n = true ↔ n = Anchor.bad ∨ h.isRetired n = true := by
  simp [isDead]

/-- What a round looks up in the graph `h₀` before it changes anything. -/
structure Survey (h₀ : Graph) (blocks : List NodeId) (members : IdMap (List NodeId)) : Prop where
  mem_blocks : ∀ b, b ∈ blocks ↔ h₀.Live b ∧ ∃ y, h₀.shape? b = some y ∧ y.op = .block
  mem_members : ∀ n b, n ∈ members.filed b ↔
    h₀.Live n ∧ ∃ y, h₀.shape? n = some y ∧ y.block = some b
  distinct : blocks.Nodup
  nodup : ∀ b, (members.filed b).Nodup

theorem Survey.of_live {h₀ : Graph} {live : BitSet} {blocks : List NodeId}
    {members : IdMap (List NodeId)} (hlive : h₀.live = .ok live)
    (hblocks : h₀.select (·.op == .block) live.toList = .ok blocks)
    (hmembers : h₀.membersByBlock live.toList = .ok members) : Survey h₀ blocks members where
  mem_blocks b := by
    rw [Graph.mem_select hblocks, BitSet.mem_toList, Graph.contains_live hlive]
    refine and_congr_right fun _ => ⟨?_, ?_⟩
    · rintro ⟨x, hx, hop⟩
      exact ⟨x.shape, Graph.shape?_eq hx, eq_of_beq hop⟩
    · rintro ⟨y, hy, hop⟩
      obtain ⟨x, hx, rfl⟩ := Option.map_eq_some_iff.mp hy
      exact ⟨x, hx, beq_iff_eq.mpr hop⟩
  mem_members n b := by
    rw [Graph.mem_membersByBlock hmembers, BitSet.mem_toList, Graph.contains_live hlive]
    refine and_congr_right fun _ => ⟨fun hblock => ?_, ?_⟩
    · obtain ⟨x, hx, hxb⟩ := Option.bind_eq_some_iff.mp hblock
      exact ⟨x.shape, Graph.shape?_eq hx, hxb⟩
    · rintro ⟨y, hy, hblock⟩
      obtain ⟨x, hx, rfl⟩ := Option.map_eq_some_iff.mp hy
      rw [Graph.blockOf_eq hx]
      exact hblock
  distinct := by
    rw [Graph.select_eq_filter hblocks]
    exact ((BitSet.pairwise_toList live).imp Nat.ne_of_lt).filter _
  nodup b := by
    rw [Graph.filed_membersByBlock hmembers]
    exact ((BitSet.pairwise_toList live).imp Nat.ne_of_lt).filter _

/-- The phis of a block, looked up after operands were removed. -/
theorem Survey.select_phis {h₀ h : Graph} {blocks : List NodeId} {members : IdMap (List NodeId)}
    (hs : Survey h₀ blocks members) {cut : NodeId → List NodeId → List NodeId}
    (hcut : Trims h₀ h cut) {b : NodeId} {phis : List NodeId}
    (hselect : h.select (·.op == .phi) (members.filed b) = .ok phis) :
    phis.Nodup ∧ ∀ n, n ∈ phis ↔
      h₀.Live n ∧ ∃ y, h₀.shape? n = some y ∧ y.op = .phi ∧ y.block = some b := by
  constructor
  · rw [Graph.select_eq_filter hselect]
    exact (hs.nodup b).filter _
  · intro n
    rw [Graph.mem_select hselect, hs.mem_members]
    constructor
    · rintro ⟨⟨hn, y, hy, hblock⟩, z, hz, hop⟩
      refine ⟨hn, y, hy, ?_, hblock⟩
      have hslot := hcut.some hy
      rw [Graph.shape?_eq hz] at hslot
      have heq : z.op = y.op := congrArg Shape.op (Option.some.inj hslot)
      rw [← heq]
      simpa using hop
    · rintro ⟨hn, y, hy, hop, hblock⟩
      obtain ⟨z, hz, heq⟩ := Option.map_eq_some_iff.mp (hcut.some hy)
      have heq : z.op = y.op := congrArg Shape.op heq
      exact ⟨⟨hn, y, hy, hblock⟩, z, hz, by simp [heq, hop]⟩

/-! ### Dead edges -/

/-- A phi loses the operand of a dropped edge, if it had one. -/
theorem dropPhiOperand_eq_ok {i : Nat} {phi : NodeId} (hm : d.graph.Mirrored)
    (h : dropPhiOperand i d phi = .ok d') : Trims d.graph d'.graph (cutAt phi i) := by
  obtain ⟨x, hx, h⟩ := bind_eq_ok.mp h
  split at h
  next => exact .of_removeOperand hm (Draft.edit_eq_ok h)
  next hlen =>
    cases h
    refine ⟨hm, fun n => ?_, cutAt_sublist phi i⟩
    by_cases hn : n = phi
    · subst hn
      rw [Graph.shape?_eq (Graph.node_eq_ok hx)]
      simp [cutAt, Node.shape, List.eraseIdx_of_length_le (Nat.le_of_not_lt hlen)]
    · simp only [cutAt, if_neg hn]
      cases d.graph.shape? n <;> rfl

/-- The phis lose their operands one after the other. -/
theorem dropPhiOperands_eq_ok {b : NodeId} {phis : List NodeId} {i : Nat} {d₁ : Draft}
    (hnodup : phis.Nodup) (hb : b ∉ phis) (hcut : Trims d.graph d₁.graph (cutAt b i))
    (h : phis.foldlM (dropPhiOperand i) d₁ = .ok d') :
    Trims d.graph d'.graph (dropAt b phis i) := by
  refine foldlM_eq_ok (I := fun done s => Trims d.graph s.graph (dropAt b done i)) h ?_
    fun done n rest s t hsplit hs hturn => ?_
  · have : dropAt b [] i = cutAt b i := by
      funext n l
      simp [dropAt, cutAt]
    rwa [this]
  · have hstep := hs.trans (dropPhiOperand_eq_ok hs.mirrored hturn)
    have hn : n ∉ done := by
      rw [hsplit] at hnodup
      exact fun hmem => (List.nodup_append.mp hnodup).2.2 n hmem n List.mem_cons_self rfl
    have hnb : n ≠ b := by
      rintro rfl
      exact hb (by simp [hsplit])
    have : (fun k l => cutAt n i k (dropAt b done i k l)) = dropAt b (done ++ [n]) i := by
      funext k l
      by_cases hk : k = n
      · subst hk
        simp [cutAt, dropAt, hn, hnb]
      · simp [cutAt, dropAt, hk]
    rwa [this] at hstep

/-- A predecessor that is dropped was dead, and the phis lose their operands with it. -/
theorem dropDeadEdge_eq_ok {b : NodeId} {phis : List NodeId} {i : Nat} {k k' : Nat}
    (hm : d.graph.Mirrored) (hnodup : phis.Nodup) (hb : b ∉ phis)
    (h : dropDeadEdge b phis (d, k) i = .ok (d', k')) :
    ∃ p, (d.graph.operands b)[i]? = some p ∧
      (d' = d ∧ isDead d.graph p = false ∧ k' = k ∨
        Trims d.graph d'.graph (dropAt b phis i) ∧ isDead d.graph p = true ∧ k' = k + 1) := by
  obtain ⟨x, hx, h⟩ := bind_eq_ok.mp h
  have hops := Graph.operands_eq (Graph.node_eq_ok hx)
  split at h
  next => cases h
  next p hp =>
    split at h
    next hdead =>
      obtain ⟨d₁, hd₁, h⟩ := bind_eq_ok.mp h
      obtain ⟨d₂, hd₂, h⟩ := bind_eq_ok.mp h
      cases h
      have hcut := Trims.of_removeOperand hm (Draft.edit_eq_ok hd₁)
      have hall := dropPhiOperands_eq_ok hnodup hb hcut hd₂
      exact ⟨p, hops ▸ hp, .inr ⟨hall, hdead, rfl⟩⟩
    next hdead =>
      cases h
      exact ⟨p, hops ▸ hp, .inl ⟨rfl, Bool.eq_false_iff.mpr hdead, rfl⟩⟩

theorem Underway.dropDeadEdge (hp : Premises g r) {h₀ : Graph} {blocks : List NodeId}
    {members : IdMap (List NodeId)} (hs : Survey h₀ blocks members) {b : NodeId}
    (hb : b ∈ blocks) {phis : List NodeId} {cut : NodeId → List NodeId → List NodeId}
    (hphis : ∀ n, n ∈ phis ↔
      h₀.Live n ∧ ∃ y, h₀.shape? n = some y ∧ y.op = .phi ∧ y.block = some b)
    (hnodup : phis.Nodup) (hcut : Trims h₀ d.graph cut) (hu : Underway g r h₀.Live d.graph)
    {k k' i : Nat} (h : dropDeadEdge b phis (d, k) i = .ok (d', k')) :
    (∃ cut', Trims h₀ d'.graph cut') ∧ Underway g r h₀.Live d'.graph := by
  obtain ⟨-, w, hw, hwop⟩ := (hs.mem_blocks b).mp hb
  have hphi : ∀ n ∈ phis, ∃ y, h₀.shape? n = some y ∧ y.op = .phi ∧ y.block = some b :=
    fun n hn => ((hphis n).mp hn).2
  have hout : b ∉ phis := by
    intro hmem
    obtain ⟨y, hy, hop, -⟩ := hphi b hmem
    rw [hw] at hy
    cases hy
    rw [hwop] at hop
    cases hop
  obtain ⟨p, hat, ⟨rfl, -⟩ | ⟨htrim, hdead, -⟩⟩ := dropDeadEdge_eq_ok hu.mirrored hnodup hout h
  · exact ⟨⟨cut, hcut⟩, hu⟩
  · have hdead := isDead_iff.mp hdead
    obtain ⟨⟨kept, hf, hj⟩, hedges, hconf⟩ := hu
    have hnow : ∀ n ∈ phis, ∃ y, d.graph.shape? n = some y ∧ y.op = .phi ∧ y.block = some b := by
      intro n hn
      obtain ⟨y, hy, hkind⟩ := hphi n hn
      exact ⟨_, hcut.some hy, hkind⟩
    have hall : ∀ n y, h₀.Live n → d.graph.shape? n = some y → y.op = .phi →
        y.block = some b → n ∈ phis := by
      intro n y hn hy hop hblock
      rw [hcut.shape] at hy
      obtain ⟨z, hz, rfl⟩ := Option.map_eq_some_iff.mp hy
      exact (hphis n).mpr ⟨hn, z, hz, hop, hblock⟩
    have hedge : DeadEdge d.graph b phis i := ⟨⟨_, hcut.some hw, hwop⟩, ⟨p, hat, hdead⟩, hnow⟩
    exact ⟨⟨_, hcut.trans htrim⟩,
      ⟨_, hf.dropEdge hp htrim hedge hall, hj.dropEdge hf hp htrim hedge⟩, hedges.trim htrim,
      hconf.trim htrim⟩

/-- Dropping the dead edges into one block. -/
theorem Underway.dropDeadEdges (hp : Premises g r) {h₀ : Graph} {blocks : List NodeId}
    {members : IdMap (List NodeId)} (hs : Survey h₀ blocks members) {b : NodeId}
    (hb : b ∈ blocks) {s s' : Draft × Nat}
    (hcut : ∃ cut, Trims h₀ s.1.graph cut) (hu : Underway g r h₀.Live s.1.graph)
    (h : dropDeadEdges members s b = .ok s') :
    (∃ cut, Trims h₀ s'.1.graph cut) ∧ Underway g r h₀.Live s'.1.graph := by
  obtain ⟨phis, hselect, h⟩ := bind_eq_ok.mp h
  obtain ⟨x, -, h⟩ := bind_eq_ok.mp h
  have ⟨hnodup, hphis⟩ := hcut.elim fun _ hcut => hs.select_phis hcut hselect
  refine foldlM_eq_ok (I := fun _ t => (∃ cut, Trims h₀ t.1.graph cut) ∧
    Underway g r h₀.Live t.1.graph) h ⟨hcut, hu⟩ fun done i rest t t' _ ht hturn => ?_
  obtain ⟨⟨cut, hcut⟩, hu⟩ := ht
  exact hu.dropDeadEdge hp hs hb hphis hnodup hcut hturn

/-! ### Phis that combine nothing -/

/-- The phi `n` combines something, or itself only. -/
def Combines (t : Graph) (n : NodeId) : Prop :=
  ∀ y, t.shape? n = some y → y.op = .phi → ∀ v, y.operands = [v] → v = n

/-- A phi that combines nothing but another node is exchanged with that. -/
theorem mergePhi_eq_ok {s s' : Draft × Nat} {n : NodeId} (h : mergePhi s n = .ok s') :
    s' = s ∧ Combines s.1.graph n ∨
      ∃ x value, s.1.graph.nodes[n]? = some x ∧ x.op = .phi ∧ x.operands = [value] ∧ n ≠ value ∧
        s.1.graph.exchange n value = .ok s'.1.graph ∧ s'.2 = s.2 + 1 := by
  obtain ⟨x, hx, h⟩ := bind_eq_ok.mp h
  have hx := Graph.node_eq_ok hx
  have hshape {y : Shape} (hy : s.1.graph.shape? n = some y) : y = x.shape :=
    Option.some.inj (hy.symm.trans (Graph.shape?_eq hx))
  split at h
  next value hop hops =>
    split at h
    next hself =>
      cases h
      refine .inl ⟨rfl, fun y hy _ v hv => ?_⟩
      obtain rfl := hshape hy
      cases hops.symm.trans hv
      exact hself
    next hne =>
      obtain ⟨d₁, hd₁, h⟩ := bind_eq_ok.mp h
      cases h
      exact .inr ⟨x, value, hx, hop, hops, fun heq => hne heq.symm, Draft.edit_eq_ok hd₁, rfl⟩
  next hother =>
    cases h
    refine .inl ⟨rfl, fun y hy hyop v hv => ?_⟩
    obtain rfl := hshape hy
    exact absurd hv (hother v hyop)

/-- The operand of a phi with one operand left stands in for it. -/
theorem merges_of_phi (hp : Premises g r) {kept : NodeId → List Nat} {h : Graph}
    (hf : Faithful g r True A kept h) {n value : NodeId} {y : Shape} (ht : Tracked g r n)
    (hy : h.shape? n = some y) (hop : y.op = .phi) (hops : y.operands = [value]) (hn : A n) :
    StandIn g r True h n value := by
  obtain ⟨x, hstand⟩ := ht.standing
  obtain ⟨b, hxb, hb, hentry⟩ := hstand.block
  have hkeep := hf.keeps (Graph.shape?_eq hstand.slot) hy
  have hused : y.op ≠ .retired := by simp [hop]
  have hxop : x.op = .phi := (hkeep.op.resolve_right hused).symm.trans hop
  obtain ⟨hlen, hpos⟩ := hf.phi n x b y ht hstand.slot hxop hxb hy hused hn
  -- Control enters the block somewhere, so the one position kept is the one it is entered at.
  obtain ⟨e, k, hk⟩ : ∃ e k, Enters g r b k e := by
    cases hp.describes.reached (hb.live hp.built hp.describes) hb.1 with
    | refl => exact absurd rfl (hentry hxop)
    | tail _ hlead =>
      obtain ⟨e, he, htaken, -⟩ := hlead.edge
      obtain ⟨k, hk⟩ := List.mem_iff_getElem?.mp he
      exact ⟨e, k, hk, htaken⟩
  have hone : (kept b).length = 1 := by rw [← hlen, hops, List.length_singleton]
  obtain ⟨k', hkept⟩ := List.length_eq_one_iff.mp hone
  have hsole : ∀ j e, Enters g r b j e → j = k' := by
    intro j e hj
    have hmem := hf.covers b hb j e hj
    rwa [hkept, List.mem_singleton] at hmem
  obtain rfl := hsole k e hk
  have hin : k < x.operands.length := by
    obtain ⟨c, w, hc, hw, -, hcount⟩ := hp.verified.phi n x hstand.live hstand.slot hxop
    rw [hxb] at hc
    cases hc
    have hlt := (List.getElem?_eq_some_iff.mp hk.1).1
    rwa [Graph.operands_eq hw, ← hcount] at hlt
  obtain ⟨o, ho⟩ : ∃ o, x.operands[k]? = some o := ⟨_, List.getElem?_eq_getElem hin⟩
  obtain ⟨m, hm, hs⟩ := hpos 0 k e o (by rw [hkept]; rfl) hk ho
  rw [hops] at hm
  cases hm
  have hmerge : Merges g r n o := ⟨x, b, k, hstand.slot, hxop, hxb, ⟨⟨e, hk⟩, hsole⟩, ho⟩
  exact hs.trans (.single (.inr ⟨trivial, hmerge⟩))

/-- Exchanging a phi that was live when the round began with its one operand. -/
theorem Underway.exchangePhi (hp : Premises g r) {h h' : Graph} (hu : Underway g r A h)
    {n value : NodeId} {x : Node} (hn : A n) (hx : h.nodes[n]? = some x) (hop : x.op = .phi)
    (hops : x.operands = [value]) (hne : n ≠ value) (hex : h.exchange n value = .ok h') :
    Underway g r A h' := by
  have hy := Graph.shape?_eq hx
  have hyop : x.shape.op = .phi := hop
  have hused : h.isRetired n = false := Graph.isRetired_eq_false.mpr ⟨x, hx, by simp [hop]⟩
  have hmem : value ∈ h.operands n := by
    rw [Graph.operands_eq hx, hops]
    exact List.mem_singleton_self value
  obtain ⟨⟨kept, hf, hj⟩, hedges, hconf⟩ := hu
  have hblock : ¬ Persists g r n := by
    intro hb
    obtain ⟨z, hz, hzop, -⟩ := hf.block n hb
    rw [hy] at hz
    cases hz
    exact absurd (hyop.symm.trans hzop) (by decide)
  have hstays : ¬ Stays g r n := by
    rintro ⟨-, hn | ⟨-, z, b, hz, hzop, -⟩⟩
    · exact hblock hn
    · rw [← (hf.same hz hx (by simp [hop])).1, hop] at hzop
      cases hzop
  have hanchor : ∀ z, (Graph.new "" 0).shape? n = some z → z.op ≠ .phi → False := by
    intro z hz hzop
    rcases (hf.anchor hp hz hy).op with heq | heq
    · exact hzop (heq.symm.trans hyop)
    · exact absurd (hyop.symm.trans heq) (by decide)
  have hc := Contracts.of_exchange hf.mirrored hne hex
  refine ⟨⟨kept, ?_, hj.exchange hf.mirrored hex hblock⟩,
    hedges.exchange hp hf hex hy (.inr (by simp [hyop])), hconf.contract hc ?_⟩
  · refine hf.exchange hex hblock hstays ?_ ?_ ?_ ?_ ?_
    · rintro rfl
      exact hanchor _ rfl (by decide)
    · rintro v ⟨z, hz, hzop, -⟩
      rw [hy] at hz
      cases hz
      simp [hyop] at hzop
    · exact fun ht => merges_of_phi hp hf ht hy hop hops hn
    · intro b e hb he htaken _ hcont
      obtain ⟨i, hi⟩ := List.mem_iff_getElem?.mp he
      obtain ⟨z, s, hz, -, -, -, hkind⟩ := hcont.exit hp.built hp.describes hf hb ⟨hi, htaken⟩
      rw [hy] at hz
      cases hz
      simp [hyop] at hkind
    · intro m hm hrest
      have hbad : n ≠ Anchor.bad := by
        rintro rfl
        exact hanchor _ rfl (by decide)
      have hdep := Substitution.depends_of_rests hy (by simp [hyop]) (by simp [hyop]) hbad hrest
      exact .trans hdep (hf.rests n value (hm.trans hdep) hused hmem)
  · rintro u m - - rfl hnew
    rw [if_pos rfl] at hnew ⊢
    refine hconf.closed m value hn ⟨?_, ?_⟩
    · exact Graph.mem_inputs.mpr ⟨x.shape, hy, .inr (by simp [Node.shape, hops])⟩
    · rwa [hc.isRetired (fun heq => hne heq.symm)] at hnew

theorem Underway.mergePhi (hp : Premises g r) (hu : Underway g r A d.graph) {n : NodeId}
    (hn : A n) {k k' : Nat} (h : mergePhi (d, k) n = .ok (d', k')) :
    Underway g r A d'.graph := by
  rcases mergePhi_eq_ok h with ⟨heq, -⟩ | ⟨x, value, hx, hop, hops, hne, hex, -⟩
  · cases heq
    exact hu
  · exact hu.exchangePhi hp hn hx hop hops hne hex

theorem Underway.mergePhis (hp : Premises g r) {members : IdMap (List NodeId)}
    {reachable : BitSet} {b : NodeId} (hmembers : ∀ n ∈ members.filed b, A n)
    {s s' : Draft × Nat} (hu : Underway g r A s.1.graph)
    (h : mergePhis members reachable s b = .ok s') : Underway g r A s'.1.graph := by
  obtain ⟨x, -, h⟩ := bind_eq_ok.mp h
  split at h
  next =>
    refine foldlM_eq_ok (I := fun _ t => Underway g r A t.1.graph) h hu
      fun done n rest t t' hsplit ht hturn => ?_
    exact ht.mergePhi hp (hmembers n (by simp [hsplit])) hturn
  next =>
    cases h
    exact hu

/-! ### Keep-alives -/

/-- The keep-alives that stay. -/
def keptAlive (h : Graph) : List NodeId → List NodeId
  | [] => []
  | n :: later =>
    if isDead h n || later.contains n then keptAlive h later else n :: keptAlive h later

theorem mem_keptAlive {h : Graph} {n : NodeId} {l : List NodeId} :
    n ∈ keptAlive h l ↔ n ∈ l ∧ isDead h n = false := by
  induction l with
  | nil => simp [keptAlive]
  | cons m later ih =>
    by_cases hm : isDead h m || later.contains m
    · rw [keptAlive, if_pos hm, ih, List.mem_cons]
      constructor
      · exact fun ⟨hin, hdead⟩ => ⟨.inr hin, hdead⟩
      · rintro ⟨rfl | hin, hdead⟩
        · simp only [hdead, Bool.false_or, List.contains_eq_mem, decide_eq_true_eq] at hm
          exact ⟨hm, hdead⟩
        · exact ⟨hin, hdead⟩
    · rw [keptAlive, if_neg hm, List.mem_cons, List.mem_cons, ih]
      constructor
      · rintro (rfl | ⟨hin, hdead⟩)
        · exact ⟨.inl rfl, by simp_all⟩
        · exact ⟨.inr hin, hdead⟩
      · rintro ⟨rfl | hin, hdead⟩
        · exact .inl rfl
        · exact .inr ⟨hin, hdead⟩

/-- Removing the stale positions, the last first, leaves what stays. -/
theorem foldl_eraseIdx_staleKeepAlives (h : Graph) (before l : List NodeId) :
    (staleKeepAlives h l before.length).foldl List.eraseIdx (before ++ l) =
      before ++ keptAlive h l := by
  induction l generalizing before with
  | nil => rfl
  | cons n later ih =>
    have hlater := ih (before ++ [n])
    rw [List.length_append, List.length_singleton, List.append_assoc, List.append_assoc,
      List.singleton_append, List.singleton_append] at hlater
    by_cases hn : isDead h n || later.contains n
    · simp only [staleKeepAlives, keptAlive, if_pos hn]
      rw [List.foldl_append, hlater, List.foldl_cons, List.foldl_nil,
        List.eraseIdx_append_of_length_le (Nat.le_refl _), Nat.sub_self, List.eraseIdx_cons_zero]
    · simp only [staleKeepAlives, keptAlive, if_neg hn]
      exact hlater

theorem dropKeepAlives_eq_ok (hm : d.graph.Mirrored) {k : Nat}
    (h : dropKeepAlives d = .ok (d', k)) :
    ∃ cut, Trims d.graph d'.graph cut ∧ (∀ n, n ≠ Anchor.stop → ∀ l, cut n l = l) ∧
      ∀ y, d.graph.shape? Anchor.stop = some y →
        cut Anchor.stop y.operands = keptAlive d.graph y.operands := by
  obtain ⟨alive, halive, h⟩ := bind_eq_ok.mp h
  obtain ⟨x, hx, halive⟩ := bind_eq_ok.mp halive
  cases halive
  obtain ⟨d₁, hloop, h⟩ := bind_eq_ok.mp h
  cases h
  have hcut := foldlM_eq_ok (I := fun done s => Trims d.graph s.graph fun n l =>
      if n = Anchor.stop then done.foldl List.eraseIdx l else l) hloop ?_
    fun done i rest s t _ hs hturn => ?_
  · refine ⟨_, hcut, fun n hn l => if_neg hn, fun y hy => ?_⟩
    rw [Graph.shape?_eq (Graph.node_eq_ok hx)] at hy
    cases hy
    rw [if_pos rfl]
    exact foldl_eraseIdx_staleKeepAlives d.graph [] x.operands
  · have hnil : (fun n l => if n = Anchor.stop then ([] : List Nat).foldl List.eraseIdx l else l) =
        fun (_ : NodeId) (l : List NodeId) => l := by
      funext n l
      rw [List.foldl_nil, ite_self]
    rw [hnil]
    exact .refl hm
  · have hstep := hs.trans (.of_removeOperand hs.mirrored (Draft.edit_eq_ok hturn))
    have hsnoc : (fun n l => cutAt Anchor.stop i n
        (if n = Anchor.stop then done.foldl List.eraseIdx l else l)) =
        fun (n : NodeId) (l : List NodeId) =>
          if n = Anchor.stop then (done ++ [i]).foldl List.eraseIdx l else l := by
      funext n l
      by_cases hn : n = Anchor.stop
      · simp [cutAt, hn]
      · simp [cutAt, hn]
    rwa [hsnoc] at hstep

/-- What stays is not among the keep-alives that are dropped. -/
theorem Underway.dropKeepAlives (hp : Premises g r) (hu : Underway g r A d.graph) {k : Nat}
    (h : dropKeepAlives d = .ok (d', k)) : Underway g r A d'.graph := by
  obtain ⟨cut, hcut, hother, hstop⟩ := dropKeepAlives_eq_ok hu.mirrored h
  obtain ⟨⟨kept, hf, hj⟩, hedges, hconf⟩ := hu
  have hne : ∀ n y, d.graph.shape? n = some y → y.op ≠ .stop → y.op ≠ .retired →
      n ≠ Anchor.stop := by
    rintro n y hy hop hused rfl
    exact (hf.anchor hp rfl hy).op.elim hop hused
  have hblock : ∀ b y, Persists g r b → d.graph.shape? b = some y → b ≠ Anchor.stop := by
    intro b y hb hy
    obtain ⟨z, hz, hop, -⟩ := hf.block b hb
    rw [hy] at hz
    cases hz
    exact hne b y hy (by simp [hop]) (by simp [hop])
  refine ⟨⟨kept, hf.trim hcut hf.ascending hf.covers ?_ ?_ ?_ ?_, hj.trim hcut ?_ ?_⟩,
    hedges.trim hcut, hconf.trim hcut⟩
  · intro b y hb hy
    obtain ⟨z, hz, -, hlen, -⟩ := hf.block b hb
    rw [hy] at hz
    cases hz
    rw [hother b (hblock b y hb hy)]
    exact ⟨hlen, fun i k hi => ⟨i, hi, rfl⟩⟩
  · intro n x b y ht hx hop hb hy hused ha
    have hkeep := hf.keeps (Graph.shape?_eq hx) hy
    have hyop : y.op = .phi := (hkeep.op.resolve_right hused).trans hop
    rw [hother n (hne n y hy (by simp [hyop]) hused)]
    exact ⟨(hf.phi n x b y ht hx hop hb hy hused ha).1, fun i k hi => ⟨i, hi, rfl⟩⟩
  · intro n x y ht hx _ hy hused
    have hkeep := hf.keeps (Graph.shape?_eq hx) hy
    refine hother n (hne n y hy ?_ hused) _
    rw [hkeep.op.resolve_right hused]
    exact (ht.kind hx).2
  · intro n y hn hy hmem
    rw [hstop y hy, mem_keptAlive]
    refine ⟨hmem, ?_⟩
    rw [← Bool.not_eq_true, isDead_iff]
    rintro (rfl | hret)
    · rcases hn.2 with hb | ⟨hbad, -⟩
      · obtain ⟨z, hz, hop, -⟩ := hf.block _ hb
        rcases (hf.anchor hp rfl hz).op with heq | heq <;> rw [hop] at heq <;> cases heq
      · exact hbad rfl
    · rw [(hf.keepAlive n hn).2] at hret
      cases hret
  · intro b y hb hy i k m hi hm _ _
    rw [hother b (hblock b y hb hy)]
    exact ⟨i, hi, hm⟩
  · obtain ⟨z, hz, -⟩ := hp.built.keeps_anchor (i := Anchor.bad) rfl
    obtain ⟨w, hw, -⟩ := Option.map_eq_some_iff.mp hz
    exact Graph.lt_size_of_getElem? hw

/-- The parts of the first half of a round. -/
theorem exists_of_removeDeadEdges {c : Counts} (h : removeDeadEdges d = .ok c d') :
    ∃ blocks members d₁ reachable d₂, Survey d.graph blocks members ∧
      blocks.foldlM (dropDeadEdges members) (d, 0) = .ok (d₁, c.edges) ∧
      d₁.graph.reachableBlocks blocks = .ok reachable ∧
      blocks.foldlM (mergePhis members reachable) (d₁, 0) = .ok (d₂, c.phis) ∧
      dropKeepAlives d₂ = .ok (d', c.keepAlives) := by
  have h := Editing.change_eq_ok h
  obtain ⟨live, hlive, h⟩ := bind_eq_ok.mp h
  obtain ⟨blocks, hblocks, h⟩ := bind_eq_ok.mp h
  obtain ⟨members, hmembers, h⟩ := bind_eq_ok.mp h
  obtain ⟨⟨d₁, edges⟩, hedges, h⟩ := bind_eq_ok.mp h
  obtain ⟨reachable, hreachable, h⟩ := bind_eq_ok.mp h
  obtain ⟨⟨d₂, phis⟩, hphis, h⟩ := bind_eq_ok.mp h
  obtain ⟨⟨d₃, alive⟩, hkeep, h⟩ := bind_eq_ok.mp h
  cases h
  exact ⟨blocks, members, d₁, reachable, d₂, .of_live hlive hblocks hmembers, hedges, hreachable,
    hphis, hkeep⟩

/-- The first half of a round. -/
theorem removeDeadEdges_eq_ok (hp : Premises g r) (hu : Underway g r d.graph.Live d.graph)
    {c : Counts} (h : removeDeadEdges d = .ok c d') : Underway g r d.graph.Live d'.graph := by
  obtain ⟨blocks, members, d₁, reachable, d₂, hs, hedges, -, hphis, hkeep⟩ :=
    exists_of_removeDeadEdges h
  have h₁ := foldlM_eq_ok (I := fun _ t => (∃ cut, Trims d.graph t.1.graph cut) ∧
      Underway g r d.graph.Live t.1.graph) hedges ⟨⟨_, .refl hu.mirrored⟩, hu⟩
    fun done b rest t t' hsplit ht hturn =>
      ht.2.dropDeadEdges hp hs (by simp [hsplit]) ht.1 hturn
  have h₂ := foldlM_eq_ok (I := fun _ t => Underway g r d.graph.Live t.1.graph) hphis h₁.2
    fun done b rest t t' hsplit ht hturn =>
      ht.mergePhis hp (fun n hn => ((hs.mem_members n b).mp hn).1) hturn
  exact h₂.dropKeepAlives hp hkeep

/-! ### Unreachable blocks -/

/-- Turning a node into dead control that nothing tracked depends on. -/
theorem Underway.exchangeBad {h h' : Graph} (hu : Underway g r A h) {n : NodeId}
    (hex : h.exchange n Anchor.bad = .ok h') (hblock : ¬ Persists g r n) (hstays : ¬ Stays g r n)
    (hstop : n ≠ Anchor.stop) (hconst : ∀ v, ¬ h.IsConstant n v) (htrack : ¬ Tracked g r n)
    (hedge : ∀ kept, Faithful g r True A kept h → ∀ b k e, Persists g r b → Enters g r b k e →
      ¬ Continues g h e n) : Underway g r A h' ∧ Descends h h' := by
  obtain ⟨⟨kept, hf, hj⟩, hedges, hconf⟩ := hu
  by_cases hne : n = Anchor.bad
  · rw [Graph.exchange, if_pos hne] at hex
    cases hex
    exact ⟨⟨⟨kept, hf, hj⟩, hedges, hconf⟩, .refl h⟩
  have hc := Contracts.of_exchange hf.mirrored hne hex
  refine ⟨⟨⟨kept, ?_, hj.exchange hf.mirrored hex hblock⟩, hedges.contract hc ?_,
    hconf.contract hc ?_⟩, fun m y hy => hc.keeps hy⟩
  · refine hf.exchange hex hblock hstays hstop hconst (fun ht => absurd ht htrack) ?_ ?_
    · intro b e hb he htaken _ hcont
      obtain ⟨k, hk⟩ := List.mem_iff_getElem?.mp he
      exact absurd hcont (hedge kept hf b k e hb ⟨hk, htaken⟩)
    · exact fun m _ _ => .inr (.inr (.inl rfl))
  · rintro c x m - - - - rfl
    exact .inl (if_pos rfl)
  · rintro u m - - rfl -
    rw [if_pos rfl]
    exact hconf.root Anchor.bad (by simp)

/-- A member of a block that does not persist may be buried. -/
theorem Underway.bury (hp : Premises g r) (hu : Underway g r A d.graph) {n b : NodeId} {y : Shape}
    (hy : d.graph.shape? n = some y) (hyb : y.block = some b) (hb : ¬ Persists g r b)
    (hstart : b ≠ Anchor.startBlock) (hend : b ≠ Anchor.endBlock) (h : bury d n = .ok d') :
    Underway g r A d'.graph ∧ Descends d.graph d'.graph := by
  unfold Cleanup.bury at h
  split at h
  next =>
    cases h
    exact ⟨hu, .refl _⟩
  next =>
    obtain ⟨kept, hf, -⟩ := hu.tracked
    have hslot : ∀ x, g.nodes[n]? = some x → x.block = some b := by
      intro x hx
      have hkeep := hf.keeps (Graph.shape?_eq hx) hy
      exact hkeep.block.symm.trans hyb
    have hblock : ¬ Persists g r n := by
      intro hn
      obtain ⟨x, hx, hop⟩ := hn.isBlock hp.built hp.describes
      have hnone := hp.block n x (hn.live hp.built hp.describes) hx hop
      rw [hslot x hx] at hnone
      cases hnone
    refine hu.exchangeBad (Draft.edit_eq_ok h) hblock ?_ ?_ ?_ ?_ ?_
    · rintro ⟨-, hn | ⟨-, x, c, hx, -, hxc, hc⟩⟩
      · exact hblock hn
      · rw [hslot x hx] at hxc
        cases hxc
        exact hb hc
    · rintro rfl
      have hblock := (hf.anchor hp rfl hy).block
      rw [hyb] at hblock
      exact hend (Option.some.inj hblock)
    · rintro v ⟨z, hz, -, hblock⟩
      rw [hy] at hz
      cases hz
      rw [hyb] at hblock
      exact hstart (Option.some.inj hblock)
    · intro ht
      obtain ⟨x, hx⟩ := ht.standing
      obtain ⟨c, hc, hpersists, -⟩ := hx.block
      rw [hslot x hx.slot] at hc
      cases hc
      exact hb hpersists
    · intro kept' hf' c k e hc hk hcont
      obtain ⟨z, s, hz, hzs, -, hs, -⟩ := hcont.exit hp.built hp.describes hf' hc hk
      rw [hy] at hz
      cases hz
      rw [hyb] at hzs
      cases hzs
      exact hb hs

/-- A block that does not persist may be removed with its members. -/
theorem Underway.removeBlock (hp : Premises g r) {h₁ : Graph} {blocks : List NodeId}
    {members : IdMap (List NodeId)} (hs : Survey h₁ blocks members) (h₀ : Underway g r A h₁)
    (hu : Underway g r A d.graph) (hd : Descends h₁ d.graph) {b : NodeId} (hmem : b ∈ blocks)
    (hb : ¬ Persists g r b) (hstart : b ≠ Anchor.startBlock) (hend : b ≠ Anchor.endBlock)
    (h : removeBlock members d b = .ok d') :
    Underway g r A d'.graph ∧ Descends h₁ d'.graph := by
  obtain ⟨d₁, hloop, h⟩ := bind_eq_ok.mp h
  obtain ⟨d₂, hd₂, h⟩ := bind_eq_ok.mp h
  cases h
  have hburied := foldlM_eq_ok (I := fun _ (s : Draft) => Underway g r A s.graph ∧
      Descends h₁ s.graph) hloop ⟨hu, hd⟩ fun done n rest s t hsplit ht hturn => by
    obtain ⟨-, y, hy, hyb⟩ := (hs.mem_members n b).mp (by simp [hsplit])
    obtain ⟨z, hz, hkeep⟩ := ht.2 n y hy
    obtain ⟨hu', hd'⟩ := ht.1.bury hp hz (hkeep.block.trans hyb) hb hstart hend hturn
    exact ⟨hu', ht.2.trans hd'⟩
  obtain ⟨hu₁, hd₁⟩ := hburied
  obtain ⟨-, w, hw, hwop⟩ := (hs.mem_blocks b).mp hmem
  obtain ⟨z, hz, hkeep⟩ := hd₁ b w hw
  have hop : z.op = .block ∨ z.op = .retired := by rw [← hwop]; exact hkeep.op
  obtain ⟨kept, hf, -⟩ := h₀.tracked
  have hother : b ≠ Anchor.stop := by
    rintro rfl
    rcases (hf.anchor hp rfl hw).op with heq | heq <;> rw [hwop] at heq <;> cases heq
  have htrack : ¬ Tracked g r b := by
    intro ht
    obtain ⟨x, hx⟩ := ht.standing
    have hkeep := hf.keeps (Graph.shape?_eq hx.slot) hw
    refine hx.kind.1 ((hkeep.op.resolve_right ?_).symm.trans hwop)
    simp [hwop]
  have hstays : ¬ Stays g r b := by
    rintro ⟨hmem, hn | ⟨-, x, c, hx, -, hxc, -⟩⟩
    · exact hb hn
    · have hxop : x.op = .block := (hf.keeps (Graph.shape?_eq hx) hw).op.elim
        (fun heq => heq.symm.trans hwop) fun heq => by simp [hwop] at heq
      rw [hp.block b x (live_of_keepAlive hp.describes hmem) hx hxop] at hxc
      cases hxc
  obtain ⟨hu₂, hd₂⟩ := hu₁.exchangeBad (Draft.edit_eq_ok hd₂) hb hstays hother
    (by
      rintro v ⟨y, hy, hconst, -⟩
      rw [hz] at hy
      cases hy
      simp [hconst] at hop)
    htrack
    (by
      intro kept' hf' c k e hc hk hcont
      obtain ⟨y, s, hy, -, -, -, hkind⟩ := hcont.exit hp.built hp.describes hf' hc hk
      rw [hz] at hy
      cases hy
      rcases hop with hop | hop <;> simp [hop] at hkind)
  exact ⟨hu₂, hd₁.trans hd₂⟩

/-- Only blocks that do not persist are removed. -/
theorem removeBlocks_eq_ok (hp : Premises g r) (hu : Underway g r A d.graph) {k : Nat}
    (h : removeBlocks d = .ok (k, d')) : Underway g r A d'.graph := by
  obtain ⟨live, hlive, h⟩ := bind_eq_ok.mp h
  obtain ⟨blocks, hblocks, h⟩ := bind_eq_ok.mp h
  obtain ⟨reachable, hreachable, h⟩ := bind_eq_ok.mp h
  obtain ⟨members, hmembers, h⟩ := bind_eq_ok.mp h
  obtain ⟨d₁, hloop, h⟩ := bind_eq_ok.mp h
  cases h
  have hs := Survey.of_live hlive hblocks hmembers
  obtain ⟨kept, hf, -⟩ := hu.tracked
  have hlisted : ∀ b, Persists g r b → b ∈ blocks := by
    intro b hb
    obtain ⟨y, hy, hop, -⟩ := hf.block b hb
    exact (hs.mem_blocks b).mpr ⟨hf.live hp hb, y, hy, hop⟩
  refine (foldlM_eq_ok (I := fun _ (s : Draft) => Underway g r A s.graph ∧
    Descends d.graph s.graph) hloop ⟨hu, .refl _⟩ fun done b rest s t hsplit ht hturn => ?_).1
  have hdead : b ∈ done ++ b :: rest := by simp
  rw [← hsplit, List.mem_filter] at hdead
  simp only [Bool.and_eq_true, Bool.not_eq_true', bne_iff_ne] at hdead
  obtain ⟨hmem, ⟨hcut, hstart⟩, hend⟩ := hdead
  refine Underway.removeBlock hp hs hu ht.1 ht.2 hmem (fun hb => ?_) hstart hend hturn
  rw [(Graph.contains_reachableBlocks hreachable b).mpr (hf.reachable hp hlisted hb)] at hcut
  cases hcut

/-! ### Garbage -/

theorem killAll_eq_ok {garbage : List NodeId} (hm : d.graph.Mirrored)
    (h : garbage.foldlM (fun d n => d.edit fun g => g.kill n) d = .ok d') :
    Contracts d.graph d'.graph (· ∈ garbage) id := by
  refine foldlM_eq_ok (I := fun done (s : Draft) => Contracts d.graph s.graph (· ∈ done) id) h
    (.refl hm fun n hn => by cases hn) fun done n rest s t _ hs hturn => ?_
  exact (hs.trans (.of_kill hs.mirrored (Draft.edit_eq_ok hturn))).congr
    (fun m => by rw [List.mem_append, List.mem_singleton]) fun _ => rfl

/-- What is retired is what is in use and not live. If there is nothing of the kind, nothing
happens. -/
theorem removeGarbage_contracts (hm : d.graph.Mirrored) {k : Nat}
    (h : removeGarbage d = .ok (k, d')) :
    Contracts d.graph d'.graph (fun n => d.graph.isRetired n = false ∧ ¬ d.graph.Live n) id ∧
      (∃ w, Walk.run d.graph = .ok w) ∧
      (k = 0 ↔ ∀ n, d.graph.isRetired n = false → d.graph.Live n) ∧ (k = 0 → d' = d) := by
  obtain ⟨live, hlive, h⟩ := bind_eq_ok.mp h
  obtain ⟨d₁, hloop, h⟩ := bind_eq_ok.mp h
  have hgone : ∀ n, n ∈ (d.graph.ids.filter fun n => !live.contains n) ↔
      d.graph.isRetired n = false ∧ ¬ d.graph.Live n := by
    intro n
    rw [← Graph.contains_live hlive, List.mem_filter, Graph.ids, List.mem_filter]
    simp only [List.mem_range, Bool.not_eq_true', Bool.not_eq_true, and_congr_left_iff]
    refine fun _ => ⟨fun h => h.2, fun hused => ⟨?_, hused⟩⟩
    obtain ⟨x, hx, -⟩ := Graph.isRetired_eq_false.mp hused
    exact Graph.lt_size_of_getElem? hx
  have hend : d'.graph = d₁.graph ∧
      k = (d.graph.ids.filter fun n => !live.contains n).length ∧ (k = 0 → d' = d) := by
    split at h
    next hempty =>
      cases h
      rw [List.isEmpty_iff.mp hempty] at hloop ⊢
      cases hloop
      exact ⟨rfl, rfl, fun _ => rfl⟩
    next hsome =>
      cases h
      refine ⟨rfl, rfl, fun hk => absurd ?_ hsome⟩
      rw [List.length_eq_zero_iff.mp hk]
      rfl
  generalize d.graph.ids.filter (fun n => !live.contains n) = garbage at *
  obtain ⟨w, hw, -⟩ := bind_eq_ok.mp hlive
  refine ⟨?_, ⟨w, hw⟩, ?_, hend.2.2⟩
  · rw [hend.1]
    exact (killAll_eq_ok hm hloop).congr (fun n => (hgone n).symm) fun _ => rfl
  · rw [hend.2.1, List.length_eq_zero_iff, List.eq_nil_iff_forall_not_mem]
    exact forall_congr' fun n => by rw [hgone, not_and, not_not]

/-- What holds between rounds. -/
structure Folded (g : Graph) (r : Solution) (h : Graph) : Prop where
  tracked : ∃ kept, Faithful g r True (fun _ => True) kept h ∧ Jumps g r kept h
  edges : Edges g r h

/-- The walk of the graph ends, and everything in use is live. -/
def Tidy (h : Graph) : Prop :=
  (∃ w, Walk.run h = .ok w) ∧ ∀ n, h.isRetired n = false → h.Live n

/-- Retiring what is not live keeps what is tracked; the phis left are all aligned. -/
theorem removeGarbage_eq_ok (hp : Premises g r) (hu : Underway g r A d.graph) {k : Nat}
    (h : removeGarbage d = .ok (k, d')) :
    Folded g r d'.graph ∧ (k = 0 → Tidy d'.graph) := by
  obtain ⟨hc, hwalk, hnone, hsame⟩ := removeGarbage_contracts hu.mirrored h
  obtain ⟨⟨kept, hf, hj⟩, hedges, hconf⟩ := hu
  -- What is left uses nothing that is retired here.
  have huser : ∀ n m, d.graph.isRetired n = false →
      ¬ (d.graph.isRetired n = false ∧ ¬ d.graph.Live n) → m ∈ d.graph.operands n →
      d.graph.isRetired m = false ∧ ¬ d.graph.Live m → False := by
    intro n m hn hout hm hdead
    obtain ⟨x, hx, -⟩ := Graph.isRetired_eq_false.mp hn
    rw [Graph.operands_eq hx] at hm
    have hin : m ∈ d.graph.inputs n := Graph.mem_inputs.mpr ⟨_, Graph.shape?_eq hx, .inr hm⟩
    exact hdead.2 ((not_not.mp fun h => hout ⟨hn, h⟩).needs ⟨hin, hdead.1⟩)
  have hf' : Faithful g r True A kept d'.graph := by
    refine hf.contract hc (fun b hb hdead => hdead.2 (hf.live hp hb))
      (fun n hn hdead => hdead.2 (hf.stays_live hn)) ?_ ?_ ?_ ?_
    · exact fun hdead => hdead.2 ⟨Anchor.stop, by simp, .refl⟩
    · exact fun n m hn hout hm hmem => (huser n m hn hout hm hmem).elim
    · exact fun b e e' hb he hmem => (huser b e' (hf.blockInUse hb)
        (fun hdead => hdead.2 (hf.live hp hb)) he hmem).elim
    · exact fun n m _ hn hout hm hmem => (huser n m hn hout hm hmem).elim
  have haligned : ∀ n y, d'.graph.shape? n = some y → y.op ≠ .retired → A n := by
    intro n z hz hused
    obtain ⟨hout, hn⟩ := hc.used_before (Graph.isRetired_eq_false_iff.mpr ⟨z, hz, hused⟩)
    exact hconf.live (not_not.mp fun h => hout ⟨hn, h⟩)
  refine ⟨⟨⟨kept, ?_, hj.contract hc fun b hb hdead => hdead.2 (hf.live hp hb)⟩, ?_⟩,
    fun hk => ?_⟩
  · exact
      { hf' with
        phi := fun n x b y ht hx hop hb hy hused _ =>
          hf'.phi n x b y ht hx hop hb hy hused (haligned n y hy hused) }
  · refine hedges.contract hc fun c x m _ _ _ _ hmem => .inr ?_
    cases hret : d'.graph.isRetired m with
    | true => exact hret
    | false => exact absurd hmem (hc.used_before hret).1
  · rw [hsame hk]
    exact ⟨hwalk, hnone.mp hk⟩

/-! ### Rounds -/

theorem round_eq_ok (hp : Premises g r) (hf : Folded g r d.graph) {c : Counts}
    (h : round d = .ok c d') :
    Folded g r d'.graph ∧ (c.changed = false → Tidy d'.graph) := by
  obtain ⟨first, d₁, hfirst, h⟩ := Editing.bind_eq_ok h
  obtain ⟨second, d₂, hsecond, h⟩ := Editing.bind_eq_ok h
  cases h
  obtain ⟨blocks, d₃, hblocks, hsecond⟩ := Editing.bind_eq_ok hsecond
  obtain ⟨nodes, d₄, hnodes, hsecond⟩ := Editing.bind_eq_ok hsecond
  cases hsecond
  have hu : Underway g r d.graph.Live d.graph := by
    obtain ⟨⟨kept, hkept, hj⟩, hedges⟩ := hf
    exact ⟨⟨kept, hkept.mono fun _ _ => trivial, hj⟩, hedges, .of_live d.graph⟩
  have hu₁ := removeDeadEdges_eq_ok hp hu hfirst
  have hu₃ := removeBlocks_eq_ok hp hu₁ (Editing.change_eq_ok hblocks)
  obtain ⟨hfolded, htidy⟩ := removeGarbage_eq_ok hp hu₃ (Editing.change_eq_ok hnodes)
  refine ⟨hfolded, fun hsame => htidy ?_⟩
  have hsame := of_decide_eq_false hsame
  simp only [Counts.add] at hsame
  omega

/-- Cleaning up keeps what is tracked, and leaves only what is live if it was checked. -/
theorem run_eq_ok (hp : Premises g r) (hf : Folded g r d.graph) {check : Bool} {c : Counts}
    (h : run check d = .ok c d') :
    Folded g r d'.graph ∧ (check = true → Tidy d'.graph) := by
  obtain ⟨first, d₁, hfirst, h⟩ := Editing.bind_eq_ok h
  obtain ⟨second, d₂, hsecond, h⟩ := Editing.bind_eq_ok h
  have hf₁ := (round_eq_ok hp hf hfirst).1
  have hf₂ := (round_eq_ok hp hf₁ hsecond).1
  cases check with
  | false =>
    cases h
    exact ⟨hf₂, fun hc => by cases hc⟩
  | true =>
    obtain ⟨extra, d₃, hextra, h⟩ := Editing.bind_eq_ok h
    obtain ⟨d₃', hround, hgraph⟩ := Editing.silently_eq_ok hextra
    obtain ⟨hf₃, htidy⟩ := round_eq_ok hp hf₂ hround
    cases hchanged : extra.changed with
    | true =>
      rw [hchanged] at h
      cases h
    | false =>
      rw [hchanged] at h
      cases h
      rw [hgraph]
      exact ⟨hf₃, fun _ => htidy hchanged⟩

end Cleanup

/-- What a note keeps is kept by the notes of a trace. -/
theorem Folding.notes_preserve {P : Draft → Prop}
    (hnote : ∀ d n text, P d → P (d.note .info (some n) Folding.name text))
    (l : List (NodeId × Fact)) {d : Draft} (hd : P d) :
    P (l.foldl (fun d (n, a) => d.note .info n Folding.name ("value -> " ++ a.text)) d) := by
  induction l generalizing d with
  | nil => exact hd
  | cons p l ih => exact ih (hnote _ _ _ hd)

/-- Notes leave the graph alone. -/
theorem Folding.graph_notes (l : List (NodeId × Fact)) (d : Draft) :
    (l.foldl (fun d (n, a) => d.note .info n Folding.name ("value -> " ++ a.text)) d).graph =
      d.graph :=
  notes_preserve (P := fun d' => d'.graph = d.graph) (fun _ _ _ h => h) l rfl

/-- Folding is an analysis, a substitution and a cleanup. -/
theorem Folding.exists_of_apply {check trace changed : Bool} {d d' : Draft}
    (h : Folding.apply check trace d = .ok changed d') :
    ∃ r d₁ d₂ d₃ substituted cleaned, d.graph.analyze = .ok r ∧ d₁.graph = d.graph ∧
      Substitution.run r Folding.name d₁ = .ok substituted d₂ ∧
      Cleanup.run check d₂ = .ok cleaned d₃ ∧ d'.graph = d₃.graph ∧
      changed = (substituted.changed || cleaned.changed) := by
  obtain ⟨r, d₁, hanalyze, h⟩ := Editing.bind_eq_ok h
  obtain ⟨substituted, d₂, hsubst, h⟩ := Editing.bind_eq_ok h
  obtain ⟨cleaned, d₃, hclean, h⟩ := Editing.bind_eq_ok h
  obtain ⟨⟨⟩, d₄, hnote, h⟩ := Editing.bind_eq_ok h
  cases hnote
  cases h
  obtain ⟨r', hr, hlog⟩ := bind_eq_ok.mp (Editing.change_eq_ok hanalyze)
  cases hlog
  exact ⟨r, _, d₂, d₃, substituted, cleaned, hr, graph_notes _ d, hsubst, hclean, rfl, rfl⟩

/-- Folding keeps what is tracked, whatever it is asked to check or trace. -/
theorem Folding.apply_eq_ok {check trace changed : Bool} {d d' : Draft}
    (h : Folding.apply check trace d = .ok changed d') :
    ∃ r, d.graph.analyze = .ok r ∧ (Rewriting.Premises d.graph r →
      Cleanup.Folded d.graph r d'.graph ∧ (check = true → Cleanup.Tidy d'.graph)) := by
  obtain ⟨r, d₁, d₂, d₃, _, _, hr, hd, hsubst, hclean, hend, -⟩ := Folding.exists_of_apply h
  refine ⟨r, hr, fun hp => ?_⟩
  obtain ⟨hf, hj, hedges⟩ := Substitution.run_eq_ok hp hd hsubst
  rw [hend]
  exact Cleanup.run_eq_ok hp ⟨⟨_, hf.merge, hj⟩, hedges⟩ hclean

theorem Graph.optimize_eq_ok {g h : Graph} {check : Bool} (hopt : g.optimize check = .ok h) :
    ∃ changed d', Folding.apply check false { graph := g } = .ok changed d' ∧ d'.graph = h := by
  unfold Graph.optimize at hopt
  split at hopt
  next changed d' happly =>
    cases hopt
    exact ⟨changed, d', happly, rfl⟩
  next => cases hopt

end SeaOfNodes
