import SeaOfNodes.Proofs.Sweeping

/-!
Two rounds of cleaning up suffice, on any orderly graph.

The second half of a round turns the blocks that control cannot reach into dead control, all at once
(`Cleanup.Buries`), and retires what is not live (`Cleanup.Collects`). After a round control can
reach every live block but the exit block (`Cleanup.Settled`). If that held before the round, no
block is removed in it, so no predecessor becomes dead and nothing is left to do (`Cleanup.Clean`).
A round that has nothing to do changes nothing (`Cleanup.round_of_clean`).

Anchors may be retired, the entry block among them. Only the roots of liveness can then be live and
retired, and they stand in the entry or the exit block, which are never removed.
-/

namespace SeaOfNodes

open Rewriting

namespace Graph

variable {h : Graph}

/-! ### Control flow -/

/-- Where control comes from is live, if it is in use. -/
theorem Flows.live {s t : NodeId} (hflow : h.Flows s t) (hs : h.isRetired s = false) :
    h.Live s := by
  obtain ⟨hlive, -, p, hp, -, hused, hps⟩ := hflow
  obtain ⟨x, hx, hmem⟩ := mem_operands_of_shape hp
  have hplive : h.Live p := hlive.needs ⟨mem_inputs.mpr ⟨x, hx, .inr hmem⟩, hused⟩
  obtain ⟨y, hy, -⟩ := exists_shape hused
  rw [blockOf_of_shape hy] at hps
  exact hplive.needs ⟨mem_inputs.mpr ⟨y, hy, .inl hps⟩, hs⟩

/-- Control reaches a live block if each step towards it is still there. -/
theorem reaches_of_steps {R : NodeId → NodeId → Prop}
    (hstep : ∀ s t, Relation.ReflTransGen R Anchor.startBlock s → R s t → h.Live t →
      h.Flows s t ∧ (s = Anchor.startBlock ∨ h.isRetired s = false))
    {b : NodeId} (hb : Relation.ReflTransGen R Anchor.startBlock b) (hlive : h.Live b) :
    Relation.ReflTransGen h.Flows Anchor.startBlock b := by
  induction hb with
  | refl => exact .refl
  | tail hpath hlast ih =>
    obtain ⟨hflow, rfl | hused⟩ := hstep _ _ hpath hlast hlive
    · exact .single hflow
    · exact (ih (hflow.live hused)).tail hflow

/-- Control cannot reach the live block `b`, which is neither the entry nor the exit block. -/
def Stranded (h : Graph) (b : NodeId) : Prop :=
  h.Live b ∧ (∃ y, h.shape? b = some y ∧ y.op = .block) ∧ b ≠ Anchor.startBlock ∧
    b ≠ Anchor.endBlock ∧ ¬ Relation.ReflTransGen h.Flows Anchor.startBlock b

/-- `n` is a stranded block or stands in one. -/
def Adrift (h : Graph) (n : NodeId) : Prop :=
  h.Stranded n ∨ h.Live n ∧ ∃ y b, h.shape? n = some y ∧ y.block = some b ∧ h.Stranded b

theorem Adrift.live {n : NodeId} (hn : h.Adrift n) : h.Live n := hn.elim (·.1) (·.1)

theorem Connected.not_adrift (hc : h.Connected) {n : NodeId} : ¬ h.Adrift n := by
  have hnone : ∀ b, ¬ h.Stranded b := fun b ⟨hlive, ⟨y, hy, hop⟩, _, hend, hout⟩ =>
    hout (hc b y hlive hy hop hend)
  rintro (hn | ⟨-, -, b, -, -, hb⟩)
  · exact hnone n hn
  · exact hnone b hb

end Graph

namespace Cleanup

variable {A : NodeId → Prop} {d d' : Draft} {h t u v : Graph} {l : List NodeId}
  {blocks : List NodeId} {members : IdMap (List NodeId)}

/-! ### Unreachable blocks -/

/-- Everything in `l` was turned into dead control. -/
def Buries (h u : Graph) (l : List NodeId) : Prop :=
  Contracts h u (· ∈ l) fun m => if m ∈ l then Anchor.bad else m

theorem Buries.exchange {n : NodeId} {u' : Graph} (hl : Buries h u l) (hn : n ≠ Anchor.bad)
    (hex : u.exchange n Anchor.bad = .ok u') : Buries h u' (l ++ [n]) := by
  refine (Contracts.trans hl (.of_exchange hl.mirrored hn hex)).congr
    (fun m => by rw [List.mem_append, List.mem_singleton]) fun m => ?_
  by_cases hm : m ∈ l
  · rw [if_pos (List.mem_append_left _ hm), if_pos hm, if_neg hn.symm]
  · simp [hm]

/-- A node that is buried again was buried before. -/
theorem Buries.bury {n : NodeId} (hl : Buries h d.graph l) (hn : n ≠ Anchor.bad)
    (hused : h.isRetired n = false) (hturn : bury d n = .ok d') :
    Buries h d'.graph (l ++ [n]) := by
  unfold Cleanup.bury at hturn
  split at hturn
  next hret =>
    cases hturn
    have hmem : n ∈ l := by
      by_contra hout
      rw [Contracts.isRetired hl hout, hused] at hret
      cases hret
    have hsame : ∀ m, m ∈ l ++ [n] ↔ m ∈ l := by
      intro m
      rw [List.mem_append, List.mem_singleton, or_iff_left_iff_imp]
      rintro rfl
      exact hmem
    exact Contracts.congr hl hsame fun m => by simp only [hsame]
  next => exact hl.exchange hn (Draft.edit_eq_ok hturn)

theorem Buries.removeBlock {b : NodeId} (hl : Buries h d.graph l) (hb : b ≠ Anchor.bad)
    (hmembers : ∀ n ∈ members.filed b, n ≠ Anchor.bad ∧ h.isRetired n = false)
    (hturn : removeBlock members d b = .ok d') :
    Buries h d'.graph (l ++ (members.filed b ++ [b])) := by
  obtain ⟨d₁, hloop, hturn⟩ := bind_eq_ok.mp hturn
  obtain ⟨d₂, hexchange, hturn⟩ := bind_eq_ok.mp hturn
  cases hturn
  have hloop := foldlM_eq_ok (I := fun done (s : Draft) => Buries h s.graph (l ++ done)) hloop
    (by simpa using hl) fun done n rest s t hsplit hs hturn => by
      have hn := hmembers n (by simp [hsplit])
      rw [← List.append_assoc]
      exact hs.bury hn.1 hn.2 hturn
  rw [← List.append_assoc]
  exact hloop.exchange hb (Draft.edit_eq_ok hexchange)

/-- Anchors are the entry and the exit block, or stand in them. -/
theorem anchor_placed : ∀ n ∈ Anchor.all, ∃ x ∈ (Graph.new "" 0).shape? n,
    (x.op = .block → n = Anchor.startBlock ∨ n = Anchor.endBlock) ∧
      ∀ b ∈ x.block, b = Anchor.startBlock ∨ b = Anchor.endBlock := by
  decide

/-- No anchor is adrift. -/
theorem Orderly.not_adrift_anchor (ho : Orderly A h) : ∀ n ∈ Anchor.all, ¬ h.Adrift n := by
  intro n hn hadrift
  obtain ⟨x, hx, hplace⟩ := anchor_placed n hn
  obtain ⟨z, hz, hkeep⟩ := ho.anchor n x hx
  rcases hadrift with ⟨-, ⟨w, hw, hwop⟩, hstart, hend, -⟩ | ⟨-, w, b, hw, hwb, -, -, hstart, hend, -⟩
  · rw [hz] at hw
    cases hw
    rcases hkeep.op with hop | hop
    · exact (hplace.1 (hop.symm.trans hwop)).elim hstart hend
    · cases hwop.symm.trans hop
  · rw [hz] at hw
    cases hw
    exact (hplace.2 b (hkeep.block.symm.trans hwb)).elim hstart hend

theorem Orderly.used_of_adrift (ho : Orderly A h) {n : NodeId} (hn : h.Adrift n) :
    h.isRetired n = false := by
  refine Bool.eq_false_iff.mpr fun hret => ?_
  have hanchor : ∀ n ∈ [Anchor.stop, Anchor.start, Anchor.bad], n ∈ Anchor.all := by decide
  exact ho.not_adrift_anchor n (hanchor n (hn.live.anchor hret)) hn

/-- A block that is adrift is stranded. -/
theorem Orderly.stranded_of_adrift (ho : Orderly h.Live h) {b : NodeId} {y : Shape}
    (hb : h.Adrift b) (hy : h.shape? b = some y) (hop : y.op = .block) : h.Stranded b := by
  refine hb.resolve_right fun ⟨hlive, z, c, hz, hzc, _⟩ => ?_
  rw [hy] at hz
  cases hz
  rw [ho.outermost b y hlive hy hop] at hzc
  cases hzc

/-- The blocks that control cannot reach are turned into dead control with what stands in them. If
there are none, nothing happens. -/
theorem removeBlocks_buries (ho : Orderly d.graph.Live d.graph) {k : Nat}
    (h : removeBlocks d = .ok (k, d')) :
    (∃ l, Buries d.graph d'.graph l ∧ ∀ n, n ∈ l ↔ d.graph.Adrift n) ∧
      (d.graph.Connected → k = 0 ∧ d' = d) := by
  obtain ⟨live, hlive, h⟩ := bind_eq_ok.mp h
  obtain ⟨blocks, hblocks, h⟩ := bind_eq_ok.mp h
  obtain ⟨reachable, hreachable, h⟩ := bind_eq_ok.mp h
  obtain ⟨members, hmembers, h⟩ := bind_eq_ok.mp h
  obtain ⟨d₁, hloop, h⟩ := bind_eq_ok.mp h
  cases h
  have hs := Survey.of_live hlive hblocks hmembers
  have hdead : ∀ b, (b ∈ blocks.filter fun b => !reachable.contains b && b != Anchor.startBlock &&
      b != Anchor.endBlock) ↔ d.graph.Stranded b := by
    intro b
    have hfollows : d.graph.Follows blocks = d.graph.Flows :=
      funext fun s => funext fun t => propext hs.follows_iff
    rw [List.mem_filter, hs.mem_blocks, Graph.Stranded, ← hfollows,
      ← Graph.contains_reachableBlocks hreachable]
    simp only [Bool.and_eq_true, Bool.not_eq_true', bne_iff_ne, Bool.not_eq_true]
    tauto
  generalize blocks.filter (fun b => !reachable.contains b && b != Anchor.startBlock &&
    b != Anchor.endBlock) = dead at *
  have hbad := ho.not_adrift_anchor Anchor.bad (by decide)
  have hmember : ∀ b, d.graph.Stranded b → ∀ n, n ∈ members.filed b → d.graph.Adrift n := by
    intro b hstranded n hn
    obtain ⟨hnlive, y, hy, hyb⟩ := (hs.mem_members n b).mp hn
    exact .inr ⟨hnlive, y, b, hy, hyb, hstranded⟩
  refine ⟨⟨dead.flatMap fun b => members.filed b ++ [b], ?_, fun n => ?_⟩, fun hconn => ?_⟩
  · refine foldlM_eq_ok (I := fun done (s : Draft) =>
      Buries d.graph s.graph (done.flatMap fun b => members.filed b ++ [b])) hloop ?_ ?_
    · exact (Contracts.refl ho.mirrored fun n hn => by cases hn).congr (fun _ => .rfl) fun m => by simp
    · intro done b rest s t hsplit hl hturn
      have hstranded := (hdead b).mp (by simp [hsplit])
      rw [List.flatMap_append, List.flatMap_singleton]
      refine hl.removeBlock ?_ (fun n hn => ⟨?_, ?_⟩) hturn
      · rintro rfl
        exact hbad (.inl hstranded)
      · rintro rfl
        exact hbad (hmember b hstranded _ hn)
      · exact ho.used_of_adrift (hmember b hstranded n hn)
  · simp only [List.mem_flatMap, hdead, List.mem_append, List.mem_singleton]
    constructor
    · rintro ⟨b, hstranded, hn | rfl⟩
      · exact hmember b hstranded n hn
      · exact .inl hstranded
    · rintro (hn | ⟨hnlive, y, b, hy, hyb, hstranded⟩)
      · exact ⟨n, hn, .inr rfl⟩
      · exact ⟨b, hstranded, .inl ((hs.mem_members n b).mpr ⟨hnlive, y, hy, hyb⟩)⟩
  · obtain rfl : dead = [] :=
      List.eq_nil_iff_forall_not_mem.mpr fun b hmem => hconn.not_adrift (.inl ((hdead b).mp hmem))
    cases hloop
    exact ⟨rfl, rfl⟩

theorem Orderly.bury (ho : Orderly h.Live h) (hl : Buries h u l) : Orderly h.Live u := by
  refine ho.contract hl (fun n m _ _ hm _ => ?_) fun b y p _ _ _ _ hp z hz hphi => ?_
  · simp only [if_pos hm]
    exact ⟨Anchor.bad, by simp, .refl⟩
  · simp only [if_pos hp] at hz
    obtain ⟨x, hx, hkeep⟩ := ho.anchor Anchor.bad _ rfl
    obtain ⟨w, hw, hkeep'⟩ := Contracts.descends hl _ x hx
    rw [hz] at hw
    cases hw
    rcases (hkeep.trans hkeep').op with hop | hop <;> cases hphi.symm.trans hop

/-- Control reaches all blocks that are left. -/
theorem Buries.connected (ho : Orderly h.Live h) (hl : Buries h u l)
    (hmem : ∀ n, n ∈ l ↔ h.Adrift n) : u.Connected := by
  -- A block that control reaches stays, and so does what stands in it.
  have hstays {b : NodeId} {y : Shape} (hb : Relation.ReflTransGen h.Flows Anchor.startBlock b)
      (hy : h.shape? b = some y) (hop : y.op = .block) : b ∉ l := fun hin =>
    (ho.stranded_of_adrift ((hmem b).mp hin) hy hop).2.2.2.2 hb
  intro b z hlive hz hop hend
  obtain ⟨hout, y, hy, rfl⟩ := Contracts.back hl hz (by simp [hop])
  have hpath : Relation.ReflTransGen h.Flows Anchor.startBlock b := by
    by_contra hcut
    refine hout ((hmem b).mpr (.inl ⟨(ho.bury hl).confined.live hlive, ⟨y, hy, hop⟩, ?_, hend,
      hcut⟩))
    rintro rfl
    exact hcut .refl
  refine Graph.reaches_of_steps (fun s t hs hflow ht => ⟨?_, ?_⟩) hpath hlive
  · obtain ⟨-, ⟨x, hx, hxop⟩, p, hp, hbad, hused, hps⟩ := id hflow
    have htout := hstays (hs.tail hflow) hx hxop
    obtain ⟨w, hw, -⟩ := Graph.exists_shape hused
    have hws : w.block = some s := by rw [← hps, Graph.blockOf_of_shape hw]
    have hpout : p ∉ l := by
      intro hin
      rcases (hmem p).mp hin with ⟨hplive, ⟨w', hw', hwop⟩, -⟩ | ⟨-, w', c, hw', hwc, hstranded⟩
      · rw [hw] at hw'
        cases hw'
        rw [ho.outermost p w hplive hw hwop] at hws
        cases hws
      · rw [hw] at hw'
        cases hw'
        obtain rfl := Option.some.inj (hws.symm.trans hwc)
        exact hstranded.2.2.2.2 hs
    refine ⟨ht, ⟨_, Contracts.shape hl htout hx, hxop⟩, p, ?_, hbad, ?_, ?_⟩
    · rw [Graph.operands_eq_of_shape (Contracts.shape hl htout hx)]
      rw [Graph.operands_eq_of_shape hx] at hp
      exact List.mem_map.mpr ⟨p, hp, if_neg hpout⟩
    · rw [Contracts.isRetired hl hpout, hused]
    · rw [Graph.blockOf_of_shape (Contracts.shape hl hpout hw), hws]
  · rcases hs.cases_tail with heq | ⟨r, hr, hlast⟩
    · exact .inl heq
    · obtain ⟨x, hx, hxop⟩ := hlast.2.1
      rw [Contracts.isRetired hl (hstays hs hx hxop)]
      exact .inr (Graph.isRetired_eq_false_iff.mpr ⟨x, hx, by simp [hxop]⟩)

/-! ### Garbage -/

/-- `v` is `u` with only what is live. -/
structure Collects (u v : Graph) : Prop where
  live : ∀ n, v.Live n ↔ u.Live n
  used : ∀ n, v.isRetired n = false → v.Live n
  shape : ∀ n, u.Live n → v.shape? n = u.shape? n

theorem Collects.of_contracts
    (hc : Contracts u v (fun n => u.isRetired n = false ∧ ¬ u.Live n) id) : Collects u v := by
  have hshape : ∀ n, u.Live n → v.shape? n = u.shape? n := by
    intro n hn
    rw [hc.moves n fun hdead => hdead.2 hn]
    simp
  have hneeds : ∀ n m, u.Live n → (v.Needs n m ↔ u.Needs n m) := by
    intro n m hn
    rw [Graph.Needs, Graph.Needs, Graph.mem_inputs, Graph.mem_inputs, hshape n hn, and_congr_right_iff]
    intro hin
    constructor
    · exact fun hm => (hc.used_before hm).2
    · intro hm
      rw [hc.isRetired fun hdead => hdead.2 (hn.needs ⟨Graph.mem_inputs.mpr hin, hm⟩), hm]
  have hlive : ∀ n, v.Live n ↔ u.Live n := by
    intro n
    constructor
    · rintro ⟨root, hroot, hpath⟩
      induction hpath with
      | refl => exact ⟨root, hroot, .refl⟩
      | tail _ hlast ih => exact ih.needs ((hneeds _ _ ih).mp hlast)
    · rintro ⟨root, hroot, hpath⟩
      induction hpath with
      | refl => exact ⟨root, hroot, .refl⟩
      | tail hbefore hlast ih => exact ih.needs ((hneeds _ _ ⟨root, hroot, hbefore⟩).mpr hlast)
  refine ⟨hlive, fun n hn => ?_, hshape⟩
  obtain ⟨hout, hused⟩ := hc.used_before hn
  exact (hlive n).mpr (not_not.mp fun hdead => hout ⟨hused, hdead⟩)

section collects

variable (hc : Collects u v)

include hc

/-- What a live node refers to is retired on both sides or on neither. -/
theorem Collects.isRetired {n m : NodeId} (hn : u.Live n) (hm : m ∈ u.inputs n) :
    v.isRetired m = u.isRetired m := by
  cases hused : u.isRetired m with
  | false => rw [Graph.isRetired_congr (hc.shape m (hn.needs ⟨hm, hused⟩)), hused]
  | true =>
    refine Bool.not_eq_false _ |>.mp fun hv => ?_
    rw [Graph.isRetired_congr (hc.shape m ((hc.live m).mp (hc.used m hv))), hused] at hv
    cases hv

theorem Collects.flows (s t : NodeId) : v.Flows s t ↔ u.Flows s t := by
  rw [Graph.Flows, Graph.Flows, Graph.FlowsAmong, Graph.FlowsAmong, hc.live t,
    and_congr_right_iff]
  intro ht
  rw [hc.shape t ht, Graph.operands_of_shape?, hc.shape t ht, ← Graph.operands_of_shape?]
  refine and_congr_right fun _ => exists_congr fun p => and_congr_right fun hp =>
    and_congr_right fun _ => ?_
  have hin : p ∈ u.inputs t := by
    obtain ⟨x, hx, hmem⟩ := Graph.mem_operands_of_shape hp
    exact Graph.mem_inputs.mpr ⟨x, hx, .inr hmem⟩
  rw [hc.isRetired ht hin, and_congr_right_iff]
  intro hused
  rw [Graph.blockOf_congr (hc.shape p (ht.needs ⟨hin, hused⟩))]

theorem Collects.connected (h : u.Connected) : v.Connected := by
  intro b x hlive hx hop hend
  have hlive := (hc.live b).mp hlive
  rw [hc.shape b hlive] at hx
  exact Relation.ReflTransGen.mono (fun s t => (hc.flows s t).mpr) _ _ (h b x hlive hx hop hend)

/-- Retiring what is not live makes no knot. -/
theorem Collects.not_knotted (h : ¬ u.Knotted) : ¬ v.Knotted := by
  rintro ⟨n, hn, hcycle⟩
  have hstep : ∀ m k, u.Live m → v.Binds m k → u.Binds m k := by
    rintro m k hm ⟨⟨hin, hused⟩, y, hy, hop⟩
    have hk := (hc.live k).mp (hc.used k hused)
    have hshape := hc.shape k hk
    rw [Graph.mem_inputs, hc.shape m hm, ← Graph.mem_inputs] at hin
    rw [Graph.isRetired_congr hshape] at hused
    rw [Graph.shape?_eq hy] at hshape
    obtain ⟨z, hz, heq⟩ := Option.map_eq_some_iff.mp hshape.symm
    refine ⟨⟨hin, hused⟩, z, hz, ?_⟩
    rw [← hop, show z.op = y.op from congrArg Shape.op heq]
  have hn := (hc.live n).mp hn
  have hpath : ∀ m, Relation.TransGen v.Binds n m → u.Live m ∧ Relation.TransGen u.Binds n m := by
    intro m hm
    induction hm with
    | single hlast =>
      have hlast := hstep _ _ hn hlast
      exact ⟨hn.needs hlast.1, .single hlast⟩
    | tail _ hlast ih =>
      have hlast := hstep _ _ ih.1 hlast
      exact ⟨ih.1.needs hlast.1, ih.2.tail hlast⟩
  exact h ⟨n, hn, (hpath n hcycle).2⟩

end collects

/-! ### Rounds -/

/-- A round takes `h` to `v`: dead edges are dropped, unreachable blocks are turned into dead
control, and what is not live is retired. -/
structure Round (h t u v : Graph) : Prop where
  sweeps : Relation.ReflTransGen (Sweep h.Live) h t
  swept : Swept h t
  buries : ∃ l, Buries t u l ∧ ∀ n, n ∈ l ↔ t.Adrift n
  connected : t.Connected → u = t
  collects : Contracts u v (fun n => u.isRetired n = false ∧ ¬ u.Live n) id
  unknotted : ¬ u.Knotted

theorem Round.of_ok (ho : Orderly d.graph.Live d.graph) {c : Counts}
    (h : round d = .ok c d') : ∃ t u, Round d.graph t u d'.graph := by
  obtain ⟨first, d₁, hfirst, h⟩ := Editing.bind_eq_ok h
  obtain ⟨second, d₂, hsecond, h⟩ := Editing.bind_eq_ok h
  cases h
  obtain ⟨blocks, d₂, hblocks, h⟩ := Editing.bind_eq_ok hsecond
  obtain ⟨nodes, d₃, hnodes, h⟩ := Editing.bind_eq_ok h
  cases h
  obtain ⟨hsteps, hswept⟩ := removeDeadEdges_sweeps ho hfirst
  have ho₁ := (ho.sweeps hsteps).restrict
  obtain ⟨hburies, hnone⟩ := removeBlocks_buries ho₁ (Editing.change_eq_ok hblocks)
  obtain ⟨l, hl, -⟩ := id hburies
  obtain ⟨hc, ⟨w, hw⟩, -⟩ := removeGarbage_contracts hl.mirrored (Editing.change_eq_ok hnodes)
  exact ⟨_, _, hsteps, hswept, hburies, fun hconn => by rw [(hnone hconn).2], hc,
    (Walk.complete_of_run hw).not_knotted⟩

/-- Whatever the graph, what is left after a round has no knot. -/
theorem round_unknotted {k : Nat} (ha : d.graph.Arena k) (hk : Anchor.bad < k) {c : Counts}
    (h : round d = .ok c d') : ¬ d'.graph.Knotted := by
  obtain ⟨first, d₁, hfirst, h⟩ := Editing.bind_eq_ok h
  obtain ⟨second, d₂, hsecond, h⟩ := Editing.bind_eq_ok h
  cases h
  obtain ⟨blocks, d₂, hblocks, h⟩ := Editing.bind_eq_ok hsecond
  obtain ⟨nodes, d₃, hnodes, h⟩ := Editing.bind_eq_ok h
  cases h
  have ha₁ := (removeDeadEdges_ends ha hk).gives hfirst
  have ha₂ := (removeBlocks_ends ha₁ hk).gives (Editing.change_eq_ok hblocks)
  obtain ⟨hc, ⟨w, hw⟩, -⟩ := removeGarbage_contracts ha₂.mirrored (Editing.change_eq_ok hnodes)
  exact (Collects.of_contracts hc).not_knotted (Walk.complete_of_run hw).not_knotted

theorem run_unknotted {k : Nat} (ha : d.graph.Arena k) (hk : Anchor.bad < k) {check : Bool}
    {c : Counts} (h : run check d = .ok c d') : ¬ d'.graph.Knotted := by
  obtain ⟨first, d₁, hfirst, h⟩ := Editing.bind_eq_ok h
  obtain ⟨second, d₂, hsecond, h⟩ := Editing.bind_eq_ok h
  have ha₁ := (round_ends ha hk).gives hfirst
  cases check with
  | false =>
    cases h
    exact round_unknotted ha₁ hk hsecond
  | true =>
    obtain ⟨extra, d₃, hextra, h⟩ := Editing.bind_eq_ok h
    obtain ⟨d₄, hthird, hgraph⟩ := Editing.silently_eq_ok hextra
    have hknot := round_unknotted ((round_ends ha₁ hk).gives hsecond) hk hthird
    cases hchanged : extra.changed with
    | true =>
      rw [hchanged] at h
      cases h
    | false =>
      rw [hchanged] at h
      cases h
      rw [hgraph]
      exact hknot

/-- What holds after a round. -/
structure Settled (h : Graph) : Prop where
  orderly : Orderly h.Live h
  used : ∀ n, h.isRetired n = false → h.Live n
  connected : h.Connected
  unknotted : ¬ h.Knotted

theorem Round.settled (ho : Orderly h.Live h) (hr : Round h t u v) : Settled v := by
  have ho₁ := (ho.sweeps hr.sweeps).restrict
  obtain ⟨l, hl, hmem⟩ := hr.buries
  have hcollects := Collects.of_contracts hr.collects
  refine ⟨?_, hcollects.used, hcollects.connected (hl.connected ho₁ hmem),
    hcollects.not_knotted hr.unknotted⟩
  refine ((ho₁.bury hl).restrict.contract hr.collects (fun n m hn hm hgone hused => ?_)
    fun b y p hb hy hop hp hgone z hz => ?_).restrict
  · exact (hcollects.live m).mp (hcollects.used m hused)
  · intro hphi
    exact (hr.collects.back hz (by simp [hphi])).1 hgone

theorem Round.descends (hr : Round h t u v) : Descends h v := by
  obtain ⟨l, hl, -⟩ := hr.buries
  exact (hr.swept.descends.trans (Contracts.descends hl)).trans hr.collects.descends

/-- A block that was live when the round began is in use after its first half. -/
theorem Swept.block_used (hs : Swept h t) {b : NodeId} {y : Shape} (hy : h.shape? b = some y)
    (hop : y.op = .block) : t.isRetired b = false := by
  rw [hs.used b y hy (by simp [hop])]
  exact Graph.isRetired_eq_false_iff.mpr ⟨y, hy, by simp [hop]⟩

/-- A predecessor that is not dead is in use after the first half of the round. -/
theorem Swept.predecessor_used (ho : Orderly h.Live h) (hs : Swept h t) {b p : NodeId} {y : Shape}
    (hb : h.Live b) (hy : h.shape? b = some y) (hop : y.op = .block) (hp : p ∈ y.operands)
    (hused : h.isRetired p = false) : t.isRetired p = false := by
  obtain ⟨w, hw, -⟩ := Graph.exists_shape hused
  rw [hs.used p w hw (ho.predecessor b y hb hy hop p hp w hw), hused]

/-- Dropping dead edges cuts no block off. -/
theorem Swept.connected (ho : Orderly h.Live h) (ho' : Orderly h.Live t) (hs : Swept h t)
    (hconn : h.Connected) : t.Connected := by
  intro b x hlive hx hop hend
  have hlive₀ := ho'.confined.live hlive
  obtain ⟨y, hy, hyop⟩ := block_of_descends hs.descends (ho.lt_size hlive₀) hx hop
  refine Graph.reaches_of_steps (fun s c hpath hflow hc => ⟨?_, ?_⟩)
    (hconn b y hlive₀ hy hyop hend) hlive
  · obtain ⟨hclive, ⟨w, hw, hwop⟩, p, hp, hbad, hused, hps⟩ := hflow
    rw [Graph.operands_eq_of_shape hw] at hp
    obtain ⟨z, hz, hzop⟩ := Graph.exists_shape (hs.block_used hw hwop)
    obtain ⟨z', hz', hkeep⟩ := hs.descends c w hw
    rw [hz] at hz'
    cases hz'
    refine ⟨hc, ⟨z, hz, (hkeep.op.resolve_right hzop).trans hwop⟩, p, ?_, hbad,
      hs.predecessor_used ho hclive hw hwop hp hused, ?_⟩
    · rw [hs.block c w hclive hw hwop]
      refine List.mem_filter.mpr ⟨hp, ?_⟩
      simp [isDead, hbad, hused]
    · obtain ⟨q, hq, -⟩ := Graph.exists_shape hused
      rw [blockOf_of_descends hs.descends (Graph.lt_size_of_shape? hq), hps]
  · rcases hpath.cases_tail with heq | ⟨r, -, hlast⟩
    · exact .inl heq
    · obtain ⟨w, hw, hwop⟩ := hlast.2.1
      exact .inr (hs.block_used hw hwop)

/-- Nothing is left for a round to do. -/
structure Clean (h : Graph) : Prop where
  edge : ∀ b y, h.Live b → h.shape? b = some y → y.op = .block →
    ∀ p ∈ y.operands, isDead h p = false
  phi : ∀ n b y z, h.Live n → h.shape? n = some y → y.block = some b → h.Live b →
    h.shape? b = some z → z.op = .block → Relation.ReflTransGen h.Flows Anchor.startBlock b →
    (h.operands b).length = 1 → Combines h n
  keepAlive : keptAlive h (h.operands Anchor.stop) = h.operands Anchor.stop

theorem Clean.bad_notMem (hc : Clean h) (b : NodeId) (y : Shape) (hlive : h.Live b)
    (hy : h.shape? b = some y) (hop : y.op = .block) : Anchor.bad ∉ y.operands := by
  intro hmem
  have halive := hc.edge b y hlive hy hop _ hmem
  simp [isDead] at halive

/-- If no block is removed, the first half of a round leaves nothing to do. -/
theorem Swept.clean (ho : Orderly h.Live h) (ho' : Orderly h.Live t) (hs : Swept h t)
    (hc : Collects t v) : Clean v := by
  have hstop : t.Live Anchor.stop := ⟨Anchor.stop, by simp, .refl⟩
  have hsame : v.operands Anchor.stop = t.operands Anchor.stop := by
    rw [Graph.operands_of_shape?, hc.shape _ hstop, ← Graph.operands_of_shape?]
  refine ⟨fun b y hlive hy hop p hp => ?_,
    fun n b y z hlive hy hyb hblive hz hzop hreach hone => ?_, ?_⟩
  · have hlive := (hc.live b).mp hlive
    have hlive₀ := ho'.confined.live hlive
    rw [hc.shape b hlive] at hy
    obtain ⟨z, hz, hzop⟩ := block_of_descends hs.descends (ho.lt_size hlive₀) hy hop
    have hp₀ := hp
    rw [← Graph.operands_eq_of_shape hy, hs.block b z hlive₀ hz hzop, List.mem_filter] at hp₀
    have halive := Bool.not_eq_true' _ |>.mp hp₀.2
    have hused : h.isRetired p = false := by
      simpa using (Bool.or_eq_false_iff.mp halive).2
    have hin : p ∈ t.inputs b := Graph.mem_inputs.mpr ⟨y, hy, .inr hp⟩
    rw [← halive]
    refine isDead_congr ?_
    rw [hc.isRetired hlive hin, hs.predecessor_used ho hlive₀ hz hzop hp₀.1 hused, hused]
  · have hlive := (hc.live n).mp hlive
    have hblive := (hc.live b).mp hblive
    have hlive₀ := ho'.confined.live hlive
    have hblive₀ := ho'.confined.live hblive
    rw [hc.shape n hlive] at hy
    rw [hc.shape b hblive] at hz
    rw [Graph.operands_of_shape?, hc.shape b hblive, ← Graph.operands_of_shape?] at hone
    obtain ⟨w, hw, hwop⟩ := block_of_descends hs.descends (ho.lt_size hblive₀) hz hzop
    obtain ⟨x, hx⟩ := Graph.exists_node_of_lt (ho.lt_size hlive₀)
    obtain ⟨y', hy', hkeep⟩ := hs.descends n _ (Graph.shape?_eq hx)
    rw [hy] at hy'
    cases hy'
    have hcomb := hs.phi n b _ w hlive₀ (Graph.shape?_eq hx) (hkeep.block.symm.trans hyb) hblive₀
      hw hwop (Relation.ReflTransGen.mono (fun s c => (hc.flows s c).mp) _ _ hreach) hone
    rwa [Combines, hc.shape n hlive]
  · rw [hsame]
    refine (keptAlive_congr fun n hn => isDead_congr ?_).trans hs.keepAlive
    obtain ⟨x, hx, hmem⟩ := Graph.mem_operands_of_shape hn
    exact hc.isRetired hstop (Graph.mem_inputs.mpr ⟨x, hx, .inr hmem⟩)

/-- If control reached every block before a round, nothing is left to do after it. -/
theorem Round.clean (ho : Orderly h.Live h) (hr : Round h t u v) (hconn : h.Connected) :
    Clean v := by
  have ho₁ := ho.sweeps hr.sweeps
  have hcollects := Collects.of_contracts hr.collects
  rw [hr.connected (hr.swept.connected ho ho₁ hconn)] at hcollects
  exact hr.swept.clean ho ho₁ hcollects

/-! ### Nothing left to do -/

/-- What a round looks up is there. -/
theorem Orderly.exists_survey (ho : Orderly A d.graph) (hknot : ¬ d.graph.Knotted) :
    ∃ live blocks members, d.graph.live = .ok live ∧
      d.graph.select (·.op == .block) live.toList = .ok blocks ∧
      d.graph.membersByBlock live.toList = .ok members ∧ Survey d.graph blocks members ∧
      ∃ reachable, d.graph.reachableBlocks blocks = .ok reachable ∧
        ∀ b, reachable.contains b = true ↔
          Relation.ReflTransGen d.graph.Flows Anchor.startBlock b := by
  obtain ⟨walk, hwalk⟩ := Walk.exists_run (ho.lt_size_of_anchor rfl) hknot
  have hlive : d.graph.live = .ok walk.live := bind_of_ok hwalk
  have hrange : ∀ n ∈ walk.live.toList, n < d.graph.size := fun n hn =>
    ho.lt_size ((Graph.contains_live hlive).mp (BitSet.mem_toList.mp hn))
  obtain ⟨blocks, hblocks⟩ := Graph.exists_select (g := d.graph) (·.op == .block) hrange
  obtain ⟨members, hmembers⟩ := Graph.exists_membersByBlock hrange
  have hsurvey := Survey.of_live hlive hblocks hmembers
  obtain ⟨reachable, hreach⟩ :=
    Graph.exists_reachableBlocks (ho.lt_size_of_anchor rfl)
      fun b hb => ho.lt_size ((hsurvey.mem_blocks b).mp hb).1
  refine ⟨_, _, _, hlive, hblocks, hmembers, hsurvey, _, hreach, fun b => ?_⟩
  rw [Graph.contains_reachableBlocks hreach]
  have hflows : d.graph.Follows blocks = d.graph.Flows :=
    funext fun s => funext fun t => propext hsurvey.follows_iff
  rw [hflows]

/-- No predecessor is dead. -/
theorem dropDeadEdges_of_clean (hclean : Clean d.graph) (hsurvey : Survey d.graph blocks members)
    {b : NodeId} (hb : b ∈ blocks) : dropDeadEdges members (d, 0) b = .ok (d, 0) := by
  obtain ⟨hlive, y, hy, hop⟩ := (hsurvey.mem_blocks b).mp hb
  obtain ⟨x, hx, rfl⟩ := Option.map_eq_some_iff.mp hy
  have hsize : ∀ n ∈ members.filed b, n < d.graph.size := fun n hn => by
    obtain ⟨-, z, hz, -⟩ := (hsurvey.mem_members n b).mp hn
    exact Graph.lt_size_of_shape? hz
  obtain ⟨phis, hphis⟩ := Graph.exists_select (g := d.graph) (·.op == .phi) hsize
  have hnode : d.graph.node b = .ok x := Graph.node_eq_ok_iff.mpr hx
  have hturn : ∀ i ∈ (List.range x.operands.length).reverse,
      dropDeadEdge b phis (d, 0) i = .ok (d, 0) := by
    intro i hi
    have hlt : i < x.operands.length := by simpa using hi
    have halive := hclean.edge b _ hlive hy hop _ (List.getElem_mem hlt)
    unfold dropDeadEdge
    show (d.graph.node b >>= _) = _
    rw [bind_of_ok hnode, List.getElem?_eq_getElem hlt]
    simp only [halive]
    rfl
  unfold dropDeadEdges
  rw [bind_of_ok hphis, bind_of_ok hnode]
  exact foldlM_eq_self hturn

/-- No phi is left with one operand. -/
theorem mergePhis_of_clean {reachable : BitSet} (hclean : Clean d.graph)
    (hsurvey : Survey d.graph blocks members)
    (hreach : ∀ b, reachable.contains b = true ↔
      Relation.ReflTransGen d.graph.Flows Anchor.startBlock b) {b : NodeId} (hb : b ∈ blocks) :
    mergePhis members reachable (d, 0) b = .ok (d, 0) := by
  obtain ⟨hblive, y, hy, hyop⟩ := (hsurvey.mem_blocks b).mp hb
  obtain ⟨x, hx, rfl⟩ := Option.map_eq_some_iff.mp hy
  unfold mergePhis
  rw [bind_of_ok (Graph.node_eq_ok_iff.mpr hx)]
  split
  · next hcond =>
    obtain ⟨hcontains, hlength⟩ := Bool.and_eq_true_iff.mp hcond
    refine foldlM_eq_self fun n hn => ?_
    obtain ⟨hlive, z, hz, hzb⟩ := (hsurvey.mem_members n b).mp hn
    have hcombines := hclean.phi n b z _ hlive hz hzb hblive hy hyop ((hreach b).mp hcontains)
      (by rw [Graph.operands_eq hx]; exact eq_of_beq hlength)
    obtain ⟨w, hw, rfl⟩ := Option.map_eq_some_iff.mp hz
    unfold mergePhi
    show (d.graph.node n >>= _) = _
    rw [bind_of_ok (Graph.node_eq_ok_iff.mpr hw)]
    split
    · next value hop hops =>
      rw [if_pos (hcombines _ hz hop value hops)]
      rfl
    · rfl
  · rfl

/-- Keep-alives that all stay leave no position to drop. -/
theorem staleKeepAlives_eq_nil (hl : keptAlive h l = l) (i : Nat) :
    staleKeepAlives h l i = [] := by
  have hlength (l : List NodeId) : (keptAlive h l).length ≤ l.length := by
    induction l with
    | nil => exact Nat.le_refl 0
    | cons n l ih =>
      rw [keptAlive]
      split
      · exact Nat.le_succ_of_le ih
      · exact Nat.succ_le_succ ih
  induction l generalizing i with
  | nil => rfl
  | cons n later ih =>
    rw [keptAlive] at hl
    split at hl
    · have := hlength later
      rw [hl, List.length_cons] at this
      omega
    · next hkeep =>
      rw [staleKeepAlives, ih (List.cons.inj hl).2, if_neg hkeep]

theorem dropKeepAlives_of_clean (ho : Orderly A d.graph) (hclean : Clean d.graph) :
    dropKeepAlives d = .ok (d, 0) := by
  obtain ⟨y, hy, -⟩ := ho.anchor Anchor.stop _ rfl
  obtain ⟨x, hx, rfl⟩ := Option.map_eq_some_iff.mp hy
  have hkeep : d.graph.keepAlives = .ok x.operands := bind_of_ok (Graph.node_eq_ok_iff.mpr hx)
  have hstale : staleKeepAlives d.graph x.operands 0 = [] := by
    refine staleKeepAlives_eq_nil ?_ 0
    rw [← Graph.operands_eq hx]
    exact hclean.keepAlive
  unfold dropKeepAlives
  rw [bind_of_ok hkeep, hstale]
  rfl

/-- The first half of a round finds nothing to do. -/
theorem removeDeadEdges_of_clean (ho : Orderly A d.graph) (hknot : ¬ d.graph.Knotted)
    (hclean : Clean d.graph) : removeDeadEdges d = .ok {} d := by
  obtain ⟨live, blocks, members, hlive, hblocks, hmembers, hsurvey, reachable, hreach, hcontains⟩ :=
    ho.exists_survey hknot
  have hedges : blocks.foldlM (dropDeadEdges members) (d, 0) = .ok (d, 0) :=
    foldlM_eq_self fun b hb => dropDeadEdges_of_clean hclean hsurvey hb
  have hphis : blocks.foldlM (mergePhis members reachable) (d, 0) = .ok (d, 0) :=
    foldlM_eq_self fun b hb => mergePhis_of_clean hclean hsurvey hcontains hb
  refine Editing.change_of_ok ?_
  rw [bind_of_ok hlive, bind_of_ok hblocks, bind_of_ok hmembers, bind_of_ok hedges]
  show (d.graph.reachableBlocks blocks >>= _) = _
  rw [bind_of_ok hreach, bind_of_ok hphis]
  show (dropKeepAlives d >>= _) = _
  rw [bind_of_ok (dropKeepAlives_of_clean ho hclean)]
  rfl

/-- Control reaches every block. -/
theorem removeBlocks_of_connected (ho : Orderly A d.graph) (hknot : ¬ d.graph.Knotted)
    (hconn : d.graph.Connected) : removeBlocks d = .ok (0, d) := by
  obtain ⟨live, blocks, members, hlive, hblocks, hmembers, hsurvey, reachable, hreach, hcontains⟩ :=
    ho.exists_survey hknot
  have hdead : (blocks.filter fun b =>
      !reachable.contains b && b != Anchor.startBlock && b != Anchor.endBlock) = [] := by
    refine List.filter_eq_nil_iff.mpr fun b hb => ?_
    obtain ⟨hblive, y, hy, hop⟩ := (hsurvey.mem_blocks b).mp hb
    by_cases hend : b = Anchor.endBlock
    · simp [hend]
    · simp [(hcontains b).mpr (hconn b y hblive hy hop hend)]
  unfold removeBlocks
  rw [bind_of_ok hlive, bind_of_ok hblocks, bind_of_ok hreach, bind_of_ok hmembers]
  simp only [hdead]
  rfl

/-- Everything in use is live. -/
theorem removeGarbage_of_used (ho : Orderly A d.graph) (hknot : ¬ d.graph.Knotted)
    (hused : ∀ n, d.graph.isRetired n = false → d.graph.Live n) :
    removeGarbage d = .ok (0, d) := by
  obtain ⟨live, _, _, hlive, -⟩ := ho.exists_survey hknot
  have hgarbage : (d.graph.ids.filter fun n => !live.contains n) = [] := by
    refine List.filter_eq_nil_iff.mpr fun n hn => ?_
    have hret : d.graph.isRetired n = false := by
      simpa using (List.mem_filter.mp hn).2
    simp [(Graph.contains_live hlive).mpr (hused n hret)]
  unfold removeGarbage
  rw [bind_of_ok hlive]
  simp only [hgarbage]
  rfl

/-- A round finds nothing to do. -/
theorem round_of_clean (hs : Settled d.graph) (hclean : Clean d.graph) : round d = .ok {} d := by
  have hsecond : removeUnreachable d = .ok {} d := by
    unfold removeUnreachable
    rw [Editing.bind_of_ok (Editing.change_of_ok
        (removeBlocks_of_connected hs.orderly hs.unknotted hs.connected)),
      Editing.bind_of_ok (Editing.change_of_ok
        (removeGarbage_of_used hs.orderly hs.unknotted hs.used))]
    rfl
  unfold round
  rw [Editing.bind_of_ok (removeDeadEdges_of_clean hs.orderly hs.unknotted hclean),
    Editing.bind_of_ok hsecond]
  rfl

/-- Cleaning up finds nothing to do. -/
theorem run_of_clean (hs : Settled d.graph) (hclean : Clean d.graph) (check : Bool) :
    run check d = .ok {} d := by
  have hround := round_of_clean hs hclean
  unfold run
  rw [Editing.bind_of_ok hround, Editing.bind_of_ok hround]
  cases check with
  | false => rfl
  | true =>
    rw [if_pos rfl, Editing.bind_of_ok (Editing.silently_of_ok hround)]
    rfl

/-! ### Two rounds suffice -/

/-- After two rounds a third one finds nothing to do. -/
theorem Orderly.third_round (ho : Orderly d.graph.Live d.graph) {c₁ c₂ : Counts} {d₁ d₂ : Draft}
    (h₁ : round d = .ok c₁ d₁) (h₂ : round d₁ = .ok c₂ d₂) : round d₂ = .ok {} d₂ := by
  obtain ⟨t₁, u₁, hr₁⟩ := Round.of_ok ho h₁
  have hs₁ := hr₁.settled ho
  obtain ⟨t₂, u₂, hr₂⟩ := Round.of_ok hs₁.orderly h₂
  exact round_of_clean (hr₂.settled hs₁.orderly) (hr₂.clean hs₁.orderly hs₁.connected)

/-- Checking that nothing is left to clean up adds no failure. -/
theorem Orderly.run_ends (ho : Orderly d.graph.Live d.graph) (check : Bool) :
    Editing.Ends Error.IsMalformed (fun _ _ => True) (run check) d := by
  have hsize : Anchor.bad < d.graph.size := ho.lt_size_of_anchor rfl
  refine (round_ends ⟨ho.mirrored, rfl⟩ hsize).attach.bind fun c₁ d₁ ⟨h₁, ha₁⟩ => ?_
  refine (round_ends ha₁ hsize).attach.bind fun c₂ d₂ ⟨h₂, _⟩ => ?_
  cases check with
  | false => exact trivial
  | true =>
    have hthird := Editing.silently_of_ok (ho.third_round h₁ h₂)
    rw [if_pos rfl, Editing.Ends, Editing.bind_of_ok hthird]
    exact trivial

/-- If no live block stands in a block or has a phi among its predecessors, then cleaning up never
finds something left after its two rounds: a third round removes nothing and changes nothing. -/
theorem third_round_idle (hbuilt : d.graph.Built)
    (houter : ∀ b x, d.graph.Live b → d.graph.nodes[b]? = some x → x.op = .block → x.block = none)
    (hpred : ∀ b x, d.graph.Live b → d.graph.nodes[b]? = some x → x.op = .block →
      ∀ p ∈ x.operands, ∀ y, d.graph.nodes[p]? = some y → y.op ≠ .phi) :
    (∀ function d', run true d ≠ .error (.cleanupDiverged function) d') ∧
      ∀ c₁ c₂ d₁ d₂, round d = .ok c₁ d₁ → round d₁ = .ok c₂ d₂ → round d₂ = .ok {} d₂ := by
  have ho : Orderly d.graph.Live d.graph := by
    refine .of_built hbuilt (fun b y hb hy hop => ?_) fun b y hb hy hop p hp z hz => ?_
    · obtain ⟨x, hx, rfl⟩ := Option.map_eq_some_iff.mp hy
      exact houter b x hb hx hop
    · obtain ⟨x, hx, rfl⟩ := Option.map_eq_some_iff.mp hy
      obtain ⟨w, hw, rfl⟩ := Option.map_eq_some_iff.mp hz
      exact hpred b x hb hx hop p hp w hw
  refine ⟨fun function d' hdiverged => ?_, fun c₁ c₂ d₁ d₂ => ho.third_round⟩
  obtain ⟨m, hm⟩ := (ho.run_ends true).fails hdiverged
  cases hm

/-- A block that control cannot reach jumps into one that it can. The first round removes the block,
the second the edge from it, with the phi that merged a value along it. -/
def deadDiamond : List Edit :=
  [.addNode .jump .control (some Anchor.startBlock) [],
    .addNode .block .block none [],
    .addNode .jump .control (some 6) [],
    .addNode .block .block none [5, 7],
    .addNode (.const (.bool true)) .bool (some Anchor.startBlock) [],
    .addNode (.const (.bool false)) .bool (some 6) [],
    .addNode .phi .bool (some 8) [9, 10],
    .addNode (.proj .memory) .memory (some Anchor.startBlock) [Anchor.start],
    .addNode .ret .control (some 8) [12, 11],
    .addOperand Anchor.endBlock 13]

/-- Whether the block `x` stands in no block and has no phi among its predecessors. -/
def checkOrderly (g : Graph) (x : Node) : Bool :=
  x.op != .block || x.block.isNone && x.operands.all fun p => g.nodes[p]?.all (·.op != .phi)

/-- The counts of two rounds. -/
def countRounds : Editing (Counts × Counts) := do return (← round, ← round)

theorem third_round_idle_deadDiamond :
    ∃ g c₁ c₂ d₁ d₂, deadDiamond.foldlM Graph.apply (.new "f" 0) = .ok g ∧
      round { graph := g } = .ok c₁ d₁ ∧ c₁ = { blocks := 1 } ∧
      round d₁ = .ok c₂ d₂ ∧ c₂ = { edges := 1, phis := 1 } ∧ round d₂ = .ok {} d₂ ∧
      ∀ function d', run true { graph := g } ≠ .error (.cleanupDiverged function) d' := by
  have hok : (deadDiamond.foldlM Graph.apply (.new "f" 0)).map (fun g =>
      (g.nodes.toList.all (checkOrderly g),
        match countRounds { graph := g } with
        | .ok c _ => some c
        | .error .. => none)) = .ok (true, some ({ blocks := 1 }, { edges := 1, phis := 1 })) := by
    decide +kernel
  cases hg : deadDiamond.foldlM Graph.apply (.new "f" 0) with
  | error e =>
    rw [hg] at hok
    cases hok
  | ok g =>
    rw [hg] at hok
    obtain ⟨hcheck, hrounds⟩ := Prod.mk.inj (Except.ok.inj hok)
    have horderly : ∀ (n : NodeId) (x : Node), g.nodes[n]? = some x → x.op = .block →
        x.block = none ∧ ∀ p ∈ x.operands, ∀ y : Node, g.nodes[p]? = some y → y.op ≠ .phi := by
      intro n x hx hop
      have hx' := List.all_eq_true.mp hcheck x (List.mem_of_getElem? (by simpa using hx))
      simp only [checkOrderly, hop, bne_self_eq_false, Bool.false_or, Bool.and_eq_true,
        Option.isNone_iff_eq_none, List.all_eq_true] at hx'
      refine ⟨hx'.1, fun p hp y hy => ?_⟩
      have := hx'.2 p hp
      rw [hy] at this
      simpa using this
    obtain ⟨hnever, hthird⟩ := third_round_idle (d := { graph := g })
      ((Graph.Built.new "f" 0).foldlM hg) (fun b x _ hx hop => (horderly b x hx hop).1)
      fun b x _ hx hop => (horderly b x hx hop).2
    split at hrounds
    next c d₂ hc =>
      obtain ⟨c₁, d₁, h₁, hc⟩ := Editing.bind_eq_ok hc
      obtain ⟨c₂, d₂', h₂, hc⟩ := Editing.bind_eq_ok hc
      cases hc
      obtain ⟨rfl, rfl⟩ := Prod.mk.inj (Option.some.inj hrounds)
      exact ⟨g, _, _, d₁, _, rfl, h₁, rfl, h₂, rfl, hthird _ _ _ _ h₁ h₂, hnever⟩
    next => cases hrounds

end Cleanup

end SeaOfNodes
