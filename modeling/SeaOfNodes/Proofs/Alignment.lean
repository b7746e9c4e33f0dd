import SeaOfNodes.Proofs.Sweeping
import SeaOfNodes.Substitution

/-!
Phis stay aligned with the predecessors of their blocks.

The first half of a round drops the dead predecessors of each live block, and the phis of the block
lose the operands at the same positions, so that both are left with those at `openPositions`. Then
it collapses phis that have one operand left. A collapse redirects the operands of other phis too;
the collapses are collected in a `Renaming`, and `Renaming.resolve` says what has become of an
operand. The main result is `removeDeadEdges_aligned`.
-/

namespace SeaOfNodes

namespace Cleanup

open Rewriting

variable {g h₀ h : Graph} {blocks : List NodeId} {members : IdMap (List NodeId)}
  {reachable : BitSet} {d d' : Draft} {m : Renaming} {k : Nat}

/-- Every live phi stands in a block and has one operand for each predecessor of it, and no live
block has a phi as predecessor. -/
structure Paired (g : Graph) : Prop where
  phi : ∀ n x, g.Live n → g.shape? n = some x → x.op = .phi →
    ∃ b y, x.block = some b ∧ g.shape? b = some y ∧ y.op = .block ∧
      x.operands.length = y.operands.length
  predecessor : ∀ b y, g.Live b → g.shape? b = some y → y.op = .block →
    ∀ p ∈ y.operands, ∀ z, g.shape? p = some z → z.op ≠ .phi

/-! ### Collapses -/

/-- What merging phis has made of `h` by the exchanges `m`. Each of them replaced a phi of a block
with one predecessor by what the one operand of the phi had become. -/
structure Collapsing (h₀ h : Graph) (reachable : BitSet) (k : Nat) (m : Renaming)
    (t : Draft × Nat) : Prop where
  contracts : Contracts h t.1.graph (· ∈ m.map Prod.fst) m.resolve
  distinct : (m.map Prod.fst).Nodup
  count : t.2 = k + m.length
  reason : ∀ (n v : NodeId) (earlier : Renaming), (n, v) :: earlier <:+ m → n ≠ v ∧
    ∃ b o, PhiOf h₀ b n ∧ reachable.contains b = true ∧ (h.operands b).length = 1 ∧
      h.operands n = [o] ∧ v = earlier.resolve o

theorem Collapsing.refl (hm : d.graph.Mirrored) :
    Collapsing h₀ d.graph reachable k [] (d, k) where
  contracts := (Contracts.refl hm (by simp)).congr (fun _ => .rfl) fun _ => rfl
  distinct := .nil
  count := rfl
  reason n v earlier hsuffix := by simp at hsuffix

/-- One phi is looked at. -/
theorem Collapsing.mergePhi {s s' : Draft × Nat} {n b : NodeId}
    (hc : Collapsing h₀ h reachable k m s)
    (hphi : ∀ y, h.shape? n = some y → y.op = .phi → PhiOf h₀ b n)
    (hreach : reachable.contains b = true) (hone : (h.operands b).length = 1)
    (hturn : mergePhi s n = .ok s') : ∃ m', Collapsing h₀ h reachable k m' s' := by
  rcases mergePhi_eq_ok hturn with ⟨rfl, -⟩ | ⟨x, v, hx, hop, hops, hne, hex, hcount⟩
  · exact ⟨m, hc⟩
  · obtain ⟨hfresh, y, hy, hxy⟩ :=
      hc.contracts.back (Graph.shape?_eq hx) (by simp [Node.shape, hop])
    have hyop : y.op = .phi := (congrArg Shape.op hxy).symm.trans hop
    obtain ⟨o, ho, rfl⟩ := List.map_eq_singleton_iff.mp
      ((congrArg Shape.operands hxy).symm.trans hops)
    refine ⟨(n, m.resolve o) :: m,
      (hc.contracts.trans (.of_exchange hc.contracts.mirrored hne hex)).congr (fun i => ?_)
        fun _ => rfl, List.nodup_cons.mpr ⟨hfresh, hc.distinct⟩, ?_, fun i w earlier hsuffix => ?_⟩
    · rw [List.map_cons, List.mem_cons, or_comm]
    · rw [hcount, hc.count]
      rfl
    · rcases List.suffix_cons_iff.mp hsuffix with heq | hsuffix
      · cases heq
        exact ⟨hne, b, o, hphi y hy hyop, hreach, hone,
          (Graph.operands_eq_of_shape hy).trans ho, rfl⟩
      · exact hc.reason i w earlier hsuffix

/-- The phis of one block are looked at. -/
theorem Collapsing.mergePhis (hs : Survey h₀ blocks members)
    {cut : NodeId → List NodeId → List NodeId} (hcut : Trims h₀ h cut) {s s' : Draft × Nat}
    {b : NodeId} (hc : Collapsing h₀ h reachable k m s)
    (hturn : mergePhis members reachable s b = .ok s') :
    ∃ m', Collapsing h₀ h reachable k m' s' := by
  obtain ⟨x, hx, hturn⟩ := bind_eq_ok.mp hturn
  split at hturn
  next hcond =>
    obtain ⟨hreach, hlen⟩ := Bool.and_eq_true_iff.mp hcond
    have hlen : (s.1.graph.operands b).length = 1 := by
      rw [Graph.operands_eq (Graph.node_eq_ok hx)]
      exact eq_of_beq hlen
    have hone : (h.operands b).length = 1 := by
      rw [hc.contracts.operands_eq (List.ne_nil_of_length_eq_add_one hlen),
        List.length_map] at hlen
      exact hlen
    refine foldlM_eq_ok (I := fun _ t => ∃ m', Collapsing h₀ h reachable k m' t) hturn ⟨m, hc⟩
      fun done n rest t t' hsplit ⟨m', ht⟩ hturn =>
        ht.mergePhi (b := b) (fun y hy hop => ?_) hreach hone hturn
    obtain ⟨hlive, z, hz, hzb⟩ := (hs.mem_members n b).mp (by simp [hsplit])
    rw [hcut.some hz] at hy
    cases hy
    exact ⟨hlive, z, hz, hop, hzb⟩
  next =>
    cases hturn
    exact ⟨m, hc⟩

/-- The phis of all blocks are looked at. -/
theorem mergeAllPhis_collapses (hs : Survey h₀ blocks members)
    {cut : NodeId → List NodeId → List NodeId} (hcut : Trims h₀ d.graph cut) {s : Draft × Nat}
    (h : blocks.foldlM (mergePhis members reachable) (d, k) = .ok s) :
    ∃ m, Collapsing h₀ d.graph reachable k m s :=
  foldlM_eq_ok (I := fun _ t => ∃ m, Collapsing h₀ d.graph reachable k m t) h
    ⟨[], .refl hcut.mirrored⟩ fun _ _ _ _ _ _ ⟨_, ht⟩ hturn => ht.mergePhis hs hcut hturn

/-- A node that was exchanged was a phi. -/
theorem Collapsing.phiOf {t : Draft × Nat} (hc : Collapsing h₀ h reachable k m t) {n : NodeId}
    (hn : n ∈ m.map Prod.fst) : ∃ b, PhiOf h₀ b n := by
  obtain ⟨⟨n, v⟩, hmem, rfl⟩ := List.mem_map.mp hn
  obtain ⟨later, earlier, rfl⟩ := List.append_of_mem hmem
  obtain ⟨-, b, -, hphi, -⟩ := hc.reason n v earlier (List.suffix_append later _)
  exact ⟨b, hphi⟩

/-! ### The half as a whole -/

/-- After the collapses `earlier` the phi `n` may be collapsed onto `v`: control reaches its block,
which has one predecessor left, and `v` is what the operand for that predecessor has become. -/
def CollapsesOnto (g : Graph) (earlier : Renaming) (n v : NodeId) : Prop :=
  n ≠ v ∧ ∃ b k o, PhiOf g b n ∧ Relation.ReflTransGen g.Flows Anchor.startBlock b ∧
    openPositions g b = [k] ∧ (g.operands n)[k]? = some o ∧ v = earlier.resolve o

/-- `h` is `g` without its dead edges, after the collapses `m`. -/
structure Aligned (g h : Graph) (m : Renaming) : Prop where
  block : ∀ b x, g.Live b → g.shape? b = some x → x.op = .block →
    h.shape? b = some { x with operands := pick x.operands (openPositions g b) }
  phi : ∀ n b x, g.Live n → g.shape? n = some x → x.op = .phi → x.block = some b →
    n ∉ m.map Prod.fst →
    h.shape? n = some { x with operands := (pick x.operands (openPositions g b)).map m.resolve }
  collapsed : ∀ (n v : NodeId) (earlier : Renaming), (n, v) :: earlier <:+ m →
    h.Removed n ∧ CollapsesOnto g earlier n v
  distinct : (m.map Prod.fst).Nodup
  other : ∀ n x, g.shape? n = some x → n ≠ Anchor.stop →
    (g.Live n → x.op ≠ .block ∧ x.op ≠ .phi) →
    h.shape? n = some { x with operands := x.operands.map m.resolve }

/-- A phi belongs to a live block, and has as many operands. -/
theorem PhiOf.paired (hp : Paired g) {b n : NodeId} (hn : PhiOf g b n) :
    (g.Live b ∧ ∃ y, g.shape? b = some y ∧ y.op = .block) ∧
      (g.operands n).length = (g.operands b).length := by
  obtain ⟨hlive, x, hx, hop, hb⟩ := hn
  obtain ⟨c, y, hc, hy, hyop, hlen⟩ := hp.phi n x hlive hx hop
  cases hb.symm.trans hc
  have hused : g.isRetired b = false :=
    Graph.isRetired_eq_false_iff.mpr ⟨y, hy, by simp [hyop]⟩
  refine ⟨⟨hlive.needs ⟨Graph.mem_inputs.mpr ⟨x, hx, .inl hb⟩, hused⟩, y, hy, hyop⟩, ?_⟩
  rw [Graph.operands_eq_of_shape hx, Graph.operands_eq_of_shape hy, hlen]

theorem lt_length_of_mem_openPositions {b : NodeId} {i : Nat} (hi : i ∈ openPositions g b) :
    i < (g.operands b).length :=
  List.lt_add_of_mem_findIdxs i hi

theorem Cleared.shape {t : Draft × Nat} (hc : Cleared g k blocks t) {n : NodeId} {x : Shape}
    (hx : g.shape? n = some x) :
    t.1.graph.shape? n = some { x with operands := t.1.graph.operands n } := by
  obtain ⟨cut, hcut⟩ := hc.trims
  rw [hcut.operands_eq, Graph.operands_eq_of_shape hx, hcut.some hx]

/-- Only dead edges are dropped, so control flows as before. -/
theorem Cleared.flows (hs : Survey g blocks members) (hm : g.Mirrored) {t : Draft × Nat}
    (hc : Cleared g k blocks t) {b b' : NodeId} (h : t.1.graph.Follows blocks b b') :
    g.Flows b b' := by
  obtain ⟨cut, hcut⟩ := hc.trims
  obtain ⟨hb', p, hmem, hbad, hused, hblock⟩ := h
  have hmem := hcut.operands hmem
  rw [hcut.isRetired] at hused
  rw [blockOf_of_descends hcut.descends (hm.lt_size hmem)] at hblock
  exact hs.follows_iff.mp ⟨hb', p, hmem, hbad, hused, hblock⟩

section collapsing

variable {s t : Draft × Nat} (hs : Survey g blocks members) (hcl : Cleared g 0 blocks s)
  (hc : Collapsing g s.1.graph reachable k m t)

include hcl hc

/-- A node that was not collapsed. -/
theorem Collapsing.shape {n : NodeId} {x : Shape} (hx : g.shape? n = some x)
    (hn : n ∉ m.map Prod.fst) :
    t.1.graph.shape? n = some { x with operands := (s.1.graph.operands n).map m.resolve } :=
  hc.contracts.shape hn (hcl.shape hx)

omit hcl in
theorem Collapsing.not_mem {n : NodeId} {x : Shape} (hx : g.shape? n = some x)
    (hkind : g.Live n → x.op ≠ .phi) : n ∉ m.map Prod.fst := by
  intro hn
  obtain ⟨b, hlive, y, hy, hop, -⟩ := hc.phiOf hn
  cases hx.symm.trans hy
  exact hkind hlive hop

include hs

/-- No predecessor is a phi, so none was collapsed. -/
theorem Collapsing.block (hp : Paired g) {b : NodeId} {x : Shape} (hlive : g.Live b)
    (hx : g.shape? b = some x) (hop : x.op = .block) :
    t.1.graph.shape? b = some { x with operands := pick x.operands (openPositions g b) } := by
  have hmem := (hs.mem_blocks b).mpr ⟨hlive, x, hx, hop⟩
  have hsame : (pick x.operands (openPositions g b)).map m.resolve =
      pick x.operands (openPositions g b) := by
    refine (List.map_congr_left fun p hmem => hc.contracts.stays p fun hp' => ?_).trans
      (List.map_id _)
    obtain ⟨i, -, hi⟩ := mem_pick.mp hmem
    obtain ⟨c, -, z, hz, hzop, -⟩ := hc.phiOf hp'
    exact hp.predecessor b x hlive hx hop p (List.mem_of_getElem? hi) z hz hzop
  rw [hc.shape hcl hx (hc.not_mem hx fun _ => by simp [hop]), hcl.kept b hmem b (.inl rfl),
    Graph.operands_eq_of_shape hx, hsame]

theorem Collapsing.phi (hp : Paired g) {n b : NodeId} {x : Shape} (hlive : g.Live n)
    (hx : g.shape? n = some x) (hop : x.op = .phi) (hb : x.block = some b)
    (hn : n ∉ m.map Prod.fst) :
    t.1.graph.shape? n =
      some { x with operands := (pick x.operands (openPositions g b)).map m.resolve } := by
  have hphi : PhiOf g b n := ⟨hlive, x, hx, hop, hb⟩
  obtain ⟨hblock, hlen⟩ := hphi.paired hp
  rw [hc.shape hcl hx hn, hcl.kept b ((hs.mem_blocks b).mpr hblock) n (.inr ⟨hphi, hlen⟩),
    Graph.operands_eq_of_shape hx]

theorem Collapsing.other {n : NodeId} {x : Shape} (hx : g.shape? n = some x)
    (hkind : g.Live n → x.op ≠ .block ∧ x.op ≠ .phi) :
    t.1.graph.shape? n = some { x with operands := x.operands.map m.resolve } := by
  rw [hc.shape hcl hx (hc.not_mem hx fun hlive => (hkind hlive).2), hcl.other n,
    Graph.operands_eq_of_shape hx]
  intro b hb
  obtain ⟨hlive, y, hy, hyop⟩ := (hs.mem_blocks b).mp hb
  constructor
  · rintro rfl
    cases hx.symm.trans hy
    exact (hkind hlive).1 hyop
  · rintro ⟨hlive, z, hz, hzop, -⟩
    cases hx.symm.trans hz
    exact (hkind hlive).2 hzop

theorem Collapsing.collapsesOnto (hp : Paired g) (hm : g.Mirrored)
    (hreachable : s.1.graph.reachableBlocks blocks = .ok reachable) {n v : NodeId}
    {earlier : Renaming} (hsuffix : (n, v) :: earlier <:+ m) : CollapsesOnto g earlier n v := by
  obtain ⟨hne, b, o, hphi, hreach, hone, hops, hv⟩ := hc.reason n v earlier hsuffix
  obtain ⟨hb, hlen⟩ := hphi.paired hp
  have hmem := (hs.mem_blocks b).mpr hb
  rw [hcl.kept b hmem b (.inl rfl), length_pick fun _ => lt_length_of_mem_openPositions] at hone
  obtain ⟨i, hi⟩ := List.length_eq_one_iff.mp hone
  obtain ⟨j, hj, ho⟩ : ∃ j ∈ openPositions g b, (g.operands n)[j]? = some o := by
    rw [← mem_pick, ← hcl.kept b hmem n (.inr ⟨hphi, hlen⟩), hops]
    exact List.mem_singleton_self o
  rw [hi, List.mem_singleton] at hj
  subst hj
  have hpath := (Graph.contains_reachableBlocks hreachable b).mp hreach
  exact ⟨hne, b, j, o, hphi, Relation.ReflTransGen.mono (fun _ _ => hcl.flows hs hm) _ _ hpath,
    hi, ho, hv⟩

/-- Dropping dead edges, then collapsing phis, leaves phis aligned, and so does anything that
changes the stop node only. -/
theorem Collapsing.aligned (hbuilt : g.Built) (hp : Paired g)
    (hreachable : s.1.graph.reachableBlocks blocks = .ok reachable)
    (hframe : ∀ n, n ≠ Anchor.stop → h.shape? n = t.1.graph.shape? n) : Aligned g h m := by
  have hstop {n : NodeId} {x : Shape} (hx : g.shape? n = some x) (hop : x.op ≠ .stop)
      (hret : x.op ≠ .retired) : n ≠ Anchor.stop :=
    ne_stop_of_keeps rfl (hbuilt.keeps_anchor (i := Anchor.stop) rfl) hx hop hret
  refine ⟨fun b x hlive hx hop => ?_, fun n b x hlive hx hop hb hn => ?_,
    fun n v earlier hsuffix => ?_, hc.distinct, fun n x hx hn hkind => ?_⟩
  · rw [hframe b (hstop hx (by simp [hop]) (by simp [hop]))]
    exact hc.block hs hcl hp hlive hx hop
  · rw [hframe n (hstop hx (by simp [hop]) (by simp [hop]))]
    exact hc.phi hs hcl hp hlive hx hop hb hn
  · have hmem : n ∈ m.map Prod.fst :=
      List.mem_map_of_mem (f := Prod.fst) (hsuffix.subset List.mem_cons_self)
    obtain ⟨b, -, x, hx, hop, -⟩ := hc.phiOf hmem
    refine ⟨?_, hc.collapsesOnto hs hcl hp hbuilt.mirrored hreachable hsuffix⟩
    rw [Graph.Removed, hframe n (hstop hx (by simp [hop]) (by simp [hop])),
      hc.contracts.retires n hmem, hcl.shape hx]
    exact ⟨_, rfl, rfl⟩
  · rw [hframe n hn]
    exact hc.other hs hcl hx hkind

end collapsing

/-- The first half of a round drops from each live block the predecessors that are dead, and from
its phis the operands at the same positions; it collapses a phi only onto the operand for the one
predecessor left; and it counts the positions it dropped. -/
theorem removeDeadEdges_aligned {c : Counts} (hbuilt : d.graph.Built) (hp : Paired d.graph)
    (h : removeDeadEdges d = .ok c d') :
    ∃ (m : Renaming) (blocks : List NodeId), Aligned d.graph d'.graph m ∧ c.phis = m.length ∧
      blocks.Nodup ∧
      (∀ b, b ∈ blocks ↔ d.graph.Live b ∧ ∃ x, d.graph.shape? b = some x ∧ x.op = .block) ∧
      c.edges = (blocks.map fun b => (d.graph.operands b).countP (isDead d.graph)).sum := by
  obtain ⟨blocks, members, d₁, reachable, d₂, hs, hedges, hreachable, hphis, hkeep⟩ :=
    exists_of_removeDeadEdges h
  have hcl := dropAllDeadEdges_eq_ok hs hbuilt.mirrored hedges
  obtain ⟨cut, hcut⟩ := hcl.trims
  obtain ⟨m, hc⟩ := mergeAllPhis_collapses hs hcut hphis
  refine ⟨m, blocks, hc.aligned hs hcl hbuilt hp hreachable fun n hn =>
    dropKeepAlives_frame hc.contracts.mirrored hkeep hn, ?_, hs.distinct, hs.mem_blocks, ?_⟩
  · exact hc.count.trans (Nat.zero_add _)
  · exact hcl.count.trans (Nat.zero_add _)

/-- Whether phis and predecessors match, live or not. -/
def checkPaired (g : Graph) : Bool :=
  g.nodes.all fun x =>
    match x.op with
    | .phi => (x.block.bind fun b => g.nodes[b]?).any fun y =>
        y.op == .block && x.operands.length == y.operands.length
    | .block => x.operands.all fun p => g.nodes[p]?.all (·.op != .phi)
    | _ => true

theorem paired_of_check (h : checkPaired g = true) : Paired g where
  phi n x _ hx hop := by
    obtain ⟨y, hy, rfl⟩ := Option.map_eq_some_iff.mp hx
    have hop : y.op = .phi := hop
    have hcheck := Array.all_eq_true'.mp h y (Array.mem_of_getElem? hy)
    simp only [hop, Option.any_eq_true, Option.bind_eq_some_iff, Bool.and_eq_true,
      beq_iff_eq] at hcheck
    obtain ⟨z, ⟨b, hb, hz⟩, hzop, hlen⟩ := hcheck
    exact ⟨b, z.shape, hb, Graph.shape?_eq hz, hzop, hlen⟩
  predecessor b x _ hx hop p hp z hz := by
    obtain ⟨y, hy, rfl⟩ := Option.map_eq_some_iff.mp hx
    obtain ⟨w, hw, rfl⟩ := Option.map_eq_some_iff.mp hz
    have hop : y.op = .block := hop
    have hcheck := Array.all_eq_true'.mp h y (Array.mem_of_getElem? hy)
    simp only [hop, List.all_eq_true] at hcheck
    simpa [hw, Node.shape] using hcheck p hp

/-- The block 10 has one predecessor in use among three, for which its phi 15 has its phi 14 as
operand. The phi 17 joins 15 with a constant, in a block with a dead predecessor between two that
are in use. -/
def joinedPhis : List Edit :=
  [.addNode (.const (.bool true)) .bool (some Anchor.startBlock) [],
    .addNode (.const (.ofInt .i32 1)) (.int .i32) (some Anchor.startBlock) [],
    .addNode (.const (.ofInt .i32 2)) (.int .i32) (some Anchor.startBlock) [],
    .addNode (.const (.ofInt .i32 3)) (.int .i32) (some Anchor.startBlock) [],
    .addNode .jump .control (some Anchor.startBlock) [],
    .addNode .block .block none [Anchor.bad, 9, Anchor.bad],
    .addNode .cond .tuple (some 10) [5],
    .addNode (.proj (.arm true)) .control (some 10) [11],
    .addNode (.proj (.arm false)) .control (some 10) [11],
    .addNode .phi (.int .i32) (some 10) [6, 7, 8],
    .addNode .phi (.int .i32) (some 10) [6, 14, 8],
    .addNode .block .block none [12, Anchor.bad, 13],
    .addNode .phi (.int .i32) (some 16) [15, 8, 6],
    .keepAlive 17]

/-- Both phis of the block 10 collapse, the second because the first did, and the phi 17 is left
with its first and last operand. -/
theorem removeDeadEdges_aligned_joinedPhis :
    ∃ (g : Graph) (d' : Draft) (c : Counts) (m : Renaming) (blocks : List NodeId),
      joinedPhis.foldlM Graph.apply (.new "f" 0) = .ok g ∧ g.Built ∧ Paired g ∧
      removeDeadEdges { graph := g } = .ok c d' ∧ Aligned g d'.graph m ∧ m.length = 2 ∧
      (∀ b, b ∈ blocks ↔ g.Live b ∧ ∃ x, g.shape? b = some x ∧ x.op = .block) ∧
      (blocks.map fun b => (g.operands b).countP (isDead g)).sum = 3 ∧
      d'.graph.operands 16 = [12, 13] ∧ d'.graph.operands 17 = [7, 6] := by
  have hok : (do
      let g ← joinedPhis.foldlM Graph.apply (.new "f" 0)
      return (checkPaired g, match removeDeadEdges { graph := g } with
        | .ok c d' => (c.phis, c.edges, d'.graph.operands 16, d'.graph.operands 17)
        | .error _ _ => (0, 0, [], []))) = Except.ok (true, 2, 3, [12, 13], [7, 6]) := by
    decide +kernel
  obtain ⟨g, hg, hok⟩ := bind_eq_ok.mp hok
  obtain ⟨hcheck, hend⟩ := Prod.mk.inj (Except.ok.inj hok)
  have hbuilt : g.Built := (Graph.Built.new "f" 0).foldlM hg
  have hp := paired_of_check hcheck
  cases hrun : removeDeadEdges { graph := g } with
  | error e d' =>
    rw [hrun] at hend
    cases (Prod.mk.inj hend).1
  | ok c d' =>
    rw [hrun] at hend
    obtain ⟨hphis, hrest⟩ := Prod.mk.inj hend
    obtain ⟨hedges, hrest⟩ := Prod.mk.inj hrest
    obtain ⟨hblock, hphi⟩ := Prod.mk.inj hrest
    obtain ⟨m, blocks, haligned, hm, -, hmem, hsum⟩ := removeDeadEdges_aligned hbuilt hp hrun
    exact ⟨g, d', c, m, blocks, hg, hbuilt, hp, hrun, haligned, hm.symm.trans hphis, hmem,
      hsum.symm.trans hedges, hblock, hphi⟩

end Cleanup

end SeaOfNodes
