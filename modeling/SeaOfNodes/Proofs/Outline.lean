import SeaOfNodes.Proofs.Routes
import SeaOfNodes.Proofs.Visits
import SeaOfNodes.Proofs.WellFormed

/-!
Deciding whether a function is in proper form.

Proper form speaks about all routes, and a function with a loop has infinitely many. An `Outline`
says for each block what holds on every route to it: blocks that were passed, and the state of
memory. Whether it is right can be told edge by edge (`Outline.Fits`), and what fits along every
edge holds along every route (`Outline.Fits.passes`, `Outline.Fits.current`).
-/

namespace SeaOfNodes

open Execution

/-- What holds in a block, whatever the route to it. -/
structure Outline where
  /-- Blocks that were passed, the block itself among them. -/
  passed : NodeId → List NodeId
  /-- The state of memory after the phis. -/
  state : NodeId → Option NodeId

namespace Outline

variable {g : Graph} {s : Schedule} {o : Outline} {ok : NodeId → Prop} {p : Position}
  {rest : List Position} {m : NodeId}

/-- `m` is a state of memory that `t` leaves. -/
def StateOf (g : Graph) (t m : NodeId) : Prop :=
  ∃ x ∈ g.nodes[m]?, x.op = .proj .memory ∧ x.operands = [t]

instance (t : NodeId) : Decidable (StateOf g t m) := by
  unfold StateOf
  infer_instance

/-- `m` is the state of memory at the end of the block `b`. -/
def Final (o : Outline) (g : Graph) (s : Schedule) (b m : NodeId) : Prop :=
  (s.events b = [] ∧ o.state b = some m) ∨ ∃ t ∈ (s.events b).getLast?, StateOf g t m

instance (b : NodeId) : Decidable (o.Final g s b m) := by
  unfold Final
  infer_instance

/-- The outline is right about `b` when it is entered at position `k`, provided that it is right
about `q`, where control comes from. -/
def FitsEdge (o : Outline) (g : Graph) (s : Schedule) (b : NodeId) (k : Nat) (q : NodeId) : Prop :=
  (∀ c ∈ o.passed b, c = b ∨ c ∈ o.passed q) ∧
    ∀ m ∈ o.state b, (g.blockOf m ≠ some b ∧ o.Final g s q m) ∨
      ∃ x ∈ g.nodes[m]?, x.op = .phi ∧ x.block = some b ∧ ∃ i ∈ x.operands[k]?, o.Final g s q i

instance (b : NodeId) (k : Nat) (q : NodeId) : Decidable (o.FitsEdge g s b k q) := by
  unfold FitsEdge
  infer_instance

/-- The outline is right about the entry, and along every edge. -/
def Fits (o : Outline) (g : Graph) (s : Schedule) : Prop :=
  (∀ c ∈ o.passed Anchor.startBlock, c = Anchor.startBlock) ∧
    (∀ m ∈ o.state Anchor.startBlock, StateOf g Anchor.start m) ∧
    ∀ e ∈ s, e.2.op = .block → ∀ i ∈ e.2.operands.zipIdx, ∀ q ∈ g.blockOf i.1,
      o.FitsEdge g s e.1 i.2 q

instance : Decidable (o.Fits g s) := by
  unfold Fits
  infer_instance

theorem Fits.edge (hfits : o.Fits g s) (hs : s.Lists g) {b e : NodeId} {k : Nat} {x : Node}
    (hb : g.Live b) (hx : g.nodes[b]? = some x) (hop : x.op = .block)
    (hk : x.operands[k]? = some e) (he : g.blockOf e = some p.block) :
    o.FitsEdge g s b k p.block :=
  hfits.2.2 (b, x) ((hs.mem_iff b x).mpr ⟨hb, hx⟩) hop (e, k) (List.mem_zipIdx_iff_getElem?.mpr hk)
    p.block he

/-- The blocks that an outline that fits says were passed were passed. -/
theorem Fits.passes (hfits : o.Fits g s) (hs : s.Lists g) (hroute : Route g ok (p :: rest))
    {c : NodeId} (hc : c ∈ o.passed p.block) : c ∈ blocks (p :: rest) := by
  generalize hlist : p :: rest = route at hroute
  induction hroute generalizing p rest c with
  | entry =>
    cases hlist
    exact List.mem_singleton.mpr (hfits.1 c hc)
  | step _ hb hx hop hk he _ ih =>
    cases hlist
    rcases (hfits.edge hs hb hx hop hk he).1 c hc with heq | hc
    · exact List.mem_cons.mpr (.inl heq)
    · exact List.mem_cons_of_mem _ (ih hc rfl)

/-- The state at the end of a block is the one its last event leaves. -/
theorem Final.current {i : NodeId} (hfinal : o.Final g s p.block i)
    (hstate : ∀ m, o.state p.block = some m → Current g s (p :: rest) 0 m) :
    Current g s (p :: rest) (s.events p.block).length i := by
  rcases hfinal with ⟨hnone, hi⟩ | ⟨t, ht, x, hx, hop, hops⟩
  · rw [hnone]
    exact hstate i hi
  · obtain ⟨l, hl⟩ := List.getLast?_eq_some_iff.mp ht
    rw [hl, List.length_append, List.length_singleton]
    exact .after (by rw [hl]; simp) hx hop hops

/-- The state that an outline that fits gives is the current one. -/
theorem Fits.current (hfits : o.Fits g s) (hs : s.Lists g) (hroute : Route g ok (p :: rest))
    (hm : o.state p.block = some m) : Current g s (p :: rest) 0 m := by
  generalize hlist : p :: rest = route at hroute
  induction hroute generalizing p rest m with
  | entry =>
    cases hlist
    obtain ⟨x, hx, hop, hops⟩ := hfits.2.1 m hm
    exact .initial hx hop hops
  | step _ hb hx hop hk he _ ih =>
    cases hlist
    rcases (hfits.edge hs hb hx hop hk he).2 m hm with ⟨hapart, hfinal⟩ |
      ⟨y, hy, hyop, hyb, i, hi, hfinal⟩
    · exact .pass hapart (hfinal.current fun _ hq => ih hq rfl)
    · exact .merge hy hyop hyb rfl hi (hfinal.current fun _ hq => ih hq rfl)

/-- The operands of a node were defined in blocks that were passed. -/
def CoversOperands (o : Outline) (g : Graph) (x : Node) : Prop :=
  ∀ b ∈ x.block, ∀ i ∈ x.operands, ∀ c ∈ g.blockOf i, c ∈ o.passed b

instance (x : Node) : Decidable (o.CoversOperands g x) := by
  unfold CoversOperands
  infer_instance

/-- The operands of a phi were defined in blocks that were passed before its own. -/
def CoversPhi (o : Outline) (g : Graph) (x : Node) : Prop :=
  ∀ b ∈ x.block, ∀ i ∈ x.operands.zipIdx, ∀ e ∈ (g.operands b)[i.2]?, ∀ q ∈ g.blockOf e,
    ∀ c ∈ g.blockOf i.1, c ∈ o.passed q

instance (x : Node) : Decidable (o.CoversPhi g x) := by
  unfold CoversPhi
  infer_instance

/-- Each event of a block consumes the state that the one before it left. -/
def CoversEvents (o : Outline) (g : Graph) (s : Schedule) (b : NodeId) : Prop :=
  ∀ t ∈ (s.events b).zipIdx, ∀ m ∈ (g.operands t.1).head?,
    (t.2 = 0 ∧ o.state b = some m) ∨ 0 < t.2 ∧ ∃ u ∈ (s.events b)[t.2 - 1]?, StateOf g u m

instance (b : NodeId) : Decidable (o.CoversEvents g s b) := by
  unfold CoversEvents
  infer_instance

/-- What is used was defined before, and what acts on memory consumes the current state. -/
def Covers (o : Outline) (g : Graph) (s : Schedule) : Prop :=
  ∀ e ∈ s, (e.2.op ≠ .block → e.2.op ≠ .phi → e.1 ≠ Anchor.stop → o.CoversOperands g e.2) ∧
    (e.2.op = .phi → o.CoversPhi g e.2) ∧ ∀ b ∈ e.2.block, o.CoversEvents g s b

instance : Decidable (o.Covers g s) := by
  unfold Covers
  infer_instance

end Outline

namespace Graph

variable {g : Graph} {s : Schedule} {b : NodeId}

/-- The nodes that take part in leaving `b`. -/
def leavers (s : Schedule) (b : NodeId) : Schedule :=
  s.filter fun e => e.2.block == some b && (e.2.op == .cond || e.2.op.isExit)

theorem mem_leavers (hs : s.Lists g) {n : NodeId} {x : Node} :
    (n, x) ∈ leavers s b ↔ g.Leaves b n x := by
  rw [leavers, List.mem_filter, hs.mem_iff]
  simp only [Bool.and_eq_true, Bool.or_eq_true, beq_iff_eq]
  exact ⟨fun ⟨⟨hn, hx⟩, hb, hkind⟩ => ⟨hn, hx, hb, hkind⟩,
    fun h => ⟨⟨h.live, h.slot⟩, h.block, h.kind⟩⟩

/-- One jump or return is among the nodes, or one branch with its two arms. -/
def SoleExit (l : Schedule) : Prop :=
  (∃ e ∈ l, (e.2.op = .jump ∨ e.2.op = .ret) ∧ ∀ n ∈ l, n.1 = e.1) ∨
    ∃ c ∈ l, c.2.op = .cond ∧ ∃ t ∈ l, t.2.op = .proj (.arm true) ∧ t.2.operands = [c.1] ∧
      ∃ f ∈ l, f.2.op = .proj (.arm false) ∧ f.2.operands = [c.1] ∧
        ∀ n ∈ l, n.1 = c.1 ∨ n.1 = t.1 ∨ n.1 = f.1

instance (l : Schedule) : Decidable (SoleExit l) := by
  unfold SoleExit
  infer_instance

theorem SoleExit.leftOnce (hs : s.Lists g) (h : SoleExit (leavers s b)) : g.LeftOnce b := by
  rcases h with ⟨⟨e, x⟩, he, hop, hsole⟩ |
    ⟨⟨c, x⟩, hc, hop, ⟨t, y⟩, ht, htop, htops, ⟨f, z⟩, hf, hfop, hfops, hall⟩
  · exact .inl ⟨e, x, (mem_leavers hs).mp he, hop, fun n y hn =>
      hsole (n, y) ((mem_leavers hs).mpr hn)⟩
  · refine .inr ⟨c, x, fun side => if side then t else f, (mem_leavers hs).mp hc, hop,
      fun side => ?_, fun n w hn => ?_⟩
    · cases side with
      | true => exact ⟨y, (mem_leavers hs).mp ht, htop, htops⟩
      | false => exact ⟨z, (mem_leavers hs).mp hf, hfop, hfops⟩
    · rcases hall (n, w) ((mem_leavers hs).mpr hn) with heq | heq | heq
      · exact .inl heq
      · exact .inr ⟨true, heq⟩
      · exact .inr ⟨false, heq⟩

/-- A projection has one operand. -/
def checkSingle (x : Node) : Bool :=
  match x.op with
  | .proj _ => x.operands.length == 1
  | _ => true

/-- What proper form asks of each node by itself. -/
def Shaped (g : Graph) (s : Schedule) : Prop :=
  g.operands Anchor.startBlock = [] ∧ g.nodes.all (checkPlace g) = true ∧
    (∀ e ∈ s, checkSingle e.2 = true) ∧
    (∀ e ∈ s, e.2.op = .block → e.1 ≠ Anchor.endBlock → SoleExit (leavers s e.1)) ∧
    ∀ e ∈ s, e.2.op.isExit = true → ∃ b ∈ s, b.2.op = .block ∧ b.2.operands.count e.1 = 1 ∧
      ∀ c ∈ s, c.2.op = .block → e.1 ∈ c.2.operands → c.1 = b.1

instance : Decidable (g.Shaped s) := by
  unfold Shaped
  infer_instance

/-- The outline shows that the function is in proper form. -/
def ShownBy (g : Graph) (s : Schedule) (o : Outline) : Prop :=
  o.Fits g s ∧ o.Covers g s ∧ g.Shaped s

instance (o : Outline) : Decidable (g.ShownBy s o) := by
  unfold ShownBy
  infer_instance

/-- A function is in proper form if some outline shows it. -/
theorem Proper.of_outline {o : Outline} (hs : schedule g = .ok s) (hshown : g.ShownBy s o) :
    g.Proper := by
  obtain ⟨hfits, hcovers, hentry, hplace, hsingle, hexit, hedge⟩ := hshown
  have hlists := schedule_lists hs
  have hmem {n : NodeId} {x : Node} (hn : g.Live n) (hx : g.nodes[n]? = some x) : (n, x) ∈ s :=
    (hlists.mem_iff n x).mpr ⟨hn, hx⟩
  refine
    { entry := hentry
      block := fun b x hb hx hop => outermost_of_check hplace b x.shape hb (shape?_eq hx) hop
      member := fun n x hn hx hop => ?_
      leaf := fun n x hx hop => leaf_of_check hplace n x.shape (shape?_eq hx) hop
      projection := fun n x k hn hx hop => ?_
      exit := fun b x hb hx hop hne => (hexit (b, x) (hmem hb hx) hop hne).leftOnce hlists
      edge := fun e x he hx hop => ?_
      operand := fun n x i b c hn hx hop hphi hne hi hb hc p rest hroute hp => ?_
      phi := fun n x b k i c hn hx hop hb hk hc rest hroute => ?_
      memory := fun s' hs' p rest hroute j t x m hj hx hm => ?_ }
  · obtain ⟨b, y, hb, hy, hyop⟩ := placed_of_check hplace n x.shape hn (shape?_eq hx) hop
    obtain ⟨z, hz, rfl⟩ := Option.map_eq_some_iff.mp hy
    exact ⟨b, z, hb, hz, hyop⟩
  · have hone := hsingle (n, x) (hmem hn hx)
    simp only [checkSingle, hop, beq_iff_eq] at hone
    exact List.length_eq_one_iff.mp hone
  · obtain ⟨⟨b, y⟩, hb, hyop, hcount, hsole⟩ := hedge (e, x) (hmem he hx) hop
    obtain ⟨hblive, hy⟩ := (hlists.mem_iff b y).mp hb
    exact ⟨b, y, hblive, hy, hyop, hcount, fun c z hc hz hzop hin =>
      hsole (c, z) (hmem hc hz) hzop hin⟩
  · refine hfits.passes hlists hroute (hp ▸ ?_)
    exact (hcovers (n, x) (hmem hn hx)).1 hop hphi hne b hb i hi c hc
  · cases hroute with
    | @step q rest _ e _ y hroute hlive hy _ he hq _ =>
      refine hfits.passes hlists hroute ?_
      exact (hcovers (n, x) (hmem hn hx)).2.1 hop b hb (i, k) (List.mem_zipIdx_iff_getElem?.mpr hk)
        e (by rw [operands_eq hy]; exact he) q.block hq c hc
  · cases hs.symm.trans hs'
    obtain ⟨⟨n, y⟩, hin, rfl⟩ := List.mem_map.mp (List.mem_of_getElem? hj)
    obtain ⟨⟨hn, hy⟩, hb, -⟩ := hlists.mem_body.mp (List.mem_filter.mp hin).1
    cases hx.symm.trans hy
    rcases (hcovers (n, x) (hmem hn hx)).2.2 p.block hb (n, j)
      (List.mem_zipIdx_iff_getElem?.mpr hj) m (by rw [operands_eq hx]; exact hm) with
      ⟨rfl, hstate⟩ | ⟨hpos, u, hu, y, hy, hop, hops⟩
    · exact hfits.current hlists hroute hstate
    · obtain ⟨i, rfl⟩ := Nat.exists_eq_add_of_lt hpos
      rw [Nat.zero_add] at hu ⊢
      exact .after hu hy hop hops

theorem Terminal.of_schedule (hs : schedule g = .ok s)
    (h : s.all (fun e => e.2.block != some Anchor.endBlock || !e.2.op.isExit) = true) :
    g.Terminal := by
  intro n x hn hx hb
  have hcheck := List.all_eq_true.mp h (n, x) (((schedule_lists hs).mem_iff n x).mpr ⟨hn, hx⟩)
  simpa [hb] using hcheck

end Graph

end SeaOfNodes
