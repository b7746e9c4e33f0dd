import SeaOfNodes.Proofs.Replacing
import SeaOfNodes.Proofs.Survival
import SeaOfNodes.Proofs.Tidying
import SeaOfNodes.Proofs.Verified

/-!
Folding keeps graphs structured and leaves them clean (`Folding.apply_structured`).

What folding leaves of a structured graph is an image of it, and an image is structured
(`Image.structured`). The arms of branches have to hang off branches: folding an arm that hangs off
a constant retires the constant, and another node may still be exchanged with it later
(`Folding.apply_not_structured`).
-/

namespace SeaOfNodes

namespace Image

variable {g : Graph} {r : Solution} {σ : NodeId → NodeId} {K : NodeId → List Nat}
  {A : NodeId → Prop} {h : Graph}

/-- What a node in use stands in is a block in use. -/
theorem exists_block (hb : Basis g r) (hi : Image g r σ K h.Live h) {n : NodeId} {y : Shape}
    (hlive : h.Live n) (hy : h.shape? n = some y) (hop : y.op ≠ .block) :
    ∃ b z, y.block = some b ∧ h.shape? b = some z ∧ z.op = .block := by
  have hused := (hi.of_live hlive).2
  have hret : y.op ≠ .retired := by
    obtain ⟨z, hz, hzop⟩ := Graph.exists_shape hused
    rw [hy] at hz
    cases hz
    exact hzop
  have hplaced : ∃ b, y.block = some b := by
    rcases hi.scope n hlive with hn | hn | ⟨v, x, hx, -, hxb⟩
    · obtain ⟨x, hx, -⟩ := Graph.exists_shape (hb.describes.used n hn)
      obtain ⟨hsame, -, hblock⟩ := hi.same hx hy hret
      obtain ⟨b, -, hxb, -⟩ := hb.structured.placed n x hn hx (fun h => hop (hsame.trans h))
      exact ⟨b, hblock.trans hxb⟩
    · rcases (hi.fresh n y hn hy).2 with h | ⟨-, hblock⟩ | ⟨-, b, -, hblock, -⟩
      · exact absurd h hret
      · exact ⟨_, hblock⟩
      · exact ⟨b, hblock⟩
    · exact ⟨_, (hi.same hx hy hret).2.2.trans hxb⟩
  obtain ⟨b, hyb⟩ := hplaced
  obtain ⟨-, x, hx, hxop⟩ := hi.block_of_used hb hlive hy hret hyb
  have hbused := (hi.closed n b hlive hused (Graph.mem_inputs.mpr ⟨y, hy, .inl hyb⟩)).2
  obtain ⟨z, hz, hzop, -⟩ := hi.exists_same hx hbused
  exact ⟨b, z, hyb, hz, hzop.trans hxop⟩

/-- What is left of a structured graph is structured. -/
theorem structured (hb : Basis g r) (hi : Image g r σ K h.Live h) : h.Structured where
  anchor n hn := (hi.anchor n hn).2
  leaf n y hy hop := by
    have hret : y.op ≠ .retired := by
      rintro hret
      rcases hop with ⟨v, hv⟩ | hbad
      · cases hret.symm.trans hv
      · cases hret.symm.trans hbad
    by_cases hn : g.size ≤ n
    · exact (hi.fresh n y hn hy).1
    · obtain ⟨x, hx⟩ := Graph.exists_node_of_lt (Nat.lt_of_not_le hn)
      have hsame := (hi.same (Graph.shape?_eq hx) hy hret).1
      rw [hsame] at hop
      rw [← Graph.operands_eq_of_shape hy, hi.leaf n _ (Graph.shape?_eq hx) hop]
  mirrored := hi.mirrored
  inUse n m hn hm := (hi.closed n m hn (hi.of_live hn).2 hm).2
  placed n y hn hy hop := hi.exists_block hb hn hy hop
  outermost b y hlive hy hop := hi.outermost hb hlive hy hop
  predecessor b y hlive hy hop p hp := hi.predecessor hb hlive hy hop hp
  phi n y b hlive hy hop hyb := by
    -- A phi and its block have kept the same positions.
    have hused := (hi.of_live hlive).2
    obtain ⟨x, hx, hxop, -, hxb⟩ := hi.origin hy (by simp [hop]) (by simp [hop]) (by simp [hop])
    have hphi := hxop.symm.trans hop
    have hn := Scope.live (hi.scope n hlive) hx (by simp [hphi])
    obtain ⟨hblive, z, hz, hzop⟩ := hi.block_of_used hb hlive hy (by simp [hop]) hyb
    obtain ⟨hbA, hbused⟩ := hi.closed n b hlive hused (Graph.mem_inputs.mpr ⟨y, hy, .inl hyb⟩)
    rw [← Graph.operands_eq_of_shape hy,
      hi.length_operands (hb.ne_stop hx (by simp [hphi])) hlive hn hused,
      hi.length_operands (hb.ne_stop hz (by simp [hzop])) hbA hblive hbused,
      hi.aligned n x b hlive hx hphi (hxb.symm.trans hyb) hused]

end Image

namespace Graph

/-- A graph that passes the check is structured if its nodes stand where they should. -/
theorem Structured.of_verify {g : Graph} {r : Solution} (hg : g.Built) (hr : r.Describes g)
    (hv : g.verify = .ok ())
    (hleaf : ∀ n x, g.shape? n = some x → (∃ v, x.op = .const v) ∨ x.op = .bad → x.operands = [])
    (hplaced : ∀ n x, g.Live n → g.shape? n = some x → x.op ≠ .block →
      ∃ b y, x.block = some b ∧ g.shape? b = some y ∧ y.op = .block)
    (houter : ∀ b x, g.Live b → g.shape? b = some x → x.op = .block → x.block = none) :
    g.Structured where
  anchor := by
    have hroot : ∀ n ∈ [Anchor.stop, Anchor.start, Anchor.bad], g.isRetired n = false :=
      fun n hn => hr.used n ⟨n, hn, .refl⟩
    have hblock {n b : NodeId} {x : Shape} (hn : n ∈ [Anchor.stop, Anchor.start, Anchor.bad])
        (hx : (new "" 0).shape? n = some x) (hxb : x.block = some b) : g.isRetired b = false := by
      obtain ⟨y, hy, hkeep⟩ := hg.keeps_anchor hx
      exact hr.inUse n b ⟨n, hn, .refl⟩ (mem_inputs.mpr ⟨y, hy, .inl (hkeep.block.trans hxb)⟩)
    intro n hn
    simp only [Anchor.all, List.mem_cons, List.not_mem_nil, or_false] at hn
    rcases hn with rfl | rfl | rfl | rfl | rfl
    · exact hblock (n := Anchor.start) (by simp) rfl rfl
    · exact hblock (n := Anchor.stop) (by simp) rfl rfl
    · exact hroot _ (by simp)
    · exact hroot _ (by simp)
    · exact hroot _ (by simp)
  leaf := hleaf
  mirrored := hg.mirrored
  inUse := hr.inUse
  placed := hplaced
  outermost := houter
  predecessor b x hlive hx hop p hp := by
    obtain ⟨z, hz, rfl⟩ := Option.map_eq_some_iff.mp hx
    obtain ⟨-, y, hy, henters⟩ := (verify_eq_ok hv).predecessor b z hlive hz hop p hp
    exact .inr ⟨_, shape?_eq hy, henters⟩
  phi n x b hlive hx hop hxb := by
    obtain ⟨z, hz, rfl⟩ := Option.map_eq_some_iff.mp hx
    obtain ⟨c, y, hc, hy, -, hlen⟩ := (verify_eq_ok hv).phi n z hlive hz hop
    obtain rfl := Option.some.inj (hc.symm.trans hxb)
    rw [operands_eq hy]
    exact hlen

/-- Whether a node stands where it should, and is a leaf if it should be. -/
def checkPlace (g : Graph) (x : Node) : Bool :=
  (match x.op with
    | .block => x.block == none
    | _ => x.block.any fun b => g.nodes[b]?.any fun y => y.op == .block) &&
  match x.op with
  | .const _ | .bad => x.operands == []
  | _ => true

section check

variable {g : Graph} (hcheck : g.nodes.all (checkPlace g) = true)

include hcheck

theorem place_of_check {n : NodeId} {x : Shape} (hx : g.shape? n = some x) :
    ∃ y, x = y.shape ∧ checkPlace g y = true := by
  obtain ⟨y, hy, rfl⟩ := Option.map_eq_some_iff.mp hx
  exact ⟨y, rfl, Array.all_eq_true'.mp hcheck y (Array.mem_of_getElem? hy)⟩

theorem leaf_of_check (n : NodeId) (x : Shape) (hx : g.shape? n = some x)
    (hop : (∃ v, x.op = .const v) ∨ x.op = .bad) : x.operands = [] := by
  obtain ⟨y, rfl, hy⟩ := place_of_check hcheck hx
  rcases hop with ⟨v, hop⟩ | hop
  · have hop : y.op = .const v := hop
    simpa [checkPlace, Node.shape, hop] using (Bool.and_eq_true_iff.mp hy).2
  · have hop : y.op = .bad := hop
    simpa [checkPlace, Node.shape, hop] using (Bool.and_eq_true_iff.mp hy).2

theorem placed_of_check (n : NodeId) (x : Shape) (_ : g.Live n) (hx : g.shape? n = some x)
    (hop : x.op ≠ .block) : ∃ b y, x.block = some b ∧ g.shape? b = some y ∧ y.op = .block := by
  obtain ⟨y, rfl, hy⟩ := place_of_check hcheck hx
  have hy := (Bool.and_eq_true_iff.mp hy).1
  split at hy
  next h => exact absurd h hop
  next =>
    obtain ⟨b, hb, hblock⟩ := (Option.any_eq_true _ _).mp hy
    obtain ⟨z, hz, hzop⟩ := (Option.any_eq_true _ _).mp hblock
    exact ⟨b, z.shape, hb, shape?_eq hz, by simpa [Node.shape] using hzop⟩

theorem outermost_of_check (n : NodeId) (x : Shape) (_ : g.Live n) (hx : g.shape? n = some x)
    (hop : x.op = .block) : x.block = none := by
  obtain ⟨y, rfl, hy⟩ := place_of_check hcheck hx
  have hop : y.op = .block := hop
  simpa [checkPlace, Node.shape, hop] using (Bool.and_eq_true_iff.mp hy).1

theorem Structured.of_check {r : Solution} (hg : g.Built) (hr : g.analyze = .ok r)
    (hv : g.verify = .ok ()) : g.Structured :=
  .of_verify hg (hg.describes hr) hv (leaf_of_check hcheck) (placed_of_check hcheck)
    (outermost_of_check hcheck)

end check

end Graph

namespace Folding

/-- What folding leaves is tidy, clean and an image of the graph, in which every fact was
substituted. -/
theorem apply_tidies {check trace changed : Bool} {d d' : Draft} {r : Solution}
    (hb : Image.Basis d.graph r) (hr : d.graph.analyze = .ok r)
    (h : apply check trace d = .ok changed d') :
    Cleanup.Tidied d.graph r d'.graph ∧ Cleanup.Clean d'.graph ∧
      ∀ n, d.graph.Live n → Substitution.Settled d.graph r d'.graph n := by
  obtain ⟨r', d₁, d₂, d₃, _, _, hr', hd, hsubst, hclean, hend, -⟩ := exists_of_apply h
  rw [hr] at hr'
  cases hr'
  obtain ⟨⟨σ, hi⟩, hsettled⟩ := Substitution.exists_image hb hd hsubst
  rw [hend]
  obtain ⟨htidied, hdesc, hclean⟩ := Cleanup.run_tidies hb hi hsettled hclean
  exact ⟨htidied, hclean, fun n hn => (hsettled n hn).descend hdesc⟩

/-- Folding keeps a graph structured whose arms hang off branches. No live block keeps a dead
predecessor, everything in use is live, and control can reach every live block but the exit
block. -/
theorem apply_structured {check trace changed : Bool} {d d' : Draft} (hg : d.graph.Built)
    (hs : d.graph.Structured)
    (harms : ∀ n x side, d.graph.Live n → d.graph.shape? n = some x →
      x.op = .proj (.arm side) →
      ∃ t y, x.operands.head? = some t ∧ d.graph.shape? t = some y ∧ y.op = .cond)
    (h : apply check trace d = .ok changed d') :
    d'.graph.Structured ∧
      (∀ b x, d'.graph.Live b → d'.graph.shape? b = some x → x.op = .block →
        Anchor.bad ∉ x.operands) ∧
      (∀ n, d'.graph.isRetired n = false → d'.graph.Live n) ∧
      ∀ b x, d'.graph.Live b → d'.graph.shape? b = some x → x.op = .block →
        b ≠ Anchor.endBlock → Relation.ReflTransGen d'.graph.Flows Anchor.startBlock b := by
  obtain ⟨r, _, _, _, _, _, hr, -⟩ := exists_of_apply h
  have hb : Image.Basis d.graph r := ⟨hg, hs, hg.describes hr, harms⟩
  obtain ⟨htidied, hclean, -⟩ := apply_tidies hb hr h
  obtain ⟨σ, K, hi⟩ := htidied.image
  exact ⟨hi.structured hb, hclean.bad_notMem, htidied.used, htidied.connected⟩

theorem apply_structured_constantBranch :
    ∃ g changed d', constantBranch.foldlM Graph.apply (.new "f" 0) = .ok g ∧ g.Structured ∧
      apply true false { graph := g } = .ok changed d' ∧ d'.graph.Structured ∧
      d'.graph.isRetired 11 = true := by
  have hok : (do
      let g ← constantBranch.foldlM Graph.apply (.new "f" 0)
      g.verify
      let _ ← g.analyze
      let h ← g.optimize
      return (g.nodes.all (Graph.checkPlace g), g.nodes.all (checkShape g), h.isRetired 11)) =
      .ok (true, true, true) := by
    decide +kernel
  obtain ⟨g, hg, hok⟩ := bind_eq_ok.mp hok
  obtain ⟨⟨⟩, hverify, hok⟩ := bind_eq_ok.mp hok
  obtain ⟨r, hr, hok⟩ := bind_eq_ok.mp hok
  obtain ⟨h, hopt, hok⟩ := bind_eq_ok.mp hok
  obtain ⟨hplace, hok⟩ := Prod.mk.inj (Except.ok.inj hok)
  obtain ⟨hshape, hret⟩ := Prod.mk.inj hok
  obtain ⟨changed, d', happly, rfl⟩ := Graph.optimize_eq_ok hopt
  have hbuilt : g.Built := (Graph.Built.new "f" 0).foldlM hg
  have hs : g.Structured := .of_check hplace hbuilt hr hverify
  exact ⟨g, changed, d', hg, hs, happly,
    (apply_structured (d := { graph := g }) hbuilt hs (arms_of_checkShape hshape) happly).1, hret⟩

/-- An arm that hangs off the constant 6, and a node whose value is carried by the same constant. -/
def armOffConstant : List Edit :=
  [.addNode (.proj .memory) .memory (some Anchor.startBlock) [Anchor.start],
    .addNode (.const (.bool true)) .bool (some Anchor.startBlock) [],
    .addNode (.proj (.arm true)) .control (some Anchor.startBlock) [6],
    .addNode .block .block none [7],
    .addNode (.const (.bool false)) .bool (some 8) [],
    .addNode .not .bool (some 8) [9],
    .addNode .ret .control (some 8) [5, 10],
    .addOperand Anchor.endBlock 11]

/-- If an arm hangs off a constant, folding may leave a live node with an operand that is
retired. -/
theorem apply_not_structured :
    ∃ g changed d', armOffConstant.foldlM Graph.apply (.new "f" 0) = .ok g ∧ g.Structured ∧
      apply true false { graph := g } = .ok changed d' ∧ ¬ d'.graph.Structured := by
  have hok : (do
      let g ← armOffConstant.foldlM Graph.apply (.new "f" 0)
      g.verify
      let _ ← g.analyze
      let h ← g.optimize
      let live ← h.live
      return (g.nodes.all (Graph.checkPlace g), live.contains 11, h.operands 11, h.isRetired 6)) =
      .ok (true, true, [5, 6], true) := by
    decide +kernel
  obtain ⟨g, hg, hok⟩ := bind_eq_ok.mp hok
  obtain ⟨⟨⟩, hverify, hok⟩ := bind_eq_ok.mp hok
  obtain ⟨r, hr, hok⟩ := bind_eq_ok.mp hok
  obtain ⟨h, hopt, hok⟩ := bind_eq_ok.mp hok
  obtain ⟨live, hlive, hok⟩ := bind_eq_ok.mp hok
  obtain ⟨hplace, hok⟩ := Prod.mk.inj (Except.ok.inj hok)
  obtain ⟨hmem, hok⟩ := Prod.mk.inj hok
  obtain ⟨hops, hret⟩ := Prod.mk.inj hok
  obtain ⟨changed, d', happly, rfl⟩ := Graph.optimize_eq_ok hopt
  have hbuilt : g.Built := (Graph.Built.new "f" 0).foldlM hg
  refine ⟨g, changed, d', hg, .of_check hplace hbuilt hr hverify, happly, fun hs => ?_⟩
  obtain ⟨x, hx, hin⟩ := Graph.mem_operands_of_shape (n := 11) (m := 6) (by rw [hops]; simp)
  have hused := hs.inUse 11 6 ((Graph.contains_live hlive).mp hmem)
    (Graph.mem_inputs.mpr ⟨x, hx, .inr hin⟩)
  rw [hret] at hused
  cases hused

end Folding

end SeaOfNodes
