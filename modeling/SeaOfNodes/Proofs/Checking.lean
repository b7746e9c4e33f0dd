import SeaOfNodes.Proofs.Legality
import SeaOfNodes.Proofs.WellFormed

/-!
What the check of a graph finds after folding.

Folding keeps every rule of the check but those about modes and memory (`Graph.Chained`), which it
may break: a node that leaves a memory state loses the projection of it if nothing uses it, though
the node is still needed for its result. So a folded graph passes the check exactly if it is chained
(`Graph.optimize_verify_iff`).
-/

namespace SeaOfNodes

namespace Graph

variable {g : Graph}

/-- A structured graph without dead predecessors, knots and unreachable blocks passes the check if
it is chained, and only then. -/
theorem verify_eq_ok_iff (hs : g.Structured)
    (hedge : ∀ b x, g.Live b → g.shape? b = some x → x.op = .block → Anchor.bad ∉ x.operands)
    (hconn : g.Connected) (hknot : ¬ g.Knotted) : g.verify = .ok () ↔ g.Chained := by
  have hsize : Anchor.bad < g.size := by
    obtain ⟨y, hy, -⟩ := exists_shape (hs.anchor Anchor.bad (by decide))
    exact lt_size_of_shape? hy
  have hpred {b : NodeId} {x : Node} (hb : g.Live b) (hx : g.nodes[b]? = some x)
      (hop : x.op = .block) (p : NodeId) (hp : p ∈ x.operands) :
      p ≠ Anchor.bad ∧ ∃ y, g.nodes[p]? = some y ∧ entersBlock b y.op = true := by
    have hbad : p ≠ Anchor.bad := fun h => hedge b _ hb (shape?_eq hx) hop (h ▸ hp)
    obtain ⟨y, hy, henters⟩ :=
      (hs.predecessor b _ hb (shape?_eq hx) hop p hp).resolve_left hbad
    obtain ⟨z, hz, rfl⟩ := Option.map_eq_some_iff.mp hy
    exact ⟨hbad, z, hz, henters⟩
  have hphi {n : NodeId} {x : Node} (hn : g.Live n) (hx : g.nodes[n]? = some x)
      (hop : x.op = .phi) : ∃ b y, x.block = some b ∧ g.nodes[b]? = some y ∧ y.op = .block ∧
        x.operands.length = y.operands.length := by
    obtain ⟨b, y, hb, hy, hyop⟩ := hs.placed n _ hn (shape?_eq hx) (by simp [Node.shape, hop])
    obtain ⟨z, hz, rfl⟩ := Option.map_eq_some_iff.mp hy
    have hlen := hs.phi n _ b hn (shape?_eq hx) hop hb
    rw [operands_eq hz] at hlen
    exact ⟨b, z, hb, hz, hyop, hlen⟩
  obtain ⟨w, hw, hdangling⟩ := (exists_walk_iff hsize).mpr ⟨hknot, hs.inUse⟩
  have hcomplete := Walk.complete_of_run hw
  rw [verify_iff_of_walk hsize hw hdangling,
    checkNodes_iff hs.mirrored hsize hcomplete.nodup hcomplete.mem_order]
  constructor
  · rintro ⟨⟨hruled, hunforked⟩, -⟩
    exact ⟨fun n x hn hx => (hruled n x hn hx).selector, fun n x hn hx => (hruled n x hn hx).memory,
      hunforked, fun n x hn hx => (hruled n x hn hx).result⟩
  · intro hc
    exact ⟨⟨fun n x hn hx => ⟨hpred hn hx, hphi hn hx, hc.selector n x hn hx, hc.memory n x hn hx,
      hc.result n x hn hx⟩, hc.unforked⟩, hconn⟩

/-- Folding keeps all rules of the check but those about modes and memory. -/
theorem optimize_verify_iff {h : Graph} {check : Bool} (hg : g.Built) (hverify : g.verify = .ok ())
    (hleaf : ∀ n x, g.shape? n = some x → (∃ v, x.op = .const v) ∨ x.op = .bad → x.operands = [])
    (hplaced : ∀ n x, g.Live n → g.shape? n = some x → x.op ≠ .block →
      ∃ b y, x.block = some b ∧ g.shape? b = some y ∧ y.op = .block)
    (houter : ∀ b x, g.Live b → g.shape? b = some x → x.op = .block → x.block = none)
    (harms : ∀ n x side, g.Live n → g.shape? n = some x → x.op = .proj (.arm side) →
      ∃ t y, x.operands.head? = some t ∧ g.shape? t = some y ∧ y.op = .cond)
    (hopt : g.optimize check = .ok h) : h.verify = .ok () ↔ h.Chained := by
  obtain ⟨changed, d', happly, rfl⟩ := optimize_eq_ok hopt
  obtain ⟨r, _, _, _, _, _, hr, -⟩ := Folding.exists_of_apply happly
  have hs := Structured.of_verify hg (hg.describes hr) hverify hleaf hplaced houter
  have hb : Image.Basis g r := ⟨hg, hs, hg.describes hr, harms⟩
  obtain ⟨htidied, hclean, -⟩ := Folding.apply_tidies (d := { graph := g }) hb hr happly
  obtain ⟨σ, K, hi⟩ := htidied.image
  exact verify_eq_ok_iff (hi.structured hb) hclean.bad_notMem htidied.connected htidied.unknotted

/-- A load whose result is returned, and whose memory state nothing uses. -/
def unusedState : List Edit :=
  [.addNode (.proj .memory) .memory (some Anchor.startBlock) [Anchor.start],
    .addNode (.const (.int .i32 5)) (.int .i32) (some Anchor.startBlock) [],
    .addNode .load .tuple (some Anchor.startBlock) [5, 6],
    .addNode (.proj .memory) .memory (some Anchor.startBlock) [7],
    .addNode (.proj .result) (.int .i32) (some Anchor.startBlock) [7],
    .addNode .jump .control (some Anchor.startBlock) [],
    .addNode .block .block none [10],
    .addNode .ret .control (some 11) [5, 9],
    .addOperand Anchor.endBlock 12]

/-- The graph passes the check, but not after folding: the unused state is gone. -/
theorem optimize_verify_iff_unusedState :
    ∃ g h, unusedState.foldlM Graph.apply (.new "f" 0) = .ok g ∧ g.verify = .ok () ∧
      g.optimize = .ok h ∧ h.verify = .error (.invalidGraph "f" (some 7) (.memoryProjections 0)) ∧
      ¬ h.Chained := by
  have hok : (do
      let g ← unusedState.foldlM Graph.apply (.new "f" 0)
      g.verify
      let h ← g.optimize
      return (g.nodes.all (checkPlace g), g.nodes.all (checkShape g), h.verify)) =
      .ok (true, true, .error (.invalidGraph "f" (some 7) (.memoryProjections 0))) := by
    decide +kernel
  obtain ⟨g, hg, hok⟩ := bind_eq_ok.mp hok
  obtain ⟨⟨⟩, hverify, hok⟩ := bind_eq_ok.mp hok
  obtain ⟨h, hopt, hok⟩ := bind_eq_ok.mp hok
  obtain ⟨hplace, hok⟩ := Prod.mk.inj (Except.ok.inj hok)
  obtain ⟨hshape, hbroken⟩ := Prod.mk.inj hok
  refine ⟨g, h, hg, hverify, hopt, hbroken, fun hchained => ?_⟩
  have hpass := (optimize_verify_iff ((Built.new "f" 0).foldlM hg) hverify (leaf_of_check hplace)
    (placed_of_check hplace) (outermost_of_check hplace) (arms_of_checkShape hshape) hopt).mpr
    hchained
  rw [hbroken] at hpass
  cases hpass

end Graph

end SeaOfNodes
