import SeaOfNodes.Proofs.WellFormed

/-!
Folding eliminates every block that control never enters (`Folding.apply_leaves_reachable`).

Blocks are removed because no path of the folded graph leads to them, and the analysis is not asked
again. So the two have to agree: along a path of the folded graph every edge is one that the
analysis took (`Image.reachable_of_flows`). This needs that something is known of every branch that
control comes to (`Image.Decided`): the arms of a branch of which nothing is known are not taken,
and stay.
-/

namespace SeaOfNodes

namespace Folding

/-- Every block in use after folding, the exit block aside, is one that the analysis found
reachable. -/
theorem apply_leaves_reachable {check trace changed : Bool} {d d' : Draft} {r : Solution}
    (hbuilt : d.graph.Built) (hs : d.graph.Structured)
    (harms : ∀ n x side, d.graph.Live n → d.graph.shape? n = some x →
      x.op = .proj (.arm side) →
      ∃ t y, x.operands.head? = some t ∧ d.graph.shape? t = some y ∧ y.op = .cond)
    (hr : d.graph.analyze = .ok r)
    (hknown : ∀ n x side b t, d.graph.Live n → d.graph.shape? n = some x →
      x.op = .proj (.arm side) → x.block = some b → r.isReachable b = true →
      x.operands.head? = some t → r.value? t ≠ some .unknown)
    (happly : apply check trace d = .ok changed d') {b : NodeId} {y : Shape}
    (hy : d'.graph.shape? b = some y) (hop : y.op = .block) (hexit : b ≠ Anchor.endBlock) :
    r.isReachable b = true := by
  have hdescribes := hbuilt.describes hr
  have hb : Image.Basis d.graph r := ⟨hbuilt, hs, hdescribes, harms⟩
  have hdecided : Image.Decided d.graph r.assignment := by
    intro n x side hn hx hside hin hunknown
    obtain ⟨c, hc, hreach⟩ := Assignment.enters_eq_true.mp hin
    obtain ⟨t, -, ht, -⟩ := harms n _ side hn (Graph.shape?_eq hx) hside
    have ht : x.operands.head? = some t := ht
    have hlive := hdescribes.operands_live hn hx t (List.mem_of_mem_head? ht)
    refine hknown n _ side c t hn (Graph.shape?_eq hx) hside hc hreach ht ?_
    rw [hdescribes.value t hlive, ← hunknown, Assignment.operand, ← List.head?_eq_getElem?, ht]
    rfl
  obtain ⟨htidied, -, hsettled⟩ := apply_tidies hb hr happly
  obtain ⟨σ, K, hi⟩ := htidied.image
  have hlive := htidied.used b (Graph.isRetired_eq_false_iff.mpr ⟨y, hy, by simp [hop]⟩)
  exact hi.reachable_of_flows hb hsettled hdecided (htidied.connected b y hlive hy hop hexit)

/-- The branch 8 is decided. Its dead arm enters the loop of the blocks 12 and 16, which a branch on an
argument leaves for the join 19. -/
def deadLoop : List Edit :=
  [.addNode (.proj .memory) .memory (some Anchor.startBlock) [Anchor.start],
    .addNode (.const (.bool true)) .bool (some Anchor.startBlock) [],
    .addNode (.proj (.argument 0)) .bool (some Anchor.startBlock) [Anchor.start],
    .addNode .cond .tuple (some Anchor.startBlock) [6],
    .addNode (.proj (.arm true)) .control (some Anchor.startBlock) [8],
    .addNode (.proj (.arm false)) .control (some Anchor.startBlock) [8],
    .addNode .block .block none [9],
    .addNode .block .block none [10],
    .addNode .cond .tuple (some 12) [7],
    .addNode (.proj (.arm true)) .control (some 12) [13],
    .addNode (.proj (.arm false)) .control (some 12) [13],
    .addNode .block .block none [14],
    .addNode .jump .control (some 16) [],
    .addOperand 12 17,
    .addNode .jump .control (some 11) [],
    .addNode .block .block none [18, 15],
    .addNode .phi .bool (some 19) [6, 7],
    .addNode .ret .control (some 19) [5, 20],
    .addOperand Anchor.endBlock 21]

/-- Whether something is known of the branch that a node is an arm of, if control comes to it. -/
def checkDecided (r : Solution) (x : Node) : Bool :=
  match x.op with
  | .proj (.arm _) => !x.block.any r.isReachable || x.operands.head?.all fun t =>
    r.value? t != some .unknown
  | _ => true

/-- The join is left. The loop is not, which follows as control never enters it. -/
theorem apply_leaves_reachable_deadLoop :
    ∃ g r changed d', deadLoop.foldlM Graph.apply (.new "f" 1) = .ok g ∧ g.Structured ∧
      g.analyze = .ok r ∧ apply true false { graph := g } = .ok changed d' ∧
      (∀ b y, d'.graph.shape? b = some y → y.op = .block → b ≠ Anchor.endBlock →
        r.isReachable b = true) ∧
      r.isReachable 12 = false ∧ r.isReachable 16 = false ∧ d'.graph.isRetired 19 = false := by
  have hok : (do
      let g ← deadLoop.foldlM Graph.apply (.new "f" 1)
      g.verify
      let r ← g.analyze
      let h ← g.optimize
      return (g.nodes.all (Graph.checkPlace g), g.nodes.all (checkShape g),
        g.nodes.all (checkDecided r), r.isReachable 12, r.isReachable 16, h.isRetired 19)) =
      .ok (true, true, true, false, false, false) := by
    decide +kernel
  obtain ⟨g, hg, hok⟩ := bind_eq_ok.mp hok
  obtain ⟨⟨⟩, hverify, hok⟩ := bind_eq_ok.mp hok
  obtain ⟨r, hr, hok⟩ := bind_eq_ok.mp hok
  obtain ⟨h, hopt, hok⟩ := bind_eq_ok.mp hok
  obtain ⟨hplace, hok⟩ := Prod.mk.inj (Except.ok.inj hok)
  obtain ⟨hshape, hok⟩ := Prod.mk.inj hok
  obtain ⟨hdecided, hok⟩ := Prod.mk.inj hok
  obtain ⟨hheader, hok⟩ := Prod.mk.inj hok
  obtain ⟨hbody, hleft⟩ := Prod.mk.inj hok
  obtain ⟨changed, d', happly, rfl⟩ := Graph.optimize_eq_ok hopt
  have hbuilt : g.Built := (Graph.Built.new "f" 1).foldlM hg
  have hs : g.Structured := .of_check hplace hbuilt hr hverify
  refine ⟨g, r, changed, d', hg, hs, hr, happly, fun b y hy hop hexit => ?_, hheader, hbody, hleft⟩
  refine apply_leaves_reachable (d := { graph := g }) hbuilt hs (arms_of_checkShape hshape) hr
    (fun n x side c t _ hx hside hc hreach ht hunknown => ?_) happly hy hop hexit
  obtain ⟨z, hz, rfl⟩ := Option.map_eq_some_iff.mp hx
  have hcheck := Array.all_eq_true'.mp hdecided z (Array.mem_of_getElem? hz)
  have hside : z.op = .proj (.arm side) := hside
  have hc : z.block = some c := hc
  have ht : z.operands.head? = some t := ht
  simp [checkDecided, hside, hc, hreach, ht, hunknown] at hcheck

end Folding

end SeaOfNodes
