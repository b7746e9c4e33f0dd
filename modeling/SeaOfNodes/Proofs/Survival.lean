import SeaOfNodes.Proofs.Rounds

/-!
Which blocks survive folding.

A block that the analysis found reachable is never pruned (`Folding.apply_keeps_block`), provided
taken edges lead from it to a block that is held: the exit block, a block that is kept alive, or one
with a node that is kept alive and that folding never exchanges. Liveness is computed from there, so
an endless loop that nothing keeps alive goes. Two shapes of graphs that no builder makes are
excluded, since in them reachable blocks are pruned as well: arms that do not hang off a branch, and
blocks that stand in a block (`reachable_blocks_pruned`).
-/

namespace SeaOfNodes

open Rewriting

/-- Folding keeps every reachable block from which taken edges lead to a block that is held. -/
theorem Folding.apply_keeps_block {check trace changed : Bool} {d d' : Draft} {r : Solution}
    (hbuilt : d.graph.Built) (hverify : d.graph.verify = .ok ()) (hr : d.graph.analyze = .ok r)
    (happly : Folding.apply check trace d = .ok changed d')
    (hblocks : ∀ c x, d.graph.Live c → d.graph.nodes[c]? = some x → x.op = .block →
      x.block = none)
    (harms : ∀ n x side, d.graph.Live n → d.graph.nodes[n]? = some x →
      x.op = .proj (.arm side) →
      ∃ t y, x.operands.head? = some t ∧ d.graph.nodes[t]? = some y ∧ y.op = .cond)
    {b : NodeId} (hreach : r.isReachable b = true)
    (hleads : ∃ c, Held d.graph c ∧
      Relation.ReflTransGen (r.assignment.Leads d.graph) b c) :
    ∃ x, d'.graph.nodes[b]? = some x ∧ x.op = .block := by
  obtain ⟨r', hr', hkeeps⟩ := Folding.apply_eq_ok happly
  rw [hr] at hr'
  cases hr'
  have hp : Premises d.graph r :=
    ⟨hbuilt, Graph.verify_eq_ok hverify, hbuilt.describes hr, hblocks, harms⟩
  obtain ⟨kept, hf, -⟩ := (hkeeps hp).1.tracked
  obtain ⟨y, hy, hop, -⟩ := hf.block b ⟨hreach, hleads⟩
  obtain ⟨x, hx, rfl⟩ := Option.map_eq_some_iff.mp hy
  exact ⟨x, hx, hop⟩

/-- A loop around block 8 whose branch never leaves it. -/
def endlessLoop : List Edit :=
  [.addNode (.proj .memory) .memory (some Anchor.startBlock) [Anchor.start],
    .addNode (.const (.bool true)) .bool (some Anchor.startBlock) [],
    .addNode .jump .control (some Anchor.startBlock) [],
    .addNode .block .block none [7],
    .addNode .cond .tuple (some 8) [6],
    .addNode (.proj (.arm true)) .control (some 8) [9],
    .addNode (.proj (.arm false)) .control (some 8) [9],
    .addOperand 8 10,
    .addNode .block .block none [11],
    .addNode .ret .control (some 12) [5, 6],
    .addOperand Anchor.endBlock 13]

/-- Whether the conditions on blocks and arms hold of a node. -/
def checkShape (g : Graph) (x : Node) : Bool :=
  match x.op with
  | .block => x.block == none
  | .proj (.arm _) => x.operands.head?.any fun t => g.nodes[t]?.any fun y => y.op == .cond
  | _ => true

theorem arms_of_checkShape {g : Graph} (hshape : g.nodes.all (checkShape g) = true) :
    ∀ n x side, g.Live n → g.shape? n = some x → x.op = .proj (.arm side) →
      ∃ t y, x.operands.head? = some t ∧ g.shape? t = some y ∧ y.op = .cond := by
  intro n x side _ hx hop
  obtain ⟨z, hz, rfl⟩ := Option.map_eq_some_iff.mp hx
  have hop : z.op = .proj (.arm side) := hop
  have hn := Array.all_eq_true'.mp hshape z (Array.mem_of_getElem? hz)
  simp only [checkShape, hop, Option.any_eq_true, beq_iff_eq] at hn
  obtain ⟨t, ht, y, hy, hcond⟩ := hn
  exact ⟨t, y.shape, ht, Graph.shape?_eq hy, hcond⟩

/-- Folding the loop with `n` kept alive leaves block 8, which was found reachable. -/
def LoopStays (n : NodeId) : Prop :=
  ∃ g r changed d' x,
    (endlessLoop ++ [Edit.keepAlive n]).foldlM Graph.apply (.new "f" 0) = .ok g ∧
    g.verify = .ok () ∧ g.analyze = .ok r ∧ r.isReachable 8 = true ∧
    Folding.apply true false { graph := g } = .ok changed d' ∧
    d'.graph.nodes[8]? = some x ∧ x.op = .block

/-- The loop stays if its block is kept alive, or the branch in it. -/
theorem Folding.apply_keeps_block_keptAlive : LoopStays 8 ∧ LoopStays 9 := by
  suffices hstays : ∀ n ∈ [8, 9], LoopStays n from ⟨hstays 8 (by simp), hstays 9 (by simp)⟩
  intro n hn
  have hok : (do
      let g ← (endlessLoop ++ [Edit.keepAlive n]).foldlM Graph.apply (.new "f" 0)
      g.verify
      let r ← g.analyze
      let _ ← g.optimize
      return (g.nodes.all (checkShape g), r.isReachable 8, g.operands Anchor.stop,
        g.nodes[9]?.any fun x : Node => x.op == Op.cond && x.block == some 8)) =
      .ok (true, true, [n], true) := by
    rcases List.mem_pair.mp hn with rfl | rfl
    · decide +kernel
    · decide +kernel
  obtain ⟨g, hg, hok⟩ := bind_eq_ok.mp hok
  obtain ⟨⟨⟩, hverify, hok⟩ := bind_eq_ok.mp hok
  obtain ⟨r, hr, hok⟩ := bind_eq_ok.mp hok
  obtain ⟨h, hopt, hok⟩ := bind_eq_ok.mp hok
  obtain ⟨hshape, hok⟩ := Prod.mk.inj (Except.ok.inj hok)
  obtain ⟨hreach, hok⟩ := Prod.mk.inj hok
  obtain ⟨hstop, hbranch⟩ := Prod.mk.inj hok
  obtain ⟨changed, d', happly, -⟩ := Graph.optimize_eq_ok hopt
  have hcheck : ∀ n x, g.nodes[n]? = some x → checkShape g x = true := fun n x hx =>
    Array.all_eq_true'.mp hshape x (Array.mem_of_getElem? hx)
  have hblocks : ∀ c x, g.Live c → g.nodes[c]? = some x → x.op = .block → x.block = none :=
    fun c x _ hx hop => by simpa [checkShape, hop] using hcheck c x hx
  have harms : ∀ n x side, g.Live n → g.nodes[n]? = some x → x.op = .proj (.arm side) →
      ∃ t y, x.operands.head? = some t ∧ g.nodes[t]? = some y ∧ y.op = .cond := by
    intro n x side _ hx hop
    have hn := hcheck n x hx
    simp only [checkShape, hop, Option.any_eq_true, beq_iff_eq] at hn
    obtain ⟨t, ht, y, hy, hcond⟩ := hn
    exact ⟨t, y, ht, hy, hcond⟩
  have hheld : Held g 8 := by
    have hmem : n ∈ g.operands Anchor.stop := by simp [hstop]
    simp only [Option.any_eq_true, Bool.and_eq_true, beq_iff_eq] at hbranch
    obtain ⟨y, hy, hop, hblock⟩ := hbranch
    rcases List.mem_pair.mp hn with rfl | rfl
    · exact .inr (.inl hmem)
    · exact .inr (.inr ⟨9, hmem, by decide, y, hy, by rw [hop]; rfl, hblock⟩)
  obtain ⟨x, hx, hop⟩ := Folding.apply_keeps_block (d := { graph := g })
    ((Graph.Built.new "f" 0).foldlM hg) hverify hr happly hblocks harms hreach
    ⟨8, hheld, .refl⟩
  exact ⟨g, r, changed, d', x, hg, hverify, hr, hreach, happly, hx, hop⟩

/-- Arms that hang off the result of a division; the one on `false` leads to block 16. -/
def branchOnResult : List Edit :=
  [.addNode (.proj .memory) .memory (some Anchor.startBlock) [Anchor.start],
    .addNode (.const (.int .i32 10)) (.int .i32) (some Anchor.startBlock) [],
    .addNode (.const (.int .i32 5)) (.int .i32) (some Anchor.startBlock) [],
    .addNode (.const (.bool true)) .bool (some Anchor.startBlock) [],
    .addNode .div .tuple (some Anchor.startBlock) [5, 6, 7],
    .addNode (.proj .memory) .memory (some Anchor.startBlock) [9],
    .addNode (.proj .result) (.int .i32) (some Anchor.startBlock) [9],
    .addNode (.proj .result) .bool (some Anchor.startBlock) [9],
    .addNode (.proj (.arm true)) .control (some Anchor.startBlock) [12],
    .addNode (.proj (.arm false)) .control (some Anchor.startBlock) [12],
    .addNode .block .block none [13],
    .addNode .block .block none [14],
    .addNode .ret .control (some 15) [10],
    .addNode .ret .control (some 16) [10],
    .addOperand Anchor.endBlock 17,
    .addOperand Anchor.endBlock 18,
    .keepAlive 8]

/-- Block 11 stands in block 10, which control does not reach. -/
def nestedBlock : List Edit :=
  [.addNode (.proj .memory) .memory (some Anchor.startBlock) [Anchor.start],
    .addNode (.const (.bool true)) .bool (some Anchor.startBlock) [],
    .addNode .cond .tuple (some Anchor.startBlock) [6],
    .addNode (.proj (.arm true)) .control (some Anchor.startBlock) [7],
    .addNode (.proj (.arm false)) .control (some Anchor.startBlock) [7],
    .addNode .block .block none [9],
    .addNode .block .block (some 10) [8],
    .addNode .ret .control (some 11) [5],
    .addOperand Anchor.endBlock 12]

/-- Folding the graph that the edits make prunes `b`, which was found reachable. -/
def Prunes (edits : List Edit) (b : NodeId) : Prop :=
  ∃ g r changed d', edits.foldlM Graph.apply (.new "f" 0) = .ok g ∧ g.verify = .ok () ∧
    g.analyze = .ok r ∧ r.isReachable b = true ∧
    Folding.apply true false { graph := g } = .ok changed d' ∧ d'.graph.isRetired b = true

/-- The same, evaluated. -/
def checkPruned (edits : List Edit) (b : NodeId) : Except Error Bool := do
  let g ← edits.foldlM Graph.apply (.new "f" 0)
  g.verify
  let r ← g.analyze
  let h ← g.optimize
  return r.isReachable b && h.isRetired b

theorem prunes_of_check {edits : List Edit} {b : NodeId} (hok : checkPruned edits b = .ok true) :
    Prunes edits b := by
  obtain ⟨g, hg, hok⟩ := bind_eq_ok.mp hok
  obtain ⟨⟨⟩, hverify, hok⟩ := bind_eq_ok.mp hok
  obtain ⟨r, hr, hok⟩ := bind_eq_ok.mp hok
  obtain ⟨h, hopt, hok⟩ := bind_eq_ok.mp hok
  obtain ⟨changed, d', happly, rfl⟩ := Graph.optimize_eq_ok hopt
  obtain ⟨hreach, hretired⟩ := Bool.and_eq_true_iff.mp (Except.ok.inj hok)
  exact ⟨g, r, changed, d', hg, hverify, hr, hreach, happly, hretired⟩

/-- Reachable blocks are pruned when nothing keeps an endless loop alive, when an arm does not hang
off a branch, and when a block stands in a dead one. -/
theorem reachable_blocks_pruned :
    Prunes endlessLoop 8 ∧ Prunes branchOnResult 16 ∧ Prunes nestedBlock 11 := by
  refine ⟨prunes_of_check ?_, prunes_of_check ?_, prunes_of_check ?_⟩
  · decide +kernel
  · decide +kernel
  · decide +kernel

end SeaOfNodes
