import SeaOfNodes.Proofs.Outline
import SeaOfNodes.Proofs.Preservation

/-!
Folding a function in proper form.

A function in proper form that passes the check and returns has all that its runs and those of the
folded function are compared by (`Remains`): its arms hang off branches (`Proper.arm`), and its
divisions consume states of memory (`Setting.apart`). So the folded function returns the same
(`optimize_preserves_returns`). That takes two conditions besides proper form, and neither can be
left out (`optimize_changes_returns`): the result of a division has the mode of its value, and
nothing leaves the exit block.
-/

namespace SeaOfNodes

namespace Execution

open Image

variable {g : Graph} {r : Solution} {s : Schedule} {handler : Handler} {args : List Literal}

/-- Memory states are what members leave, or phis. -/
theorem Current.kind {route : List Position} {j : Nat} {n : NodeId}
    (hcur : Current g s route j n) :
    ∃ x, g.nodes[n]? = some x ∧ (x.op = .proj .memory ∨ x.op = .phi) := by
  induction hcur with
  | initial hx hop => exact ⟨_, hx, .inl hop⟩
  | after _ hx hop => exact ⟨_, hx, .inl hop⟩
  | pass _ _ ih => exact ih
  | merge hx hop => exact ⟨_, hx, .inr hop⟩

section Setting

variable (hset : Setting g r s)

include hset

/-- If the function returns, there is a route to its exit block. -/
theorem Setting.exit_route {fuel : Nat} {e : Execution} {vs : List Literal}
    (hrun : g.execute args handler fuel = .ok e) (hret : e.outcome = .returned vs) :
    ∃ p rest, Route g (fun _ => True) (p :: rest) ∧ p.block = Anchor.endBlock := by
  obtain ⟨s', hs', hrun⟩ := bind_eq_ok.mp hrun
  cases hset.scheduled.symm.trans hs'
  obtain ⟨p, rest, m, m₁, hhist, hend, -⟩ := exists_history .start rfl hrun hret
  obtain ⟨m₀, l₁, ret, x, l₂, exit, -, hsplit, -, hfinish⟩ := runBlock_eq_inr hend
  have hop : x.op = .ret := choose_fits hfinish
  have hmem : (ret, x) ∈ s.body p.block := hsplit ▸ List.mem_append_right _ List.mem_cons_self
  obtain ⟨⟨hlive, hx⟩, hb, -⟩ := hset.lists.mem_body.mp hmem
  obtain ⟨hroute, -⟩ := hhist.sound hset rfl (hset.block_live hmem)
  obtain ⟨c, y, hc, hy, hyop, hcount, -⟩ := hset.proper.edge ret x hlive hx (by rw [hop]; rfl)
  have hin : ret ∈ y.operands := List.count_pos_iff.mp (by omega)
  obtain ⟨-, x', hx', henters⟩ := hset.verified.predecessor c y hc hy hyop ret hin
  cases hx.symm.trans hx'
  rw [hop] at henters
  obtain ⟨k, hk⟩ := List.mem_iff_getElem?.mp hin
  exact ⟨_, _, .step (hroute.mono fun _ _ => trivial) hc hy hyop hk ((Graph.blockOf_eq hx).trans hb)
    trivial, beq_iff_eq.mp henters⟩

/-- In a function in proper form that has a route to its exit block, divisions consume memory
states. -/
theorem Setting.apart
    (hexit : ∃ p rest, Route g (fun _ => True) (p :: rest) ∧ p.block = Anchor.endBlock) :
    Apart g := by
  intro d x n y hd hshape hdiv hhead hn
  obtain ⟨x, hx, rfl⟩ := Option.map_eq_some_iff.mp hshape
  have hplain : x.op ≠ .block ∧ x.op ≠ .phi ∧ x.op.usesMemory = true := by
    have hdiv : x.op.isDivision = true := hdiv
    cases hop : x.op <;> simp [hop, Op.isDivision, Op.usesMemory, Op.traits] at hdiv ⊢
  obtain ⟨b, z, hb, hz, hzop⟩ := hset.proper.member d x hd hx hplain.1
  have hroute : ∃ p rest, Route g (fun _ => True) (p :: rest) ∧ p.block = b := by
    by_cases hend : b = Anchor.endBlock
    · exact hend ▸ hexit
    · exact hset.exists_route (hset.describes.block_live hd hx hb) hz hzop hend
  obtain ⟨p, rest, hroute, rfl⟩ := hroute
  obtain ⟨l₁, l₂, hsplit⟩ := List.append_of_mem
    (hset.lists.mem_body.mpr ⟨⟨hd, hx⟩, hb, hplain.2.1⟩)
  have hcur := hset.proper.memory s hset.scheduled p rest hroute _ d x n
    (events_of_split hsplit hplain.2.2) hx hhead
  obtain ⟨w, hw, hkind⟩ := hcur.kind
  rw [Graph.shape?_eq hw] at hn
  cases hn
  show w.op.isDivision = false
  rcases hkind with hop | hop <;> rw [hop] <;> rfl

end Setting

end Execution

namespace Graph

open Execution

/-- The arms of a function in proper form hang off branches. -/
theorem Proper.arm {g : Graph} {r : Solution} (hg : g.Proper) (hend : g.Terminal)
    (hr : r.Describes g) {n : NodeId} {x : Node} {side : Bool} (hn : g.Live n)
    (hx : g.nodes[n]? = some x) (hop : x.op = .proj (.arm side)) :
    ∃ c y, x.operands = [c] ∧ g.nodes[c]? = some y ∧ y.op = .cond := by
  obtain ⟨b, z, hb, hz, hzop⟩ := hg.member n x hn hx (by simp [hop])
  have hne : b ≠ Anchor.endBlock := by
    rintro rfl
    have hexit := hend n x hn hx hb
    rw [hop] at hexit
    cases hexit
  have hleaves : g.Leaves b n x := ⟨hn, hx, hb, .inr (by rw [hop]; rfl)⟩
  rcases hg.exit b z (hr.block_live hn hx hb) hz hzop hne with
    ⟨e, y, he, hplain, hsole⟩ | ⟨c, y, arm, hc, hcond, harm, hall⟩
  · obtain rfl := hsole n x hleaves
    cases hx.symm.trans he.slot
    rcases hplain with hplain | hplain <;> cases hop.symm.trans hplain
  · rcases hall n x hleaves with rfl | ⟨side', rfl⟩
    · cases hx.symm.trans hc.slot
      cases hop.symm.trans hcond
    · obtain ⟨w, hw, -, hops⟩ := harm side'
      cases hx.symm.trans hw.slot
      exact ⟨c, y, hops, hc.slot, hcond⟩

theorem Proper.basis {g : Graph} {r : Solution} (hg : g.Proper) (hend : g.Terminal)
    (hbuilt : g.Built) (hverify : g.verify = .ok ()) (hr : g.analyze = .ok r) :
    Image.Basis g r := by
  have hdescribes := hbuilt.describes hr
  have hnode {n : NodeId} {x : Shape} (hx : g.shape? n = some x) :
      ∃ y, g.nodes[n]? = some y ∧ y.shape = x := Option.map_eq_some_iff.mp hx
  refine ⟨hbuilt, .of_verify hbuilt hdescribes hverify (fun n x hx hop => ?_)
    (fun n x hn hx hop => ?_) (fun b x hb hx hop => ?_), hdescribes, fun n x side hn hx hop => ?_⟩
  · obtain ⟨y, hy, rfl⟩ := hnode hx
    exact hg.leaf n y hy hop
  · obtain ⟨y, hy, rfl⟩ := hnode hx
    obtain ⟨b, z, hb, hz, hzop⟩ := hg.member n y hn hy hop
    exact ⟨b, z.shape, hb, shape?_eq hz, hzop⟩
  · obtain ⟨y, hy, rfl⟩ := hnode hx
    exact hg.block b y hb hy hop
  · obtain ⟨y, hy, rfl⟩ := hnode hx
    obtain ⟨c, z, hops, hz, hcond⟩ := hg.arm hend hdescribes hn hy hop
    exact ⟨c, z.shape, by rw [show y.shape.operands = [c] from hops]; rfl, shape?_eq hz, hcond⟩

/-- Folding preserves the runs that return: the folded function enters as many blocks, is seen to do
the same, and returns the same values. -/
theorem optimize_preserves_returns {g h : Graph} {check : Bool} {r : Solution} {args : List Literal}
    {handler : Handler} {fuel : Nat} {e : Execution} {vs : List Literal} (hbuilt : g.Built)
    (hverify : g.verify = .ok ()) (hproper : g.Proper) (hend : g.Terminal)
    (hr : g.analyze = .ok r) (hresults : ResultsAgree g r.assignment)
    (hrun : g.execute args handler fuel = .ok e) (hret : e.outcome = .returned vs)
    (hopt : g.optimize check = .ok h) : h.execute args handler fuel = .ok e := by
  have hbasis := hproper.basis hend hbuilt hverify hr
  obtain ⟨s, hs, -⟩ := bind_eq_ok.mp hrun
  have hset : Setting g r s := ⟨hbuilt.mirrored, verify_eq_ok hverify, hbuilt.describes hr,
    hresults, hproper, hend, hs⟩
  obtain ⟨changed, d, happly, rfl⟩ := optimize_eq_ok hopt
  obtain ⟨htidied, -, -⟩ := Folding.apply_tidies (d := { graph := g }) hbasis hr happly
  obtain ⟨σ, K, himage⟩ := htidied.image
  have hsize : Anchor.bad < d.graph.size := by
    obtain ⟨x, hx, -⟩ := exists_shape (himage.anchor Anchor.bad (by decide)).2
    exact lt_size_of_shape? hx
  obtain ⟨t, ht⟩ := exists_schedule hsize htidied.unknotted
  have hrem : Remains g r s σ K d.graph t :=
    ⟨hset, hbasis, hset.apart (hset.exit_route hrun hret), himage, htidied.used, ht⟩
  exact hrem.execute hrun hret

/-- The phi 11 is the state of memory in the loop and after it. -/
def countdownOutline : Outline where
  passed b := ([(Anchor.startBlock, [Anchor.startBlock]), (10, [10, Anchor.startBlock]),
    (18, [18, 10, Anchor.startBlock]), (26, [26, 10, Anchor.startBlock])].lookup b).getD []
  state b := [(Anchor.startBlock, 5), (10, 11), (18, 11), (26, 11)].lookup b

/-- Folding takes the division out of the loop, and the phi 13 with it. -/
theorem optimize_preserves_returns_countdown :
    ∃ g h, countdown.foldlM Graph.apply (.new "f" 1) = .ok g ∧ g.optimize = .ok h ∧
      h.isRetired 13 = true ∧ h.isRetired 19 = true ∧
      h.execute [.int .i32 2] = .ok
        { effects := #[.call "emit" [.int .i32 2], .call "emit" [.int .i32 1]]
          outcome := .returned [.int .i32 1]
          steps := 7 } := by
  have hok : (do
      let g ← countdown.foldlM Graph.apply (.new "f" 1)
      g.verify
      let s ← schedule g
      let r ← g.analyze
      let h ← g.optimize
      let e ← g.execute [.int .i32 2]
      return (decide (g.ShownBy s countdownOutline),
        s.all fun e => e.2.block != some Anchor.endBlock || !e.2.op.isExit,
        checkResults g r.assignment, h.isRetired 13, h.isRetired 19, e)) =
      .ok (true, true, true, true, true,
        { effects := #[.call "emit" [.int .i32 2], .call "emit" [.int .i32 1]]
          outcome := .returned [.int .i32 1]
          steps := 7 }) := by
    decide +kernel
  obtain ⟨g, hg, hok⟩ := bind_eq_ok.mp hok
  obtain ⟨⟨⟩, hverify, hok⟩ := bind_eq_ok.mp hok
  obtain ⟨s, hs, hok⟩ := bind_eq_ok.mp hok
  obtain ⟨r, hr, hok⟩ := bind_eq_ok.mp hok
  obtain ⟨h, hopt, hok⟩ := bind_eq_ok.mp hok
  obtain ⟨e, hrun, hok⟩ := bind_eq_ok.mp hok
  obtain ⟨hshown, hok⟩ := Prod.mk.inj (Except.ok.inj hok)
  obtain ⟨hend, hok⟩ := Prod.mk.inj hok
  obtain ⟨hresults, hok⟩ := Prod.mk.inj hok
  obtain ⟨hphi, hok⟩ := Prod.mk.inj hok
  obtain ⟨hdivision, rfl⟩ := Prod.mk.inj hok
  exact ⟨g, h, hg, hopt, hphi, hdivision, optimize_preserves_returns ((Built.new "f" 1).foldlM hg)
    hverify (.of_outline hs (of_decide_eq_true hshown)) (.of_schedule hs hend) hr
    (resultsAgree_of_check hresults) hrun rfl hopt⟩

/-- The result of a division has the mode that the dividend is declared with. -/
def DividendModes (g : Graph) : Prop :=
  ∀ x ∈ g.nodes, x.op = .proj .result → ∀ t ∈ x.operands.head?, ∀ y ∈ g.nodes[t]?,
    y.op.isDivision = true → ∀ d ∈ y.operands[1]?, ∀ z ∈ g.nodes[d]?, x.mode = z.mode

instance (g : Graph) : Decidable g.DividendModes := by
  unfold DividendModes
  infer_instance

/-- The dividend 10 is declared wider than the constant 6 it is merged from. -/
def widenedMerge : List Edit :=
  [.addNode (.proj .memory) .memory (some Anchor.startBlock) [Anchor.start],
    .addNode (.const (.int .i32 10)) (.int .i32) (some Anchor.startBlock) [],
    .addNode (.const (.int .i32 5)) (.int .i32) (some Anchor.startBlock) [],
    .addNode .jump .control (some Anchor.startBlock) [],
    .addNode .block .block none [8],
    .addNode .phi (.int .i64) (some 9) [6],
    .addNode .div .tuple (some 9) [5, 10, 7],
    .addNode (.proj .memory) .memory (some 9) [11],
    .addNode (.proj .result) (.int .i64) (some 9) [11],
    .addNode .not (.int .i64) (some 9) [13],
    .addNode .ret .control (some 9) [12, 14],
    .addOperand Anchor.endBlock 15]

def widenedMergeOutline : Outline where
  passed b :=
    ([(Anchor.startBlock, [Anchor.startBlock]), (9, [9, Anchor.startBlock])].lookup b).getD []
  state b := [(Anchor.startBlock, 5), (9, 5)].lookup b

/-- The arm 14 leaves the exit block for the block 15, which leads to itself only. The constant 6
that it hangs off takes the place of the negation 9 in the conjunction 10. -/
def openExit : List Edit :=
  [.addNode (.proj .memory) .memory (some Anchor.startBlock) [Anchor.start],
    .addNode (.const (.bool true)) .bool (some Anchor.startBlock) [],
    .addNode (.const (.bool false)) .bool (some Anchor.startBlock) [],
    .addNode (.proj (.argument 0)) .bool (some Anchor.startBlock) [Anchor.start],
    .addNode .not .bool (some Anchor.startBlock) [7],
    .addNode (.binary .and) .bool (some Anchor.startBlock) [8, 9],
    .addNode .jump .control (some Anchor.startBlock) [],
    .addNode .block .block none [11],
    .addNode .ret .control (some 12) [5, 8],
    .addOperand Anchor.endBlock 13,
    .addNode (.proj (.arm true)) .control (some Anchor.endBlock) [6],
    .addNode .block .block none [14],
    .addNode .jump .control (some 15) [],
    .addOperand 15 16,
    .keepAlive 15,
    .keepAlive 10]

def openExitOutline : Outline where
  passed b := ([(Anchor.startBlock, [Anchor.startBlock]), (12, [12, Anchor.startBlock]),
    (Anchor.endBlock, [Anchor.endBlock, Anchor.startBlock])].lookup b).getD []
  state b := [(Anchor.startBlock, 5), (12, 5)].lookup b

/-- A function in proper form may return something else once it is folded if a division has a result
of another mode than its value, and may not return any more if an edge leaves the exit block. -/
theorem optimize_changes_returns :
    (∃ g h, widenedMerge.foldlM Graph.apply (.new "f" 0) = .ok g ∧ g.verify = .ok () ∧
      g.Proper ∧ g.DividendModes ∧ g.Terminal ∧ g.optimize = .ok h ∧
      g.execute [] = .ok { effects := #[], outcome := .returned [.int .i64 (-3)], steps := 2 } ∧
      h.execute [] = .ok { effects := #[], outcome := .returned [.int .i32 (-3)], steps := 2 }) ∧
    ∃ g h, openExit.foldlM Graph.apply (.new "f" 1) = .ok g ∧ g.verify = .ok () ∧
      g.Proper ∧ g.DividendModes ∧ g.optimize = .ok h ∧
      g.execute [.bool true] =
        .ok { effects := #[], outcome := .returned [.bool true], steps := 2 } ∧
      h.execute [.bool true] = .error (.undefinedValue 6) := by
  constructor
  · have hok : (do
        let g ← widenedMerge.foldlM Graph.apply (.new "f" 0)
        g.verify
        let s ← schedule g
        let h ← g.optimize
        return (decide (g.ShownBy s widenedMergeOutline), decide g.DividendModes,
          s.all fun e => e.2.block != some Anchor.endBlock || !e.2.op.isExit,
          g.execute [], h.execute [])) =
        .ok (true, true, true,
          .ok { effects := #[], outcome := .returned [.int .i64 (-3)], steps := 2 },
          .ok { effects := #[], outcome := .returned [.int .i32 (-3)], steps := 2 }) := by
      decide +kernel
    obtain ⟨g, hg, hok⟩ := bind_eq_ok.mp hok
    obtain ⟨⟨⟩, hverify, hok⟩ := bind_eq_ok.mp hok
    obtain ⟨s, hs, hok⟩ := bind_eq_ok.mp hok
    obtain ⟨h, hopt, hok⟩ := bind_eq_ok.mp hok
    obtain ⟨hshown, hok⟩ := Prod.mk.inj (Except.ok.inj hok)
    obtain ⟨hmodes, hok⟩ := Prod.mk.inj hok
    obtain ⟨hend, hok⟩ := Prod.mk.inj hok
    obtain ⟨hrun, hrun'⟩ := Prod.mk.inj hok
    exact ⟨g, h, hg, hverify, .of_outline hs (of_decide_eq_true hshown),
      of_decide_eq_true hmodes, .of_schedule hs hend, hopt, hrun, hrun'⟩
  · have hok : (do
        let g ← openExit.foldlM Graph.apply (.new "f" 1)
        g.verify
        let s ← schedule g
        let h ← g.optimize
        return (decide (g.ShownBy s openExitOutline), decide g.DividendModes,
          g.execute [.bool true], h.execute [.bool true])) =
        .ok (true, true, .ok { effects := #[], outcome := .returned [.bool true], steps := 2 },
          .error (.undefinedValue 6)) := by
      decide +kernel
    obtain ⟨g, hg, hok⟩ := bind_eq_ok.mp hok
    obtain ⟨⟨⟩, hverify, hok⟩ := bind_eq_ok.mp hok
    obtain ⟨s, hs, hok⟩ := bind_eq_ok.mp hok
    obtain ⟨h, hopt, hok⟩ := bind_eq_ok.mp hok
    obtain ⟨hshown, hok⟩ := Prod.mk.inj (Except.ok.inj hok)
    obtain ⟨hmodes, hok⟩ := Prod.mk.inj hok
    obtain ⟨hrun, hrun'⟩ := Prod.mk.inj hok
    exact ⟨g, h, hg, hverify, .of_outline hs (of_decide_eq_true hshown),
      of_decide_eq_true hmodes, hopt, hrun, hrun'⟩

end Graph

end SeaOfNodes
