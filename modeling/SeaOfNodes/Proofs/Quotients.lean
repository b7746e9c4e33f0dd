import SeaOfNodes.Proofs.Simultaneous

/-!
The constant that takes the place of the result of a division.

The facts give a result the value of its division as it is. The pass converts that value to the
mode of the result. The two agree if the result has the mode of the value, or a mode that nothing
can be converted to (`Substitution.run_converts_result`).
-/

namespace SeaOfNodes

/-- A literal survives a conversion if it has the mode already, or if there is no conversion. -/
theorem Literal.convert?_getD_eq_iff (v : Literal) (m : Mode) :
    (v.convert? m).getD v = v ↔ v.convert? m = none ∨ m = v.mode := by
  constructor
  · intro h
    cases hconv : v.convert? m with
    | none => exact .inl rfl
    | some w =>
      rw [hconv] at h
      obtain rfl : w = v := h
      refine .inr ?_
      cases m <;> simp [Literal.convert?] at hconv <;> rw [← hconv] <;> rfl
  · rintro (h | rfl)
    · rw [h]
      rfl
    · rw [Literal.convert?_mode]
      rfl

theorem Graph.IsConstant.eq {g : Graph} {n : NodeId} {v w : Literal} (hv : g.IsConstant n v)
    (hw : g.IsConstant n w) : v = w := by
  obtain ⟨x, hx, hop, -⟩ := hv
  obtain ⟨y, hy, hop', -⟩ := hw
  cases hx.symm.trans hy
  cases hop.symm.trans hop'
  rfl

namespace Substitution

open Rewriting Image

/-- `p` is gone, and whatever is left of `g` in `h` has `k` where it had `p`. -/
structure TakesPlace (g h : Graph) (p k : NodeId) : Prop where
  removed : h.Removed p
  operand : ∀ u y (i : Nat), g.shape? u = some y → ¬ h.Removed u → y.operands[i]? = some p →
    (h.operands u)[i]? = some k

/-- The facts give the result of a division the value of the division. -/
theorem quotient_of_result {g : Graph} {r : Solution} (hr : r.Describes g) {p t : NodeId}
    {x y : Shape} {c : Literal} (hp : g.Live p) (hx : g.shape? p = some x)
    (hop : x.op = .proj .result) (ht : x.operands.head? = some t) (hy : g.shape? t = some y)
    (hdiv : y.op.isDivision = true) (hc : r.constant? p = some c) : Quotient g r t c := by
  obtain ⟨x, hnode, rfl⟩ := Option.map_eq_some_iff.mp hx
  obtain ⟨z, hz, rfl⟩ := Option.map_eq_some_iff.mp hy
  have hop : x.op = .proj .result := hop
  have ht : x.operands.head? = some t := ht
  have hcomputes : g.computes x = true := by
    simp only [Graph.computes, hop, ht, Option.bind_some, hz, Option.any_some]
    exact hdiv
  have hlive : g.Live t := hr.operands_live hp hnode t (List.mem_of_mem_head? ht)
  have hvalue := hr.transfer_of_constant hp hnode hcomputes hc
  rw [List.head?_eq_getElem?] at ht
  simp only [Assignment.transfer, hop, Assignment.operand, ht, Option.elim_some] at hvalue
  exact ⟨hlive, ⟨_, hy, hdiv⟩, by rw [hr.constant?_eq hlive, hvalue]; rfl⟩

/-- The result of a division to which the facts give the value `c` is replaced by a constant that
carries `c` converted to the mode of the result. That is `c` itself only if the result has the mode
of `c`, or one that there is no conversion to. -/
theorem run_converts_result {g : Graph} {r : Solution} (hg : g.Built) (hr : g.analyze = .ok r)
    (harm : g.ArmsHang) {p t : NodeId} {x y : Shape} {c : Literal} (hp : g.Live p)
    (hx : g.shape? p = some x) (hop : x.op = .proj .result) (ht : x.operands.head? = some t)
    (hy : g.shape? t = some y) (hdiv : y.op.isDivision = true)
    (honly : ∀ d ∈ x.operands, ∀ z, g.shape? d = some z → z.op.isDivision = true → d = t)
    (hc : r.value? p = some (.constant c)) (pass : String) (log : EventLog) :
    ∃ counts d' k, run r pass { graph := g, log } = .ok counts d' ∧ TakesPlace g d'.graph p k ∧
      d'.graph.IsConstant k ((c.convert? x.mode).getD c) ∧
      (d'.graph.IsConstant k c ↔ c.convert? x.mode = none ∨ x.mode = c.mode) := by
  obtain ⟨counts, d', s, hrun, hgraph, ⟨visited, hs⟩, hgone⟩ :=
    exists_renames hg hr harm pass log
  have hconst : r.constant? p = some c := by
    rw [Solution.constant?, hc]
    rfl
  have hq := quotient_of_result (hg.describes hr) hp hx hop ht hy hdiv hconst
  have hdue : Due g r t p (.constant ((c.convert? x.mode).getD c)) :=
    .result hq hx hop (List.mem_of_mem_head? ht)
  have hremoved := hgone t p _ hdue fun z side hz hzop => by
    cases hx.symm.trans hz
    cases hop.symm.trans hzop
  have hone : ProjectsOnce g r p := by
    rintro z k hz - d hd d' hd' v v' ⟨-, ⟨a, ha, hadiv⟩, -⟩ ⟨-, ⟨b, hb, hbdiv⟩, -⟩
    cases hx.symm.trans hz
    rw [honly d hd a ha hadiv, honly d' hd' b hb hbdiv]
  have hk : s.draft.graph.IsConstant (s.standIns.resolve p) _ := hs.done_of_due hone hdue hremoved
  refine ⟨counts, d', s.standIns.resolve p, hrun, hgraph ▸ ⟨hremoved, fun u z i hz hu hi => ?_⟩,
    hgraph ▸ hk, hgraph ▸ ?_⟩
  · rw [Graph.operands_eq_of_shape (hs.shape hz hu), List.getElem?_map, hi]
    rfl
  · rw [← Literal.convert?_getD_eq_iff]
    exact ⟨fun hk' => hk.eq hk', fun heq => heq ▸ hk⟩

/-- A phi declared wider than its operand is divided, and the result has the declared mode. -/
def retypedDivision : List Edit :=
  [.addNode (.proj .memory) .memory (some Anchor.startBlock) [Anchor.start],
    .addNode (.const (.ofInt .i32 10)) (.int .i32) (some Anchor.startBlock) [],
    .addNode (.const (.ofInt .i32 5)) (.int .i32) (some Anchor.startBlock) [],
    .addNode .jump .control (some Anchor.startBlock) [],
    .addNode .block .block none [8],
    .addNode .phi (.int .i64) (some 9) [6],
    .addNode .div .tuple (some 9) [5, 10, 7],
    .addNode (.proj .memory) .memory (some 9) [11],
    .addNode (.proj .result) (.int .i64) (some 9) [11],
    .addNode .ret .control (some 9) [12, 13],
    .addOperand Anchor.endBlock 14]

/-- The facts say `2 : i32`, the pass puts `2 : i64`. -/
theorem run_converts_result_retypedDivision :
    ∃ g r counts d' k, retypedDivision.foldlM Graph.apply (.new "f" 0) = .ok g ∧
      g.verify = .ok () ∧ g.analyze = .ok r ∧ g.Live 13 ∧
      r.value? 13 = some (.constant (.ofInt .i32 2)) ∧
      run r "fold" { graph := g } = .ok counts d' ∧ TakesPlace g d'.graph 13 k ∧
      d'.graph.IsConstant k (.ofInt .i64 2) ∧ ¬ d'.graph.IsConstant k (.ofInt .i32 2) := by
  have hok : (do
      let g ← retypedDivision.foldlM Graph.apply (.new "f" 0)
      g.verify
      let r ← g.analyze
      let w ← Walk.run g
      return (g.nodes.all (checkPlain g), w.live.contains 13, r.value? 13,
        g.nodes[13]?.any fun x => x.op == .proj .result && x.mode == .int .i64 &&
          x.operands == [11],
        g.nodes[11]?.any fun x => x.op.isDivision)) =
      Except.ok (true, true, some (.constant (.ofInt .i32 2)), true, true) := by
    decide +kernel
  obtain ⟨g, hg, hok⟩ := bind_eq_ok.mp hok
  obtain ⟨⟨⟩, hverify, hok⟩ := bind_eq_ok.mp hok
  obtain ⟨r, hr, hok⟩ := bind_eq_ok.mp hok
  obtain ⟨w, hw, hok⟩ := bind_eq_ok.mp hok
  obtain ⟨hcheck, hok⟩ := Prod.mk.inj (Except.ok.inj hok)
  obtain ⟨hlive, hok⟩ := Prod.mk.inj hok
  obtain ⟨hvalue, hok⟩ := Prod.mk.inj hok
  obtain ⟨hresult, hdivision⟩ := Prod.mk.inj hok
  have hlive := ((Walk.complete_of_run hw).contains_iff 13).mp hlive
  obtain ⟨x, hx, hxeq⟩ := (Option.any_eq_true _ _).mp hresult
  obtain ⟨y, hy, hdiv⟩ := (Option.any_eq_true _ _).mp hdivision
  simp only [Bool.and_eq_true, beq_iff_eq] at hxeq
  obtain ⟨⟨hop, hmode⟩, hoperands⟩ := hxeq
  obtain ⟨counts, d', k, hrun, hplace, hconst, hiff⟩ :=
    run_converts_result ((Graph.Built.new "f" 0).foldlM hg) hr (plain_of_check hcheck).armsHang
      hlive (Graph.shape?_eq hx) hop (by rw [Node.shape, hoperands]; rfl) (Graph.shape?_eq hy) hdiv
      (fun d hd _ _ _ => by rwa [Node.shape, hoperands, List.mem_singleton] at hd) hvalue "fold" {}
  have hmode : x.shape.mode = .int .i64 := hmode
  rw [hmode] at hconst hiff
  refine ⟨g, r, counts, d', k, hg, hverify, hr, hlive, hvalue, hrun, hplace, hconst, ?_⟩
  rw [hiff]
  decide

end Substitution

end SeaOfNodes
