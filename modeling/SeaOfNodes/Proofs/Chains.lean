import SeaOfNodes.Proofs.StandIns

/-!
What is left of the memory states of a function in proper form.

What acts on memory consumes the state that what acted before it left (`Graph.Proper`). So if
something that acts on memory is left, everything is that acted before it on the same route, but for
divisions of constants, which hand on the state that they consumed (`Remains.acted_live`). Within a
block, the same argument shows that what is left acts in the order that it had before
(`Remains.acts_before`).
-/

namespace SeaOfNodes

namespace Execution

open Image

variable {g h : Graph} {r : Solution} {s t : Schedule} {σ : NodeId → NodeId}
  {K : NodeId → List Nat} {p q : Position} {rest : List Position}

theorem mem_events {b e : NodeId} :
    e ∈ s.events b ↔ ∃ x, (e, x) ∈ s.body b ∧ x.op.usesMemory = true := by
  simp [Schedule.events]

theorem usesMemory_kind {op : Op} (h : op.usesMemory = true) :
    op.isFolded = false ∧ op.isLoopBreaker = false ∧ op ≠ .stop ∧ ∀ k, op ≠ .proj k := by
  cases op with
  | ret | div | mod | load | store | call => exact ⟨rfl, rfl, nofun, nofun⟩
  | proj k => cases k <;> cases h
  | _ => cases h

theorem varying_of_covers {a : Fact} (h : ∀ v, a.Covers v) : a = .varying := by
  rcases h (.bool true) with h₁ | h₁
  · exact h₁
  · rcases h (.bool false) with h₂ | h₂
    · exact h₂
    · cases h₁.symm.trans h₂

/-- The analysis knows nothing about memory states. -/
theorem Current.varying (hset : Setting g r s) {route : List Position} {j : Nat} {m : NodeId}
    (hcur : Current g s route j m) (hroute : Route g r.Taken route) (hm : g.Live m) :
    r.assignment.value m = .varying := by
  have hseed {n : NodeId} {x : Node} (hn : g.Live n) (hx : g.nodes[n]? = some x)
      (hop : x.op = .proj .memory) : r.assignment.value n = .varying := by
    rw [hset.describes.solves.seed n x hn hx (by rw [Graph.computes, hop]), Node.seed, hop]
  induction hcur with
  | initial hx hop => exact hseed hm hx hop
  | after _ hx hop => exact hseed hm hx hop
  | pass _ _ ih => exact ih (hroute.drop [_]) hm
  | @merge p q rest k m o x hx hop hb hvia ho _ ih =>
    have holive := hset.describes.operands_live hm hx o (List.mem_of_getElem? ho)
    have hvaries := ih (hroute.drop [p]) holive
    have hreach := hset.reachable hroute
    cases hroute with
    | step _ _ hy _ hk _ htaken =>
      cases hvia
      refine varying_of_covers fun v => ?_
      refine phi_covers hset.describes.solves hm hx hop hb hreach
        (by rw [Graph.operands_eq hy]; exact hk) htaken ?_
      rw [Assignment.operand, ho]
      exact .inl hvaries

/-- The node `n` may be used in the block `b`. -/
structure Available (g : Graph) (r : Solution) (n b : NodeId) : Prop where
  live : g.Live n
  dominates : ∀ c, g.blockOf n = some c → Dominates g r.Taken c b

section Remains

variable (hrem : Remains g r s σ K h t)

include hrem

/-- What acts on memory in a block that control comes to is not replaced. -/
theorem Remains.event_stays {e b : NodeId} {x : Node} (he : g.Live e) (hx : g.nodes[e]? = some x)
    (hop : x.op.usesMemory = true) (hb : x.block = some b)
    (hreach : r.assignment.reachable b = true) : σ e = e := by
  obtain ⟨hfold, hbreaker, -, hproj⟩ := usesMemory_kind hop
  rcases hrem.image.fate e he with hself | ⟨m, hgives, -⟩
  · exact hself
  · cases hrem.setting.reason hrem.apart hx hb hreach hgives with
    | fold hop' =>
      rw [hfold] at hop'
      cases hop'
    | quotient hop' => exact absurd hop' (hproj _)
    | splice hop' => exact absurd hop' (hproj _)
    | arm _ hop' => exact absurd hop' (hproj _)
    | merge hop' => exact absurd hop' (ne_of_not_breaker hbreaker).2

/-- A memory state is left, or the division that left it is one of constants and hands on the state
that it consumed. -/
theorem Remains.state_fate {n e b : NodeId} {x : Node} (hn : g.Live n) (hx : g.nodes[n]? = some x)
    (hop : x.op = .proj .memory) (hops : x.operands = [e]) (hb : x.block = some b)
    (hreach : r.assignment.reachable b = true) :
    σ n = n ∨ ∃ m v, (g.operands e).head? = some m ∧ Quotient g r e v ∧ σ n = σ m := by
  rcases hrem.image.fate n hn with hself | ⟨m, hgives, hsame⟩
  · exact .inl hself
  · cases hrem.setting.reason hrem.apart hx hb hreach hgives with
    | splice _ hq hd hm =>
      cases hops.symm.trans hd
      exact .inr ⟨m, _, hm, hq, hsame⟩
    | fold hop' =>
      rw [hop] at hop'
      cases hop'
    | quotient hop' => cases hop.symm.trans hop'
    | arm _ hop' => cases hop.symm.trans hop'
    | merge hop' => cases hop.symm.trans hop'

/-- The operands of a node may be used in its block. -/
theorem Remains.available {n o b : NodeId} {x : Node} (hn : g.Live n) (hx : g.nodes[n]? = some x)
    (hstop : n ≠ Anchor.stop) (hbreaker : x.op.isLoopBreaker = false) (hb : x.block = some b)
    (ho : o ∈ x.operands) : Available g r o b := by
  obtain ⟨hblock, hphi⟩ := ne_of_not_breaker hbreaker
  refine ⟨hrem.setting.describes.operands_live hn hx o ho, fun c hc => ?_⟩
  exact (hrem.setting.proper.operand n x o b c hn hx hblock hphi hstop ho hb hc).mono
    fun _ _ => trivial

/-- What acts on memory consumes the current state. -/
theorem Remains.event (hroute : Route g r.Taken (p :: rest)) {j : Nat} {e : NodeId}
    (hj : (s.events p.block)[j]? = some e) :
    ∃ x m, (e, x) ∈ s.body p.block ∧ x.op.usesMemory = true ∧ x.operands.head? = some m ∧
      Available g r m p.block ∧ Current g s (p :: rest) j m := by
  have hset := hrem.setting
  obtain ⟨x, hbody, hop⟩ := mem_events.mp (List.mem_of_getElem? hj)
  obtain ⟨⟨he, hx⟩, hb, -⟩ := hset.lists.mem_body.mp hbody
  obtain ⟨m, hm⟩ := hset.verified.memory e x he hx hop
  obtain ⟨-, hbreaker, hstop, -⟩ := usesMemory_kind hop
  exact ⟨x, m, hbody, hop, hm,
    hrem.available he hx (ne_stop_of_op hrem.basis hx hstop) hbreaker hb (List.mem_of_mem_head? hm),
    hset.proper.memory s hset.scheduled p rest (hroute.mono fun _ _ => trivial) j e x m hj hx hm⟩

/-- A memory state that may be used in the block of what left it stands in that block. -/
theorem Remains.state_block (hroute : Route g r.Taken (p :: rest)) {m e : NodeId} {x : Node}
    (hm : Available g r m p.block) (hx : g.nodes[m]? = some x) (hop : x.op = .proj .memory)
    (hops : x.operands = [e]) (he : g.blockOf e = some p.block) : x.block = some p.block := by
  obtain ⟨b, -, hb, -⟩ := hrem.setting.proper.member m x hm.live hx (by simp [hop])
  have he' := hrem.available hm.live hx (ne_stop_of_op hrem.basis hx (by simp [hop]))
    (by rw [hop]; rfl) hb (hops ▸ List.mem_singleton_self e)
  have hdom := hm.dominates b ((Graph.blockOf_eq hx).trans hb)
  rw [hb, hdom.antisymm (he'.dominates _ he) hroute rfl]

/-- If the current state is among some nodes that are left, which contain the operands of those of
them that stand in this block, so is everything that acted on memory before it in this block, but
for divisions of constants. -/
theorem Remains.retrace (hroute : Route g r.Taken (p :: rest)) {S : NodeId → Prop}
    (hS : ∀ n, S n → h.Live n)
    (hclosed : ∀ n i x, S n → g.Live n → g.nodes[n]? = some x → x.block = some p.block →
      x.op.isLoopBreaker = false → i ∈ h.operands n → S i)
    {j : Nat} {m : NodeId} (hcur : Current g s (p :: rest) j m) (hm : Available g r m p.block)
    (hstands : S (σ m)) :
    (∀ (i : Nat) e, i < j → (s.events p.block)[i]? = some e → (∀ v, ¬ Quotient g r e v) → S e) ∧
      ∃ m₀, Current g s (p :: rest) 0 m₀ ∧ Available g r m₀ p.block ∧ S (σ m₀) := by
  induction j generalizing m with
  | zero => exact ⟨fun i _ hi => absurd hi (Nat.not_lt_zero i), m, hcur, hm, hstands⟩
  | succ j ih =>
    cases hcur with
    | @after _ _ _ e _ x he hx hop hops =>
      obtain ⟨y, m', hbody, hmem, hhead, havail, hbefore⟩ := hrem.event hroute he
      obtain ⟨⟨helive, hy⟩, hyb, -⟩ := hrem.setting.lists.mem_body.mp hbody
      obtain ⟨-, hbreaker, hstop, -⟩ := usesMemory_kind hmem
      have hreach := hrem.setting.reachable hroute
      have hb := hrem.state_block hroute hm hx hop hops ((Graph.blockOf_eq hy).trans hyb)
      rcases hrem.state_fate hm.live hx hop hops hb hreach with hself | ⟨m'', v, hm'', hq, hsame⟩
      · rw [hself] at hstands
        have he' : S e := by
          refine hclosed m e x hstands hm.live hx hb (by rw [hop]; rfl) ?_
          rw [← hrem.event_stays helive hy hmem hyb hreach]
          exact hrem.mem_operands hm.live (hS m hstands) hx
            (ne_stop_of_op hrem.basis hx (by simp [hop])) (by rw [hop]; rfl)
            (hops ▸ List.mem_singleton_self e)
        have hoperand := hrem.mem_operands helive (hS e he') hy (ne_stop_of_op hrem.basis hy hstop)
          hbreaker (List.mem_of_mem_head? hhead)
        obtain ⟨hacted, hfirst⟩ := ih hbefore havail
          (hclosed e _ y he' helive hy hyb hbreaker hoperand)
        refine ⟨fun i e' hi he'' hq => ?_, hfirst⟩
        rcases Nat.lt_succ_iff_lt_or_eq.mp hi with hi | rfl
        · exact hacted i e' hi he'' hq
        · cases he.symm.trans he''
          exact he'
      · rw [Graph.operands_eq hy] at hm''
        cases hhead.symm.trans hm''
        obtain ⟨hacted, hfirst⟩ := ih hbefore havail (hsame ▸ hstands)
        refine ⟨fun i e' hi he' hq' => ?_, hfirst⟩
        rcases Nat.lt_succ_iff_lt_or_eq.mp hi with hi | rfl
        · exact hacted i e' hi he' hq'
        · cases he.symm.trans he'
          exact absurd hq (hq' v)

/-- If the state that a block begins with is left, so is the one that the block before it ended
with. -/
theorem Remains.step_back (hroute : Route g r.Taken (p :: q :: rest)) {m : NodeId}
    (hcur : Current g s (p :: q :: rest) 0 m) (hm : Available g r m p.block)
    (hlive : h.Live (σ m)) :
    ∃ o, Current g s (q :: rest) (s.events q.block).length o ∧ Available g r o q.block ∧
      h.Live (σ o) := by
  have hset := hrem.setting
  have hreach := hset.reachable hroute
  cases hroute with
  | @step _ _ b e k y hold hb hy hyop hk he htaken =>
    have hroute := Route.step hold hb hy hyop hk he htaken
    have hvaries := hcur.varying hset hroute hm.live
    cases hcur with
    | pass haway hbefore =>
      refine ⟨m, hbefore, ⟨hm.live, fun c hc => ?_⟩, hlive⟩
      refine (hm.dominates c hc).before (fun heq => haway ?_) hb hy hyop hk he htaken
      rw [hc, heq]
    | @merge _ _ _ k' _ o x hx hop hxb hvia ho hbefore =>
      cases hvia
      have holive := hset.describes.operands_live hm.live hx o (List.mem_of_getElem? ho)
      refine ⟨o, hbefore, ⟨holive, fun c hc u before hu huq => ?_⟩, ?_⟩
      · exact hset.proper.phi m x b k o c hm.live hx hop hxb ho hc _
          (.step (hu.mono fun _ _ => trivial) hb hy hyop hk (huq ▸ he) trivial)
      · rcases hrem.image.fate m hm.live with hself | ⟨m', hgives, hsame⟩
        · rw [hself] at hlive
          obtain ⟨z, hz, -, -, -, hops⟩ := hrem.image.exists_renamed hm.live hlive hx
          have hblive := hrem.block_live hlive
            ((hrem.blockOf_eq hm.live hlive).trans ((Graph.blockOf_eq hx).trans hxb))
          obtain ⟨i, hi, -⟩ := hrem.edge hblive hy hyop hk htaken
          refine hrem.operand_live hlive (List.mem_of_getElem? (i := i) ?_)
          rw [Graph.operands_eq hz, hops (ne_stop_of_op hrem.basis hx (by simp [hop])),
            List.getElem?_map, ← Graph.operands_eq hx, getElem?_pick hrem.image.valid,
            hrem.image.aligned m _ b hlive (Graph.shape?_eq hx) hop hxb
              (hrem.image.of_live hlive).2, hi, Option.bind_some, Graph.operands_eq hx, ho]
          rfl
        · cases hset.reason hrem.apart hx hxb hreach hgives with
          | fold _ hv =>
            cases hvaries.symm.trans (Solution.value_of_constant? hv)
          | merge _ hsole =>
            obtain ⟨x', i, -, hx', -, hxb', hpos, ho'⟩ := hsole
            cases hx.symm.trans hx'
            cases hxb.symm.trans hxb'
            obtain rfl := hpos k e (by rwa [Graph.operands_eq hy]) htaken
            cases ho.symm.trans ho'
            rwa [← hsame]
          | quotient hop' => cases hop.symm.trans hop'
          | splice hop' => cases hop.symm.trans hop'
          | arm _ hop' => cases hop.symm.trans hop'

/-- If the current state is left, so is everything that acted on memory before it, but for divisions
of constants. -/
theorem Remains.acted_live (hroute : Route g r.Taken (p :: rest)) {j : Nat} {m : NodeId}
    (hcur : Current g s (p :: rest) j m) (hm : Available g r m p.block) (hlive : h.Live (σ m)) :
    (∀ (i : Nat) e, i < j → (s.events p.block)[i]? = some e → (∀ v, ¬ Quotient g r e v) →
      h.Live e) ∧
      ∀ b ∈ blocks rest, ∀ e ∈ s.events b, (∀ v, ¬ Quotient g r e v) → h.Live e := by
  induction rest generalizing p j m with
  | nil =>
    exact ⟨(hrem.retrace hroute (fun _ hn => hn) (fun _ _ _ hn _ _ _ _ => hrem.operand_live hn)
      hcur hm hlive).1, fun b hb => by cases hb⟩
  | cons q rest ih =>
    obtain ⟨hacted, m₀, hfirst, hm₀, hlive₀⟩ := hrem.retrace hroute (fun _ hn => hn)
      (fun _ _ _ hn _ _ _ _ => hrem.operand_live hn) hcur hm hlive
    obtain ⟨o, hbefore, ho, holive⟩ := hrem.step_back hroute hfirst hm₀ hlive₀
    obtain ⟨hhere, hearlier⟩ := ih (hroute.drop [p]) hbefore ho holive
    refine ⟨hacted, fun b hb e he hq => ?_⟩
    rcases List.mem_cons.mp hb with rfl | hb
    · obtain ⟨i, hi⟩ := List.mem_iff_getElem?.mp he
      exact hhere i e (List.getElem?_eq_some_iff.mp hi).1 hi hq
    · exact hearlier b hb e he hq

omit hrem in
theorem events_of_split {b e : NodeId} {x : Node} {l₁ l₂ : Schedule}
    (hsplit : s.body b = l₁ ++ (e, x) :: l₂) (hop : x.op.usesMemory = true) :
    (s.events b)[(l₁.filter fun d => d.2.op.usesMemory).length]? = some e := by
  rw [Schedule.events, hsplit]
  simp [hop]

omit hrem in
theorem events_before {b e e' : NodeId} {x x' : Node} {l₁ l₂ : Schedule}
    (hsplit : s.body b = l₁ ++ (e, x) :: l₂) (he' : (e', x') ∈ l₁)
    (hop' : x'.op.usesMemory = true) :
    ∃ i < (l₁.filter fun d => d.2.op.usesMemory).length, (s.events b)[i]? = some e' := by
  obtain ⟨i, hi⟩ := List.mem_iff_getElem?.mp (List.mem_filter.mpr ⟨he', hop'⟩ :
    (e', x') ∈ l₁.filter fun d => d.2.op.usesMemory)
  refine ⟨i, (List.getElem?_eq_some_iff.mp hi).1, ?_⟩
  rw [Schedule.events, hsplit, List.filter_append, List.map_append, List.getElem?_append_left
    (by rw [List.length_map]; exact (List.getElem?_eq_some_iff.mp hi).1), List.getElem?_map, hi]
  rfl

/-- If what is left acts on memory, what acted on memory before it in the block acts before it, but
for divisions of constants. -/
theorem Remains.acts_before (hroute : Route g r.Taken (p :: rest)) {l₁ l₂ a a' : Schedule}
    {e e' : NodeId} {x x' : Node} (hsplit : s.body p.block = l₁ ++ (e, x) :: l₂)
    (hop : x.op.usesMemory = true) (he' : (e', x') ∈ l₁) (hop' : x'.op.usesMemory = true)
    (hq : ∀ v, ¬ Quotient g r e' v) (hsplit' : t.body p.block = a ++ a')
    (he : e ∈ a.map Prod.fst) : e' ∈ a.map Prod.fst := by
  have hlists := schedule_lists hrem.scheduled
  have hj := events_of_split hsplit hop
  obtain ⟨i, hlt, hi⟩ := events_before hsplit he' hop'
  obtain ⟨y, m, hbody, hmem, hhead, hm, hcur⟩ := hrem.event hroute hj
  obtain ⟨⟨helive, hy⟩, hyb, -⟩ := hrem.setting.lists.mem_body.mp hbody
  obtain ⟨-, hbreaker, hstop, -⟩ := usesMemory_kind hmem
  obtain ⟨⟨e, z⟩, hz, rfl⟩ := List.mem_map.mp he
  obtain ⟨⟨hlive, hznode⟩, -, -⟩ := hlists.mem_body.mp (hsplit' ▸ List.mem_append_left _ hz)
  -- What is left and belongs to `a` if it acts in this block.
  let S (n : NodeId) : Prop := h.Live n ∧ ∀ w, h.nodes[n]? = some w → w.block = some p.block →
    w.op.isLoopBreaker = false → (n, w) ∈ a
  have hclosed (n i : NodeId) (w : Node) (hn : S n) (hg : g.Live n) (hw : g.nodes[n]? = some w)
      (hb : w.block = some p.block) (hw' : w.op.isLoopBreaker = false)
      (hi : i ∈ h.operands n) : S i := by
    obtain ⟨w', hnode, hwop, -, hwb, -⟩ := hrem.image.exists_renamed hg hn.1 hw
    have hmem := hn.2 w' hnode (hwb.trans hb) (by rw [hwop, hw'])
    refine ⟨hrem.operand_live hn.1 hi, fun v hv hvb hvop => ?_⟩
    obtain ⟨u, hu, hi⟩ := Graph.mem_operands_of_shape hi
    exact hlists.closed_body hsplit' hmem
      (hrem.needs hn.1 (Graph.mem_inputs.mpr ⟨u, hu, .inr hi⟩)) hv hvb hvop
  have he : S e := by
    refine ⟨hlive, fun w hw _ _ => ?_⟩
    cases hznode.symm.trans hw
    exact hz
  have hstands := hclosed e (σ m) y he helive hy hyb hbreaker
    (hrem.mem_operands helive hlive hy (ne_stop_of_op hrem.basis hy hstop) hbreaker
      (List.mem_of_mem_head? hhead))
  obtain ⟨hacted, -⟩ := hrem.retrace hroute (fun _ hn => hn.1) hclosed hcur hm hstands
  obtain ⟨hlive', hmem'⟩ := hacted i e' hlt hi hq
  obtain ⟨⟨hg', hx'⟩, hxb', -⟩ := hrem.setting.lists.mem_body.mp
    (hsplit ▸ List.mem_append_left _ he')
  obtain ⟨w, hw, hwop, -, hwb, -⟩ := hrem.image.exists_renamed hg' hlive' hx'
  exact List.mem_map_of_mem
    (hmem' w hw (hwb.trans hxb') (by rw [hwop]; exact (usesMemory_kind hop').2.1))

end Remains

end Execution

end SeaOfNodes
