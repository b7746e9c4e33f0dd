import SeaOfNodes.Proofs.Histories
import SeaOfNodes.Proofs.Precision

/-!
What stands in for the nodes of a function in proper form.

Where a value is used in a run, the node that stands in for its node has the same value, or it is a
constant that carries it (`Present.stands`). The edges that control passes are left, and with them
the blocks of the route (`Remains.blocks_live`). Jumps that were added stand in for arms that are
always chosen (`Remains.jump_stands`).
-/

namespace SeaOfNodes

namespace Execution

open Image

/-- What folding has left of a function in proper form, with the order in which the nodes act
there. -/
structure Remains (g : Graph) (r : Solution) (s : Schedule) (σ : NodeId → NodeId)
    (K : NodeId → List Nat) (h : Graph) (t : Schedule) : Prop where
  setting : Setting g r s
  basis : Basis g r
  apart : Apart g
  image : Image g r σ K h.Live h
  used : ∀ n, h.isRetired n = false → h.Live n
  scheduled : schedule h = .ok t

variable {g h : Graph} {r : Solution} {s t : Schedule} {σ : NodeId → NodeId}
  {K : NodeId → List Nat} {handler : Handler} {args : List Literal} {m m' : Machine}
  {p : Position} {rest : List Position}

/-! ### Reasons in blocks that control comes to -/

/-- Why `m` may be put in the place of the node `n`, which stands in a block that control comes
to. -/
inductive Reason (g : Graph) (r : Solution) (h : Graph) (n : NodeId) (x : Node) :
    NodeId → Prop where
  | fold {c : NodeId} {v : Literal} : x.op.isFolded = true → r.constant? n = some v →
    Carries g h c v → Reason g r h n x c
  | quotient {d c : NodeId} {v : Literal} : x.op = .proj .result → Quotient g r d v →
    x.operands = [d] → Carries g h c ((v.convert? x.mode).getD v) → Reason g r h n x c
  | splice {d m : NodeId} {v : Literal} : x.op = .proj .memory → Quotient g r d v →
    x.operands = [d] → (g.operands d).head? = some m → Reason g r h n x m
  | arm {m : NodeId} (side : Bool) : x.op = .proj (.arm side) → Reason g r h n x m
  | merge {b o : NodeId} : x.op = .phi → Sole g r n b o → Reason g r h n x o

theorem Setting.reason (hset : Setting g r s) (hapart : Apart g) {n m b : NodeId} {x : Node}
    (hx : g.nodes[n]? = some x) (hb : x.block = some b) (hreach : r.assignment.reachable b = true)
    (hgives : Image.Gives g r h n m) : Reason g r h n x m := by
  have hshape {z : Shape} (hz : g.shape? n = some z) : z = x.shape := by
    rw [Graph.shape?_eq hx] at hz
    exact (Option.some.inj hz).symm
  have hsingle {k : Projection} {d : NodeId} (hn : g.Live n) (hop : x.op = .proj k)
      (hd : d ∈ x.operands) : x.operands = [d] := by
    obtain ⟨d', hops⟩ := hset.proper.projection n x k hn hx hop
    rw [hops] at hd ⊢
    rw [List.mem_singleton.mp hd]
  cases hgives with
  | fold _ hz hop _ hv hc =>
    cases hshape hz
    exact .fold hop hv hc
  | quotient hn hz hop hq hd hc =>
    cases hshape hz
    exact .quotient hop hq (hsingle hn hop (hd hapart)) hc
  | splice hn hz hop hq hd hm =>
    cases hshape hz
    exact .splice hop hq (hsingle hn hop (hd hapart)) hm
  | jump _ hz hop =>
    cases hshape hz
    exact .arm _ hop
  | dead _ hz hop =>
    cases hshape hz
    exact .arm _ hop
  | merge hn hz hop hzb hsole ho =>
    cases hshape hz
    exact .merge hop ⟨x, _, hn, hx, hop, hzb, hsole, ho⟩
  | bury _ hz _ hzb hunreached =>
    cases hshape hz
    cases hb.symm.trans hzb
    rw [hreach] at hunreached
    cases hunreached
  | buryJump hj =>
    exact absurd (Graph.lt_size_of_shape? (Graph.shape?_eq hx)) (Nat.not_lt_of_le hj.1)
  | block hn hz hop =>
    cases hshape hz
    rw [hset.proper.block n x hn hx hop] at hb
    cases hb

/-! ### Values -/

/-- The node `n` has the value `v`, which a member of the last block may use after the members
`done`. -/
structure Present (g : Graph) (r : Solution) (p : Position) (done : Schedule) (m : Machine)
    (n : NodeId) (v : Literal) : Prop where
  live : g.Live n
  value : m.value n = some v
  dominates : ∀ b, g.blockOf n = some b → Dominates g r.Taken b p.block
  current : ∀ x, g.nodes[n]? = some x → x.block = some p.block → x.op ≠ .phi → (n, x) ∈ done

theorem Setting.reachable_of_mem (hset : Setting g r s) {route : List Position}
    (hroute : Route g r.Taken route) {b : NodeId} (hb : b ∈ blocks route) :
    r.assignment.reachable b = true := by
  obtain ⟨p, hp, rfl⟩ := List.mem_map.mp hb
  obtain ⟨after, rest, rfl⟩ := List.append_of_mem hp
  exact hset.reachable (hroute.drop after)

theorem eq_of_covers {a : Fact} {c v : Literal} (h : a.Covers v) (ha : a = .constant c) :
    v = c := by
  subst ha
  rcases h with h | h
  · cases h
  · exact (Fact.constant.inj h).symm

/-- The value of the result of a division of constants. -/
theorem Setting.quotient_value (hset : Setting g r s) {route : List Position}
    (hsound : Sound g r route m) {n d : NodeId} {x : Node} {v w : Literal}
    (hv : m.value n = some v) (hx : g.nodes[n]? = some x) (hop : x.op = .proj .result)
    (hin : r.assignment.enters x = true) (hq : Quotient g r d w) (hops : x.operands = [d]) :
    v = (w.convert? x.mode).getD w := by
  obtain ⟨hn, -, -, hcovers⟩ := hsound.explained n v hv
  obtain ⟨hdlive, ⟨_, hshape, hdiv⟩, hw⟩ := hq
  obtain ⟨y, hy, rfl⟩ := Option.map_eq_some_iff.mp hshape
  have hhead : x.operands.head? = some d := by rw [hops]; rfl
  have hcomputes : g.computes x = true := by
    simp only [Graph.computes, hop, hhead, Option.bind_some, hy, Option.any_some]
    exact hdiv
  have hvalue : r.assignment.value n = .constant w := by
    rw [hset.describes.value_eq_transfer hn hx hcomputes hin, Assignment.transfer, hop]
    exact operand_of_constant (by rw [hops]; rfl) hw
  obtain rfl := eq_of_covers hcovers hvalue
  have hmode := hset.agree n x d y v hn hx hop hhead hdlive hy hdiv (Solution.value_of_constant? hw)
  rw [hmode, Literal.convert?_mode]
  rfl

/-- What takes the place of a node that has a value has it too, or carries it. -/
theorem Present.gives (hset : Setting g r s) (hapart : Apart g)
    (hroute : Route g r.Taken (p :: rest)) (hsound : Sound g r (p :: rest) m) {done : Schedule}
    {n k : NodeId} {v : Literal} (hn : Present g r p done m n v) (hgives : Image.Gives g r h n k) :
    Present g r p done m k v ∨ Carries g h k v := by
  obtain ⟨-, ⟨x, hx, hkind⟩, ⟨b, hb, hblock⟩, hcovers⟩ := hsound.explained n v hn.value
  rw [Graph.blockOf_eq hx] at hblock
  have hreach := hset.reachable_of_mem hroute hb
  -- Nodes of other kinds have no value.
  have hnone (h₁ : givesValue x.op = false) (h₂ : x.op ≠ .phi) : False := by
    rcases hkind with h | h
    · rw [h₁] at h
      cases h
    · exact h₂ h.1
  cases hset.reason hapart hx hblock hreach hgives with
  | fold _ hc hcarries =>
    obtain rfl := eq_of_covers hcovers (Solution.value_of_constant? hc)
    exact .inr hcarries
  | quotient hop hq hops hcarries =>
    have hin := Assignment.enters_eq_true.mpr ⟨b, hblock, hreach⟩
    rw [← hset.quotient_value hsound hn.value hx hop hin hq hops] at hcarries
    exact .inr hcarries
  | splice hop => exact (hnone (by rw [hop]; rfl) (by simp [hop])).elim
  | arm _ hop => exact (hnone (by rw [hop]; rfl) (by simp [hop])).elim
  | @merge b' _ _ hsole =>
    obtain ⟨x', i, -, hx', -, hb', -, ho⟩ := id hsole
    cases hx.symm.trans hx'
    have hdom := hn.dominates b' ((Graph.blockOf_eq hx).trans hb')
    refine .inl ⟨?_, hsound.steady n b' k p rest rfl hsole hdom v hn.value, fun c hc => ?_,
      fun y hy hyb _ => ?_⟩
    · exact hset.describes.operands_live hn.live hx k (List.mem_of_getElem? ho)
    · exact hdom.of_entry (hset.sole_entry hsole hc)
    · exact absurd ((Graph.blockOf_eq hy).trans hyb) (hset.sole_away hroute hsole hdom)

/-- What stands in for a node that has a value has it too, or carries it. -/
theorem Present.stands (hrem : Remains g r s σ K h t) (hroute : Route g r.Taken (p :: rest))
    (hsound : Sound g r (p :: rest) m) {done : Schedule} {n : NodeId} {v : Literal}
    (hn : Present g r p done m n v) :
    Present g r p done m (σ n) v ∨ Carries g h (σ n) v := by
  refine path_induction (P := fun k => Present g r p done m k v ∨ Carries g h k v)
    (fun i k hi hgives => ?_) (hrem.image.path n hn.live) (.inl hn)
  rcases hi with hi | hi
  · exact hi.gives hrem.setting hrem.apart hroute hsound hgives
  · exact absurd hgives (hi.not_gives hrem.basis)

section Remains

variable (hrem : Remains g r s σ K h t)

include hrem

/-! ### Nodes that are left -/

theorem Remains.live {n : NodeId} {x : Node} (hn : h.Live n) (hx : g.nodes[n]? = some x)
    (hop : ∀ v, x.op ≠ .const v) : g.Live n :=
  Scope.live (hrem.image.scope n hn) (Graph.shape?_eq hx) hop

theorem Remains.input_live {n i : NodeId} (hn : h.Live n) (hi : i ∈ h.inputs n) : h.Live i :=
  (hrem.image.closed n i hn (hrem.image.of_live hn).2 hi).1

theorem Remains.needs {n i : NodeId} (hn : h.Live n) (hi : i ∈ h.inputs n) : h.Needs n i :=
  ⟨hi, (hrem.image.closed n i hn (hrem.image.of_live hn).2 hi).2⟩

theorem Remains.operand_live {n i : NodeId} (hn : h.Live n) (hi : i ∈ h.operands n) :
    h.Live i := by
  obtain ⟨y, hy, hi⟩ := Graph.mem_operands_of_shape hi
  exact hrem.input_live hn (Graph.mem_inputs.mpr ⟨y, hy, .inr hi⟩)

theorem Remains.block_live {n b : NodeId} (hn : h.Live n) (hb : h.blockOf n = some b) :
    h.Live b := by
  obtain ⟨y, hy, hyb⟩ := Option.bind_eq_some_iff.mp hb
  exact hrem.input_live hn (Graph.mem_inputs.mpr ⟨y.shape, Graph.shape?_eq hy, .inl hyb⟩)

theorem Remains.blockOf_eq {n : NodeId} (hn : g.Live n) (hh : h.Live n) :
    h.blockOf n = g.blockOf n := by
  obtain ⟨x, hx, -⟩ := Graph.isRetired_eq_false.mp (hrem.setting.describes.used n hn)
  obtain ⟨y, hy, -, -, hblock, -⟩ := hrem.image.exists_renamed hn hh hx
  rw [Graph.blockOf_eq hy, Graph.blockOf_eq hx, hblock]

omit hrem in
theorem ne_of_not_breaker {op : Op} (h : op.isLoopBreaker = false) : op ≠ .block ∧ op ≠ .phi := by
  constructor
  all_goals
    rintro rfl
    exact absurd h (by decide)

/-- The operands of a node that is left are those that stand in for its operands. -/
theorem Remains.mem_operands {n o : NodeId} {x : Node} (hn : g.Live n) (hh : h.Live n)
    (hx : g.nodes[n]? = some x) (hstop : n ≠ Anchor.stop) (hbreaker : x.op.isLoopBreaker = false)
    (ho : o ∈ x.operands) : σ o ∈ h.operands n := by
  obtain ⟨hblock, hphi⟩ := ne_of_not_breaker hbreaker
  obtain ⟨y, hy, -⟩ := hrem.image.exists_renamed hn hh hx
  rw [Graph.operands_eq hy, hrem.image.operands_of_whole hn hh hx hy hstop hblock hphi]
  exact List.mem_map_of_mem ho

/-! ### Control -/

/-- An edge that control passes into a block that is left has kept its place among those that are
left. -/
theorem Remains.edge {b e : NodeId} {k : Nat} {y : Node} (hb : h.Live b)
    (hy : g.nodes[b]? = some y) (hop : y.op = .block) (hk : y.operands[k]? = some e)
    (htaken : r.Taken e) :
    ∃ i : Nat, (K b)[i]? = some k ∧ (h.operands b)[i]? = some (σ e) := by
  have hi := hrem.image
  have hlive := hrem.live hb hy (by simp [hop])
  have hused := (hi.of_live hb).2
  have hmem := hi.kept b _ hb (Graph.shape?_eq hy) hop hused k e hk htaken
  obtain ⟨i, hi'⟩ := List.mem_iff_getElem?.mp hmem
  refine ⟨i, hi', ?_⟩
  rw [hi.operands b (ne_stop_of_op hrem.basis hy (by simp [hop])) hb hlive hused,
    List.getElem?_map, getElem?_pick hi.valid, hi', Option.bind_some, Graph.operands_eq hy, hk]
  rfl

/-- What stands in for an edge that control passes stands where the edge stood. -/
theorem Remains.blockOf_edge {e : NodeId} (he : g.Live e) (htaken : r.Taken e)
    (hlive : h.Live (σ e)) : h.blockOf (σ e) = g.blockOf e := by
  rcases (hrem.image.taken_stands hrem.basis he htaken).2 with hsame | ⟨b, hb, -, z, hz, hzb, -⟩
  · rw [hsame] at hlive ⊢
    exact hrem.blockOf_eq he hlive
  · rw [Graph.blockOf_of_shape hz, hzb, hb]

/-- The blocks on a route to a block that is left are left. -/
theorem Remains.blocks_live {route : List Position} (hroute : Route g r.Taken route)
    (hhead : ∀ p rest, route = p :: rest → h.Live p.block) : ∀ b ∈ blocks route, h.Live b := by
  induction hroute with
  | entry =>
    intro b hb
    rw [List.mem_singleton.mp hb]
    exact hhead _ _ rfl
  | @step p rest c e k x hold hc hx hop hk he htaken ih =>
    have hlive : h.Live c := hhead _ _ rfl
    intro b hb
    rcases List.mem_cons.mp hb with rfl | hb
    · exact hlive
    · refine ih (fun p' rest' heq => ?_) b hb
      obtain ⟨rfl, rfl⟩ := List.cons_eq_cons.mp heq
      obtain ⟨i, -, hi⟩ := hrem.edge hlive hx hop hk htaken
      have hedge := hrem.operand_live hlive (List.mem_of_getElem? hi)
      have helive := hrem.setting.describes.operands_live hc hx e (List.mem_of_getElem? hk)
      exact hrem.block_live hedge ((hrem.blockOf_edge helive htaken hedge).trans he)

/-- What is left and no block stands in for something, if it is no anchor. -/
theorem Remains.exists_stands {z : NodeId} (hz : h.Live z) (hanchor : z ∉ Anchor.all)
    (hblock : ∀ x, g.nodes[z]? = some x → x.op ≠ .block) : ∃ o, g.Live o ∧ σ o = z := by
  have hi := hrem.image
  obtain ⟨root, hroot, hpath⟩ := id hz
  rcases hpath.cases_tail with rfl | ⟨n, hn, hneeds⟩
  · refine absurd ?_ hanchor
    simp only [List.mem_cons, List.not_mem_nil, or_false] at hroot
    rcases hroot with rfl | rfl | rfl <;> decide
  have hn : h.Live n := ⟨root, hroot, hn⟩
  obtain ⟨w, hw, hin⟩ := Graph.mem_inputs.mp hneeds.1
  rcases hin with hin | hin
  · have hwop : w.op ≠ .retired := by
      obtain ⟨w', hw', hop⟩ := Graph.exists_shape (hi.of_live hn).2
      cases hw.symm.trans hw'
      exact hop
    obtain ⟨-, x, hx, hop⟩ := hi.block_of_used hrem.basis hn hw hwop hin
    obtain ⟨x, hx', rfl⟩ := Option.map_eq_some_iff.mp hx
    exact absurd hop (hblock x hx')
  · have hmem : z ∈ h.operands n := by rwa [Graph.operands_eq_of_shape hw]
    by_cases hstop : n = Anchor.stop
    · subst hstop
      obtain ⟨o, ho, rfl⟩ := hi.stop z hmem
      have hlive := hrem.basis.anchor_live Anchor.stop (by decide)
      exact ⟨o, hrem.setting.operand_live hlive ho, rfl⟩
    · -- Nodes that were not live, or were added, have no operands.
      have hlive : g.Live n := by
        rcases hi.scope n hn with hlive | hfresh | ⟨v, x, hx, hxop, -⟩
        · exact hlive
        · rw [(hi.fresh n w hfresh hw).1] at hin
          cases hin
        · rw [hi.leaf n x hx (.inl ⟨v, hxop⟩)] at hmem
          cases hmem
      rw [hi.operands n hstop hn hlive (hi.of_live hn).2] at hmem
      obtain ⟨o, ho, rfl⟩ := List.mem_map.mp hmem
      obtain ⟨k, -, ho⟩ := mem_pick.mp ho
      exact ⟨o, hrem.setting.operand_live hlive (List.mem_of_getElem? ho), rfl⟩

omit hrem in
/-- The arm `e` of the block `b` is always chosen. -/
def Chosen (g : Graph) (r : Solution) (e b : NodeId) : Prop :=
  ∃ x side c v, g.Live e ∧ g.nodes[e]? = some x ∧ x.op = .proj (.arm side) ∧
    x.operands.head? = some c ∧ r.constant? c = some v ∧ v.toBool? = some side ∧ x.block = some b

/-- A jump that was added takes the place of arms that are always chosen only. -/
theorem Remains.chosen_of_gives {e z b : NodeId} (hj : Jump g h z b) {y : Node}
    (hy : h.nodes[z]? = some y) (hop : y.op = .jump) (hgives : Image.Gives g r h e z) :
    Chosen g r e b := by
  have hold (hlive : g.Live z) : False := by
    obtain ⟨x, hx, -⟩ := Graph.exists_shape (hrem.setting.describes.used z hlive)
    exact absurd (Graph.lt_size_of_shape? hx) (Nat.not_lt_of_le hj.1)
  have hcarries {v : Literal} (hc : Carries g h z v) : False := by
    obtain ⟨w, hw, -, hwop⟩ := hc.now
    rw [Graph.shape?_eq hy] at hw
    cases hw
    rcases hwop with hwop | hwop <;> cases hop.symm.trans hwop
  have hbad (heq : Anchor.bad = z) : False :=
    hold (heq ▸ hrem.basis.anchor_live Anchor.bad (by decide))
  generalize hz : z = z' at hgives
  cases hgives with
  | fold _ _ _ _ _ hc => exact (hcarries (hz ▸ hc)).elim
  | quotient _ _ _ _ _ hc => exact (hcarries (hz ▸ hc)).elim
  | splice _ _ _ hq _ hm =>
    exact (hold (hz ▸ hrem.setting.operand_live hq.1 (List.mem_of_mem_head? hm))).elim
  | merge hn hx _ _ _ ho =>
    refine (hold (hz ▸ hrem.setting.operand_live hn ?_)).elim
    rw [Graph.operands_eq_of_shape hx]
    exact List.mem_of_getElem? ho
  | jump he hshape hxop hc hv hside hb hj' =>
    obtain ⟨x, hx, rfl⟩ := Option.map_eq_some_iff.mp hshape
    obtain ⟨-, w, hw, hwb, -⟩ := hj
    obtain ⟨-, w', hw', hwb', -⟩ := hz ▸ hj'
    cases hw.symm.trans hw'
    cases hwb.symm.trans hwb'
    exact ⟨x, _, _, _, he, hx, hxop, hc, hv, hside, hb⟩
  | dead => exact (hbad hz.symm).elim
  | bury => exact (hbad hz.symm).elim
  | buryJump => exact (hbad hz.symm).elim
  | block => exact (hbad hz.symm).elim

/-- A jump that was added stands in for an arm of its block that is always chosen. -/
theorem Remains.jump_stands {z b : NodeId} {y : Node} (hz : h.Live z) (hy : h.nodes[z]? = some y)
    (hop : y.op = .jump) (hb : y.block = some b) (hsize : g.size ≤ z) :
    ∃ e, Chosen g r e b ∧ σ e = z := by
  have hi := hrem.image
  have hold (hlive : g.Live z) : False := by
    obtain ⟨x, hx, -⟩ := Graph.exists_shape (hrem.setting.describes.used z hlive)
    exact absurd (Graph.lt_size_of_shape? hx) (Nat.not_lt_of_le hsize)
  obtain ⟨o, holive, ho⟩ := hrem.exists_stands hz
    (fun hmem => hold (hrem.basis.anchor_live z hmem))
    (fun x hx => absurd (Graph.lt_size_of_shape? (Graph.shape?_eq hx)) (Nat.not_lt_of_le hsize))
  -- The last reason why can only be that an arm was replaced.
  rcases (hi.trail o holive).cases_tail with heq | ⟨e, -, hgives, hsame⟩
  · exact (hold (ho ▸ heq.symm ▸ holive)).elim
  · rw [ho] at hgives hsame
    exact ⟨e, hrem.chosen_of_gives ⟨hsize, y.shape, Graph.shape?_eq hy, hb, .inl hop⟩ hy hop hgives,
      hsame.trans (hi.self_of_live hz)⟩

end Remains

end Execution

end SeaOfNodes
