import Mathlib.Data.List.NodupEquivFin
import SeaOfNodes.Proofs.Lockstep

/-!
Folding preserves the runs that return.

A run of the folded function accompanies a run of the function block by block: it enters the same
blocks, along what stands in for the edges (`Remains.follow_stands`), and its nodes are worth what
the nodes they stand in for are worth (`Remains.accompanies`). Where the one returns, so does the
other (`Remains.execute`).
-/

namespace SeaOfNodes

namespace Execution

open Image

variable {g h : Graph} {r : Solution} {s t : Schedule} {σ : NodeId → NodeId}
  {K : NodeId → List Nat} {handler : Handler} {args : List Literal} {m m' m₀ m₁ : Machine}
  {p q : Position} {rest : List Position} {b : NodeId}

/-! ### Edges -/

/-- An edge that enters one block only leads there. -/
theorem follow_of_sole (hm : g.Mirrored) {e : NodeId} {x y : Node} (hx : g.nodes[e]? = some x)
    (hy : g.nodes[b]? = some y) (hop : y.op = .block) (hmem : e ∈ y.operands)
    (hsole : ∀ (c : NodeId) (z : Node), g.nodes[c]? = some z → z.op = .block → e ∈ z.operands →
      c = b) :
    follow g e = .ok { block := b, via := y.operands.idxOf? e } := by
  have huser {u : NodeId} : u ∈ x.users ↔ e ∈ g.operands u := by
    rw [← Graph.users_eq hx, hm.mem_users]
  have hselect : ∃ out, g.select (·.op == .block) x.users = .ok out := by
    refine Graph.exists_select _ fun u hu => ?_
    obtain ⟨z, hz, -⟩ := Graph.mem_operands_of_shape (huser.mp hu)
    exact Graph.lt_size_of_shape? hz
  obtain ⟨out, hout⟩ := hselect
  have hhead : out.head? = some b := by
    have hb : b ∈ out := (Graph.mem_select hout).mpr
      ⟨huser.mpr (by rwa [Graph.operands_eq hy]), y, hy, by simp [hop]⟩
    cases out with
    | nil => cases hb
    | cons c out =>
      have hmem' : c ∈ c :: out := List.mem_cons_self
      obtain ⟨hc, z, hz, hzop⟩ := (Graph.mem_select hout).mp hmem'
      rw [List.head?_cons, hsole c z hz (by simpa using hzop)
        (by rw [← Graph.operands_eq hz]; exact huser.mp hc)]
  unfold follow
  rw [Graph.node_eq_ok_iff.mpr hx]
  simp only [bind, Except.bind, hout, hhead, Graph.node_eq_ok_iff.mpr hy]
  rfl

/-- Something that stands in a list once stands at one position. -/
theorem eq_of_count_eq_one {l : List NodeId} {e : NodeId} {i j : Nat} (hcount : l.count e = 1)
    (hi : l[i]? = some e) (hj : l[j]? = some e) : i = j := by
  have hdistinct {i j : Nat} (hlt : i < j) (hi : l[i]? = some e) (hj : l[j]? = some e) : False := by
    obtain ⟨hi', hi⟩ := List.getElem?_eq_some_iff.mp hi
    obtain ⟨hj', hj⟩ := List.getElem?_eq_some_iff.mp hj
    have htwice := List.duplicate_iff_two_le_count.mp
      (List.duplicate_iff_exists_distinct_get.mpr ⟨⟨i, hi'⟩, ⟨j, hj'⟩, hlt, hi.symm, hj.symm⟩)
    omega
  rcases Nat.lt_trichotomy i j with hlt | heq | hlt
  · exact (hdistinct hlt hi hj).elim
  · exact heq
  · exact (hdistinct hlt hj hi).elim

theorem exit_kind {op : Op} (h : op.isExit = true) :
    op = .jump ∨ op = .ret ∨ ∃ side, op = .proj (.arm side) := by
  cases op with
  | jump => exact .inl rfl
  | ret => exact .inr (.inl rfl)
  | proj k =>
    cases k with
    | arm side => exact .inr (.inr ⟨side, rfl⟩)
    | _ => cases h
  | _ => cases h

/-- One arm of a block at most is always chosen. -/
theorem chosen_unique (hleft : g.LeftOnce b) {e e' : NodeId} (he : Chosen g r e b)
    (he' : Chosen g r e' b) : e = e' := by
  have hleaves {k : NodeId} (hk : Chosen g r k b) : ∃ x, g.Leaves b k x := by
    obtain ⟨x, side, -, -, hlive, hx, hop, -, -, -, hb⟩ := hk
    exact ⟨x, hlive, hx, hb, .inr (by rw [hop]; rfl)⟩
  obtain ⟨x, hx⟩ := hleaves he
  obtain ⟨x', hx'⟩ := hleaves he'
  rcases hleft with ⟨k, -, -, -, hsole⟩ | ⟨c, z, arm, hc, hz, harm, hall⟩
  · rw [hsole e x hx, hsole e' x' hx']
  · have harms {k : NodeId} {w : Node} (hk : Chosen g r k b) (hw : g.Leaves b k w) :
        ∃ side v, k = arm side ∧ r.constant? c = some v ∧ v.toBool? = some side := by
      obtain ⟨w', side, c', v, -, hw', hop, hc', hv, hside, -⟩ := hk
      cases hw.slot.symm.trans hw'
      rcases hall k w hw with rfl | ⟨side', rfl⟩
      · cases hw.slot.symm.trans hc.slot
        cases hz.symm.trans hop
      · obtain ⟨u, hu, huop, huops⟩ := harm side'
        cases hw.slot.symm.trans hu.slot
        cases hop.symm.trans huop
        rw [huops] at hc'
        cases hc'
        exact ⟨side, v, rfl, hv, hside⟩
    obtain ⟨side, v, rfl, hv, hside⟩ := harms he hx
    obtain ⟨side', v', rfl, hv', hside'⟩ := harms he' hx'
    cases hv.symm.trans hv'
    cases hside.symm.trans hside'
    rfl

section Remains

variable (hrem : Remains g r s σ K h t)

include hrem

/-- An edge that a jump stands in for is an arm that is always chosen. -/
theorem Remains.chosen_of_stands {e : NodeId} {x : Node} (he : g.Leaves b e x)
    (hexit : x.op.isExit = true) (hreach : r.assignment.reachable b = true)
    (hlive : h.Live (σ e)) (hj : Jump g h (σ e) b) : Chosen g r e b := by
  have hi := hrem.image
  have hslot {u : NodeId} (hu : Chosen g r u b) : u < g.size := by
    obtain ⟨z, -, -, -, -, hz, -⟩ := hu
    exact Graph.lt_size_of_shape? (Graph.shape?_eq hz)
  obtain ⟨hsize, y, hy, hyb, hop⟩ := id hj
  obtain ⟨y, hnode, rfl⟩ := Option.map_eq_some_iff.mp hy
  have hjump : y.op = .jump := by
    obtain ⟨w, hw, hwop⟩ := Graph.isRetired_eq_false.mp (hi.of_live hlive).2
    cases hnode.symm.trans hw
    exact hop.resolve_right hwop
  rcases (hi.trail e he.live).cases_tail with heq | ⟨u, htrail, hgives, -⟩
  · rw [heq] at hsize
    exact absurd (Graph.lt_size_of_shape? (Graph.shape?_eq he.slot)) (Nat.not_lt_of_le hsize)
  · have hchosen := hrem.chosen_of_gives hj hnode hjump hgives
    -- Nothing takes the place of what may take the place of an edge.
    rcases htrail.cases_head with rfl | ⟨m, hfirst, hrest⟩
    · exact hchosen
    · exfalso
      rcases hfirst.1.of_edge hrem.basis (Graph.shape?_eq he.slot) (exit_kind hexit) with
        ⟨c, hc, hjm⟩ | ⟨rfl, -⟩
      · cases he.block.symm.trans hc
        rcases hrest.cases_head with rfl | ⟨_, hnext, -⟩
        · exact absurd (hslot hchosen) (Nat.not_lt_of_le hjm.1)
        · exact hnext.1.of_jump hjm hreach
      · rcases hrest.cases_head with rfl | ⟨_, hnext, -⟩
        · obtain ⟨z, side, -, -, -, hz, hzop, -⟩ := hchosen
          obtain ⟨w, hw, hwop, -⟩ := hrem.basis.anchor (n := Anchor.bad) rfl (by decide)
          rw [Graph.shape?_eq hz] at hw
          cases hw
          cases hzop.symm.trans hwop
        · exact Image.Gives.not_bad hrem.basis hnext.1

/-- Different edges that control may pass have different stand-ins. -/
theorem Remains.edge_injective {b' e e' : NodeId} {x x' : Node} (he : g.Leaves b e x)
    (hexit : x.op.isExit = true) (htaken : r.Taken e) (hreach : r.assignment.reachable b = true)
    (hleft : g.LeftOnce b) (he' : g.Leaves b' e' x') (hexit' : x'.op.isExit = true)
    (hsame : σ e' = σ e) (hlive : h.Live (σ e)) : e' = e := by
  have hi := hrem.image
  have hlt {k : NodeId} {y : Node} (hy : g.nodes[k]? = some y) : k < g.size :=
    Graph.lt_size_of_shape? (Graph.shape?_eq hy)
  obtain ⟨hbad, hstands⟩ := hi.taken_stands hrem.basis he.live htaken
  rcases hi.edge_stands hrem.basis he'.live (Graph.shape?_eq he'.slot) (exit_kind hexit') with
    hself' | ⟨c, hc, hj'⟩ | hbad'
  · rcases hstands with hself | ⟨c, -, hj⟩
    · rw [← hself', hsame, hself]
    · rw [← hsame, hself'] at hj
      exact absurd (hlt he'.slot) (Nat.not_lt_of_le hj.1)
  · rcases hstands with hself | ⟨d, hd, hj⟩
    · rw [hsame, hself] at hj'
      exact absurd (hlt he.slot) (Nat.not_lt_of_le hj'.1)
    · rw [Graph.blockOf_eq he.slot, he.block] at hd
      cases hd
      cases he'.block.symm.trans hc
      -- Both edges leave the block of the jump.
      have hblocks : b' = b := by
        obtain ⟨-, y, hy, hyb, -⟩ := hj
        obtain ⟨-, y', hy', hyb', -⟩ := hsame ▸ hj'
        cases hy.symm.trans hy'
        exact Option.some.inj (hyb'.symm.trans hyb)
      subst hblocks
      exact chosen_unique hleft
        (hrem.chosen_of_stands he' hexit' hreach (hsame.symm ▸ hlive) hj')
        (hrem.chosen_of_stands he hexit hreach hlive hj)
  · exact absurd (hsame.symm.trans hbad') hbad

/-- The predecessors of a block that is left stand in for predecessors that it had. -/
theorem Remains.pred_stands {z : Node} (hb : h.Live b) (hz : h.nodes[b]? = some z)
    (hop : z.op = .block) {i : Nat} {n : NodeId} (hi : z.operands[i]? = some n) :
    ∃ y k e, g.Live b ∧ g.nodes[b]? = some y ∧ y.op = .block ∧ (K b)[i]? = some k ∧
      y.operands[k]? = some e ∧ n = σ e := by
  have hi' := hrem.image
  obtain ⟨hg, y, hy, hyop⟩ := hi'.block_live hb (Graph.shape?_eq hz) hop
  obtain ⟨y, hnode, rfl⟩ := Option.map_eq_some_iff.mp hy
  have hyop : y.op = .block := hyop
  rw [← Graph.operands_eq hz, hi'.operands b (ne_stop_of_op hrem.basis hnode (by simp [hyop])) hb hg
    (hi'.of_live hb).2, List.getElem?_map, getElem?_pick hi'.valid] at hi
  obtain ⟨e, he, rfl⟩ := Option.map_eq_some_iff.mp hi
  obtain ⟨k, hk, he⟩ := Option.bind_eq_some_iff.mp he
  rw [Graph.operands_eq hnode] at he
  exact ⟨y, k, e, hg, hnode, hyop, hk, he, rfl⟩

/-- Control goes on along what stands in for an edge as it did along the edge. -/
theorem Remains.follow_stands {e : NodeId} {x : Node} (he : g.Leaves b e x)
    (hexit : x.op.isExit = true) (htaken : r.Taken e) (hreach : r.assignment.reachable b = true)
    (hleft : g.LeftOnce b) (hfollow : follow g e = .ok q) (hq : h.Live q.block) :
    h.Live (σ e) ∧ ∃ k i, q.via = some k ∧ (K q.block)[i]? = some k ∧
      follow h (σ e) = .ok { block := q.block, via := some i } := by
  have hset := hrem.setting
  obtain ⟨y, k, hy, hop, hvia, -, hk⟩ := follow_lists hset.mirrored hfollow
  have hg := hrem.live hq hy (by simp [hop])
  obtain ⟨i, hKi, hi⟩ := hrem.edge hq hy hop hk htaken
  have hlive := hrem.operand_live hq (List.mem_of_getElem? hi)
  obtain ⟨z, hz, hzop, -⟩ := hrem.image.exists_renamed hg hq hy
  rw [Graph.operands_eq hz] at hi
  have hzop := hzop.trans hop
  -- No other edge has the same stand-in, neither here nor in another block.
  have hedge {c n : NodeId} {w : Node} (hc : g.Live c) (hw : g.nodes[c]? = some w)
      (hwop : w.op = .block) (hn : n ∈ w.operands) (hsame : σ n = σ e) : n = e := by
    obtain ⟨b', u, hleaves, hexit', -⟩ := hset.pred_edge hc hw hwop hn
    exact hrem.edge_injective he hexit htaken hreach hleft hleaves hexit' hsame hlive
  obtain ⟨b₀, y₀, -, hy₀, -, hcount, hsole⟩ := hset.proper.edge e x he.live he.slot hexit
  obtain rfl := hsole q.block y hg hy hop (List.mem_of_getElem? hk)
  cases hy.symm.trans hy₀
  obtain ⟨u, hu, -⟩ := Graph.isRetired_eq_false.mp (hrem.image.of_live hlive).2
  have hfollow' := follow_of_sole hrem.image.mirrored hu hz hzop (List.mem_of_getElem? hi)
    fun c w hw hwop hmem => by
      have hc := hrem.used c (Graph.isRetired_eq_false.mpr ⟨w, hw, by simp [hwop]⟩)
      obtain ⟨j, hj⟩ := List.mem_iff_getElem?.mp hmem
      obtain ⟨v, k', e', hcg, hv, hvop, -, he', hsame⟩ := hrem.pred_stands hc hw hwop hj
      obtain rfl := hedge hcg hv hvop (List.mem_of_getElem? he') hsame.symm
      exact hsole c v hcg hv hvop (List.mem_of_getElem? he')
  refine ⟨hlive, k, i, hvia, hKi, ?_⟩
  rw [hfollow']
  obtain ⟨hlt, hget⟩ := List.getElem?_eq_some_iff.mp hi
  rw [List.idxOf?_eq_some_iff.mpr ⟨hlt, hget, fun j hj heq => ?_⟩]
  have hj' : z.operands[j]? = some (σ e) := List.getElem?_eq_some_iff.mpr ⟨by omega, heq⟩
  obtain ⟨v, k', e', -, hv, -, hKj, he', hsame⟩ := hrem.pred_stands hq hz hzop hj'
  cases hy.symm.trans hv
  obtain rfl := hedge hg hy hop (List.mem_of_getElem? he') hsame.symm
  obtain rfl := eq_of_count_eq_one hcount he' hk
  have hnodup : (K q.block).Nodup := List.nodup_range.sublist (hrem.image.positions q.block)
  have hsame := (List.getElem?_inj (List.getElem?_eq_some_iff.mp hKj).1 hnodup).mp
    (hKj.trans hKi.symm)
  omega

/-! ### Entering a block -/

/-- A phi that is left takes what it took before. -/
theorem Remains.phi_takes {k i : Nat} {n : NodeId} {y : Node}
    (hroute : Route g r.Taken ({ block := b, via := some k } :: q :: rest))
    (hsound : Sound g r (q :: rest) m)
    (hvalues : ∀ n v, h.Live n → Worth g h m n v → m'.value n = some v)
    (hmem : (n, y) ∈ t.phis b) (hi : (K b)[i]? = some k) :
    ∃ x, (n, x) ∈ s.phis b ∧ ∀ o v, x.operands[k]? = some o → m.value o = some v →
      ∃ o', y.operands[i]? = some o' ∧ m'.value o' = some v := by
  have hset := hrem.setting
  obtain ⟨⟨hh, hy⟩, ⟨hyb, hyop⟩, hdata⟩ := hrem.lists.mem_phis.mp hmem
  have hshape : y.shape.op = .phi := hyop
  obtain ⟨x, hx, hop, hmode, hblock⟩ := hrem.image.origin (Graph.shape?_eq hy)
    (by simp [hshape]) (by simp [hshape]) (by simp [hshape])
  obtain ⟨x, hnode, rfl⟩ := Option.map_eq_some_iff.mp hx
  have hop : x.op = .phi := hop.symm.trans hyop
  have hb : x.block = some b := hblock.symm.trans hyb
  have hg := hrem.live hh hnode (by simp [hop])
  refine ⟨x, hset.lists.mem_phis.mpr ⟨⟨hg, hnode⟩, ⟨hb, hop⟩, ?_⟩, fun o v ho hv => ?_⟩
  · rw [show x.mode = y.mode from hmode.symm]
    exact hdata
  · have hops : y.operands = (pick x.operands (K n)).map σ := by
      obtain ⟨y', hy', -, -, -, hops⟩ := hrem.image.exists_renamed hg hh hnode
      cases hy.symm.trans hy'
      exact hops (ne_stop_of_op hrem.basis hnode (by simp [hop]))
    have hget : y.operands[i]? = some (σ o) := by
      rw [hops, List.getElem?_map, ← Graph.operands_eq hnode, getElem?_pick hrem.image.valid,
        hrem.image.aligned n _ b hh hx hop hb (hrem.image.of_live hh).2, hi, Option.bind_some,
        Graph.operands_eq hnode, ho]
      rfl
    have holive := hset.describes.operands_live hg hnode o (List.mem_of_getElem? ho)
    have hpresent : Present g r q (s.body q.block) m o v := by
      refine ⟨holive, hv, fun c hc u before hu huq => ?_, fun z hz hzb hzphi => ?_⟩
      · cases hroute with
        | step _ hblive hw hwop hk he _ =>
          exact hset.proper.phi n x b k o c hg hnode hop hb ho hc _
            (.step (hu.mono fun _ _ => trivial) hblive hw hwop hk (huq ▸ he) trivial)
      · exact hset.lists.mem_body.mpr ⟨⟨holive, hz⟩, hzb, hzphi⟩
    have hstands := hpresent.stands hrem (hroute.drop [_]) hsound
    have hlive := hrem.operand_live hh
      (by rw [Graph.operands_eq hy]; exact List.mem_of_getElem? hget)
    exact ⟨σ o, hget, hvalues (σ o) v hlive (hstands.imp (fun hp => ⟨hp.live, hp.value⟩) id)⟩

end Remains

/-- The position `q'` in the folded function corresponds to the position `q`. -/
structure Beside (K : NodeId → List Nat) (q q' : Position) : Prop where
  block : q'.block = q.block
  via : q.via = none ∧ q'.via = none ∨
    ∃ k i, q.via = some k ∧ q'.via = some i ∧ (K q.block)[i]? = some k

/-- Where a block is entered, nodes are worth in `m'` what they are worth in `m`. In the entry block
constants are not yet set. -/
structure Meets (g h : Graph) (t : Schedule) (p : Position) (m m' : Machine) : Prop where
  values : ∀ n v, h.Live n → (p.via = none → n ∉ (t.body p.block).map Prod.fst) →
    Worth g h m n v → m'.value n = some v
  size : m'.env.size = h.size
  state : m'.state = m.state

/-- What holds once the phis are set, too. -/
structure Entered (g h : Graph) (t : Schedule) (b : NodeId) (m m' : Machine) : Prop where
  values : ∀ n v, h.Live n → n ∉ (t.body b).map Prod.fst → Worth g h m n v → m'.value n = some v
  size : m'.env.size = h.size
  state : m'.state = m.state

section Remains

variable (hrem : Remains g r s σ K h t)

include hrem

theorem Remains.arrives (hroute : Route g r.Taken (p :: rest)) (hsound : Sound g r rest m)
    (hbeside : Beside K p q) (hmeets : Meets g h t p m m') (harrive : arrive s p m = .ok m₀) :
    ∃ m₁, arrive t q m' = .ok m₁ ∧ Entered g h t p.block m₀ m₁ := by
  have hset := hrem.setting
  rcases hbeside.via with ⟨hvia, hvia'⟩ | ⟨k, i, hvia, hvia', hi⟩
  · rw [arrive, hvia] at harrive
    cases harrive
    refine ⟨m', by rw [arrive, hvia'], fun n v hlive hnot => ?_, hmeets.size, hmeets.state⟩
    exact hmeets.values n v hlive fun _ => hnot
  · have hvalues (n : NodeId) (v : Literal) (hlive : h.Live n) (hv : Worth g h m n v) :
        m'.value n = some v :=
      hmeets.values n v hlive (fun hnone => by cases hvia.symm.trans hnone) hv
    rw [arrive, hvia] at harrive
    obtain ⟨hstate, -, hsetg, hkeepg⟩ := runPhis_eq_ok hset.lists.nodup_phis harrive
    cases hroute with
    | entry => cases hvia
    | @step u older b e k' y hold hb hy hop hk he htaken =>
      cases hvia
      have hroute := Route.step hold hb hy hop hk he htaken
      have htakes {n : NodeId} {y : Node} (hmem : (n, y) ∈ t.phis b) :=
        hrem.phi_takes hroute hsound hvalues hmem hi
      have hexists : ∃ m₁, runPhis (t.phis b) i m' = .ok m₁ := by
        refine exists_runPhis fun n y hmem => ?_
        obtain ⟨⟨-, hy⟩, -⟩ := hrem.lists.mem_phis.mp hmem
        obtain ⟨x, hx, hgets⟩ := htakes hmem
        obtain ⟨o, v, ho, hv, -⟩ := hsetg n x hx
        obtain ⟨o', ho', hv'⟩ := hgets o v ho hv
        refine ⟨?_, o', v, ho', hv'⟩
        rw [hmeets.size]
        exact Graph.lt_size_of_shape? (Graph.shape?_eq hy)
      obtain ⟨m₁, hrun⟩ := hexists
      obtain ⟨hstate', hsize', hseth, hkeeph⟩ := runPhis_eq_ok hrem.lists.nodup_phis hrun
      refine ⟨m₁, by rw [arrive, hvia', hbeside.block]; exact hrun, fun n v hlive hnot hv => ?_, ?_,
        ?_⟩
      · by_cases hphi : n ∈ (t.phis b).map Prod.fst
        · obtain ⟨⟨n, y⟩, hmem, rfl⟩ := List.mem_map.mp hphi
          obtain ⟨x, hx, hgets⟩ := htakes hmem
          obtain ⟨o, w, ho, hw, hnow⟩ := hsetg n x hx
          obtain ⟨o', ho', hw'⟩ := hgets o w ho hw
          obtain ⟨o'', w', ho'', hw'', hnow'⟩ := hseth n y hmem
          cases ho'.symm.trans ho''
          cases hw'.symm.trans hw''
          rcases hv with ⟨-, hv⟩ | hc
          · cases hnow.symm.trans hv
            exact hnow'
          · obtain ⟨⟨-, hy⟩, ⟨-, hyop⟩, -⟩ := hrem.lists.mem_phis.mp hmem
            obtain ⟨z, hz, -, hzop⟩ := hc.now
            rw [Graph.shape?_eq hy] at hz
            cases hz
            rcases hzop with hzop | hzop <;> cases hyop.symm.trans hzop
        · rw [hkeeph n hphi]
          refine hvalues n v hlive (hv.imp (fun ⟨hg, hv⟩ => ⟨hg, ?_⟩) id)
          rwa [hkeepg n fun hin => hphi ?_] at hv
          obtain ⟨⟨n, x⟩, hmem, rfl⟩ := List.mem_map.mp hin
          obtain ⟨⟨-, hx⟩, ⟨hxb, hxop⟩, hdata⟩ := hset.lists.mem_phis.mp hmem
          obtain ⟨y, hy, hyop, hymode, hyb, -⟩ := hrem.image.exists_renamed hg hlive hx
          exact List.mem_map.mpr ⟨(n, y), hrem.lists.mem_phis.mpr
            ⟨⟨hlive, hy⟩, ⟨hyb.trans hxb, hyop.trans hxop⟩, hymode ▸ hdata⟩, rfl⟩
      · rw [hsize', hmeets.size]
      · rw [hstate', hmeets.state, hstate]

/-! ### Whole runs -/

/-- What is left of a block is the block, but for some members that are missing or act in any
case. -/
theorem Remains.aligned
    (htouched : ∀ n x, (n, x) ∈ s.body b → touches x.op = true → h.Live n) :
    Aligned s t b (s.body b) (t.body b) := by
  refine ⟨⟨[], (List.append_nil _).symm⟩, fun n y hmem => ?_, fun n x hmem hop => ?_⟩
  · obtain ⟨⟨hh, hy⟩, -, -⟩ := hrem.lists.mem_body.mp hmem
    obtain ⟨y', hy', hused⟩ := Graph.isRetired_eq_false.mp (hrem.image.of_live hh).2
    cases hy.symm.trans hy'
    rcases hrem.image.scope n hh with hg | hsize | ⟨v, z, hz, hop, -⟩
    · obtain ⟨x, hx, -⟩ := hrem.mem_body_of_live hmem hg
      exact .inl ⟨x, hx⟩
    · rcases (hrem.image.fresh n y.shape hsize (Graph.shape?_eq hy)).2 with
        hop | ⟨hop, -⟩ | ⟨hop, -⟩
      · exact absurd hop hused
      · exact .inr (.inl hop)
      · exact .inr (.inr (.inl hop))
    · obtain ⟨w, hw, hwop, -⟩ := hrem.image.exists_same hz (hrem.image.of_live hh).2
      rw [Graph.shape?_eq hy] at hw
      cases hw
      exact .inr (.inl ⟨v, hwop.trans hop⟩)
  · obtain ⟨y, hy, -⟩ := hrem.mem_body hmem (htouched n x hmem hop)
    exact List.mem_map.mpr ⟨_, hy, rfl⟩

/-- What is left of a block passes control on as the block did. -/
theorem Remains.block_passes {p' : Position} (hroute : Route g r.Taken (p :: rest))
    (hsound : Sound g r rest m) (hbeside : Beside K p p') (hmeets : Meets g h t p m m')
    (htouched : ∀ n x, (n, x) ∈ s.body p.block → touches x.op = true → h.Live n)
    (hrun : runBlock g s handler args p m = .ok (.inl (q, m₁))) (hq : h.Live q.block) :
    ∃ q' m₁', runBlock h t handler args p' m' = .ok (.inl (q', m₁')) ∧ Beside K q q' ∧
      Meets g h t q m₁ m₁' := by
  have hset := hrem.setting
  obtain ⟨m₀, e, harrive, hpass, hfollow⟩ := runBlock_eq_inl hrun
  have hsound₀ := hsound.arrive hset hroute harrive
  obtain ⟨htaken, x, hmem, hexit⟩ := hsound₀.leave hset hroute hpass
  obtain ⟨⟨helive, hx⟩, hb, -⟩ := hset.lists.mem_body.mp hmem
  have hinner : p.block ≠ Anchor.endBlock := by
    intro heq
    rw [hset.terminal e x helive hx (heq ▸ hb)] at hexit
    cases hexit
  have hturn : Turn g r s handler args p rest (s.body p.block) m₀ m₁ (some e) :=
    ⟨hroute, hinner, ⟨[], (List.append_nil _).symm⟩, hsound₀, hpass⟩
  have hal := hrem.aligned htouched
  obtain ⟨m₀', harrive', hentered⟩ := hrem.arrives hroute hsound hbeside hmeets harrive
  obtain ⟨hlive, k, i, hvia, hi, hfollow'⟩ := hrem.follow_stands ⟨helive, hx, hb, .inr hexit⟩ hexit
    htaken (hset.reachable hroute) (hturn.leftOnce hset) hfollow hq
  obtain ⟨state, hzero, hstate⟩ := hpass.states
  obtain ⟨m₁', hpass', hk⟩ := hrem.exit_stands hturn hal hstate
    (hrem.keeps_entry hturn hzero hentered.values hentered.size hentered.state) hlive
  refine ⟨_, m₁', runBlock_of_passes harrive' (hbeside.block ▸ hpass') hfollow',
    ⟨rfl, .inr ⟨k, i, hvia, rfl, hi⟩⟩, fun n v hlive _ => ?_, hk.size, ?_⟩
  · exact hk.values n v hlive id
  · rw [hk.state, hrem.touching_end hturn hal, hstate _ [] m₁ _ (List.append_nil _).symm hpass]

/-- A run of the folded function accompanies a run of the function. -/
theorem Remains.accompanies {route : List Position} (hhist : History g s handler args route m)
    (hroute : route = p :: rest) (hblocks : ∀ b ∈ blocks (p :: rest), h.Live b)
    (htouched : ∀ b ∈ blocks rest, ∀ n x, (n, x) ∈ s.body b → touches x.op = true → h.Live n) :
    ∃ p' rest' m', History h t handler args (p' :: rest') m' ∧ rest'.length = rest.length ∧
      Beside K p p' ∧ Meets g h t p m m' := by
  have hset := hrem.setting
  induction hhist generalizing p rest with
  | start =>
    obtain ⟨rfl, rfl⟩ := List.cons_eq_cons.mp hroute
    refine ⟨_, _, _, .start, rfl, ⟨rfl, .inl ⟨rfl, rfl⟩⟩, fun n v hlive hnot hv => ?_, ?_, rfl⟩
    · rcases hv with ⟨-, hv⟩ | hc
      · have hv := value_eq_some.mp hv
        simp [Machine.initial, Array.getElem?_replicate] at hv
      · -- A constant stands in the entry block.
        obtain ⟨y, hy, hb, hop⟩ := hc.now
        obtain ⟨y, hnode, rfl⟩ := Option.map_eq_some_iff.mp hy
        refine absurd (List.mem_map.mpr ⟨(n, y), hrem.lists.mem_body.mpr
          ⟨⟨hlive, hnode⟩, hb, ?_⟩, rfl⟩) (hnot rfl)
        intro hphi
        rcases hop with hop | hop <;> cases hphi.symm.trans hop
    · simp [Machine.initial]
  | @step p₁ q rest₁ m m₁ hhist hrun ih =>
    obtain ⟨rfl, rfl⟩ := List.cons_eq_cons.mp hroute
    have hlive : g.Live p₁.block := by
      obtain ⟨m₀, e, -, hpass, -⟩ := runBlock_eq_inl hrun
      obtain ⟨l₁, x, l₂, -, -, hsplit, -⟩ := hpass.leaves
      exact hset.block_live (hsplit ▸ List.mem_append_right _ List.mem_cons_self)
    obtain ⟨hroute, hsound⟩ := hhist.sound hset rfl hlive
    obtain ⟨p', rest', m', hhist', hlength, hbeside, hmeets⟩ := ih rfl
      (fun b hb => hblocks b (List.mem_cons_of_mem _ hb))
      (fun b hb => htouched b (List.mem_cons_of_mem _ hb))
    obtain ⟨q', m₁', hrun', hbeside', hmeets'⟩ := hrem.block_passes hroute hsound hbeside hmeets
      (htouched _ List.mem_cons_self) hrun (hblocks _ List.mem_cons_self)
    exact ⟨q', p' :: rest', m₁', .step hhist' hrun', by simp [hlength], hbeside', hmeets'⟩

/-- What stands before a return in what is left of its block is what stood there, but for some
members that are missing or act in any case. -/
theorem Remains.aligned_before {ret : NodeId} {x y : Node} {l₁ l₂ l₁' l₂' : Schedule}
    (hroute : Route g r.Taken (p :: rest)) (hsplit : s.body p.block = l₁ ++ (ret, x) :: l₂)
    (hop : x.op = .ret) (hsplit' : t.body p.block = l₁' ++ (ret, y) :: l₂') :
    Aligned s t p.block l₁ l₁' := by
  have hset := hrem.setting
  have hreach := hset.reachable hroute
  refine ⟨⟨_, hsplit'⟩, fun n z hn => hrem.before_return hsplit hop hreach hsplit' hn,
    fun n z hn htouch => ?_⟩
  obtain ⟨⟨-, hz⟩, -, -⟩ := hset.lists.mem_body.mp (hsplit ▸ List.mem_append_left _ hn)
  have hprefix : t.body p.block = (l₁' ++ [(ret, y)]) ++ l₂' := by
    rw [hsplit']
    simp
  have hmem := hrem.acts_before hroute hsplit (by rw [hop]; rfl) hn (touches_kind htouch).1
    (not_quotient hz htouch) hprefix (by simp)
  rw [List.map_append, List.mem_append] at hmem
  refine hmem.resolve_right fun heq => ?_
  have hnodup := hset.lists.nodup_body (b := p.block)
  rw [hsplit, List.map_append, List.map_cons] at hnodup
  exact (List.nodup_append.mp hnodup).2.2 n (List.mem_map_of_mem hn) ret List.mem_cons_self
    (List.mem_singleton.mp heq)

/-- What is left of a block returns as the block did. -/
theorem Remains.block_returns {p' : Position} {vs : List Literal}
    (hroute : Route g r.Taken (p :: rest)) (hsound : Sound g r rest m) (hbeside : Beside K p p')
    (hmeets : Meets g h t p m m')
    (hrun : runBlock g s handler args p m = .ok (.inr (m₁, .returned vs))) :
    ∃ m₁', runBlock h t handler args p' m' = .ok (.inr (m₁', .returned vs)) ∧
      m₁'.state = m₁.state := by
  have hset := hrem.setting
  obtain ⟨m₀, l₁, ret, x, l₂, exit, harrive, hsplit, hpass, hfinish⟩ := runBlock_eq_inr hrun
  have hop : x.op = .ret := choose_fits hfinish
  have hmem : (ret, x) ∈ s.body p.block := hsplit ▸ List.mem_append_right _ List.mem_cons_self
  obtain ⟨⟨hlive, hx⟩, hb, -⟩ := hset.lists.mem_body.mp hmem
  have hinner : p.block ≠ Anchor.endBlock := by
    intro heq
    have hexit := hset.terminal ret x hlive hx (heq ▸ hb)
    rw [hop] at hexit
    cases hexit
  have hret : g.Leaves p.block ret x := ⟨hlive, hx, hb, .inr (by rw [hop]; rfl)⟩
  have hturn : Turn g r s handler args p rest l₁ m₀ m₁ exit :=
    ⟨hroute, hinner, ⟨_, hsplit⟩, hsound.arrive hset hroute harrive, hpass⟩
  obtain ⟨y, hy, -⟩ := hrem.mem_body hmem (hrem.return_left hret hop (hset.reachable hroute)).1
  obtain ⟨l₁', l₂', hsplit'⟩ := List.append_of_mem hy
  have hal := hrem.aligned_before hroute hsplit hop hsplit'
  obtain ⟨m₀', harrive', hentered⟩ := hrem.arrives hroute hsound hbeside hmeets harrive
  obtain ⟨state, hzero, hstate⟩ := hpass.states
  obtain ⟨m₁', exit', hpass', hk⟩ := hrem.keeps hturn hal hstate
    (hrem.keeps_entry hturn hzero hentered.values hentered.size hentered.state)
    (List.append_nil _).symm
  have hchoose : choose args m₁' ret y = .ok (.finish (.returned vs)) := by
    refine hrem.same_choice hroute hinner hsplit hsplit' (hturn.sound_end hset)
      (fun k v hlive hdone hv => ?_) (fun htouch => ?_) hfinish
    · exact hk.values k v hlive hdone (hv.imp (fun hv => ⟨hv.live, hv.value⟩) id)
    · rw [hop] at htouch
      cases htouch
  refine ⟨m₁', runBlock_of_finish harrive' (hbeside.block ▸ hsplit') hpass' hchoose, ?_⟩
  rw [hk.state, hrem.touching_end hturn hal, hstate _ [] m₁ _ (List.append_nil _).symm hpass]

/-- If the function returns, what touched memory on the way there is left. -/
theorem Remains.touched_live {ret : NodeId} {x : Node} (hroute : Route g r.Taken (p :: rest))
    (hmem : (ret, x) ∈ s.body p.block) (hop : x.op = .ret) :
    ∀ b ∈ blocks rest, ∀ n z, (n, z) ∈ s.body b → touches z.op = true → h.Live n := by
  have hset := hrem.setting
  obtain ⟨⟨hlive, hx⟩, hb, -⟩ := hset.lists.mem_body.mp hmem
  obtain ⟨l₁, l₂, hsplit⟩ := List.append_of_mem hmem
  obtain ⟨x', m, hmem', huses, hhead, havail, hcur⟩ :=
    hrem.event hroute (events_of_split hsplit (by rw [hop]; rfl))
  obtain ⟨⟨-, hx'⟩, -, -⟩ := hset.lists.mem_body.mp hmem'
  cases hx.symm.trans hx'
  obtain ⟨-, hbreaker, hstop, -⟩ := usesMemory_kind huses
  obtain ⟨hleft, -⟩ := hrem.return_left ⟨hlive, hx, hb, .inr (by rw [hop]; rfl)⟩ hop
    (hset.reachable hroute)
  have hstands := hrem.operand_live hleft (hrem.mem_operands hlive hleft hx
    (ne_stop_of_op hrem.basis hx hstop) hbreaker (List.mem_of_mem_head? hhead))
  obtain ⟨-, hacted⟩ := hrem.acted_live hroute hcur havail hstands
  intro b hb n z hz htouch
  obtain ⟨⟨-, hnode⟩, -, -⟩ := hset.lists.mem_body.mp hz
  exact hacted b hb n (mem_events.mpr ⟨z, hz, (touches_kind htouch).1⟩) (not_quotient hnode htouch)

/-- Where the function returns, so does the folded function. -/
theorem Remains.execute {fuel : Nat} {e : Execution} {vs : List Literal}
    (hrun : g.execute args handler fuel = .ok e) (hret : e.outcome = .returned vs) :
    h.execute args handler fuel = .ok e := by
  have hset := hrem.setting
  obtain ⟨s', hs', hrun⟩ := bind_eq_ok.mp hrun
  cases hset.scheduled.symm.trans hs'
  obtain ⟨p, rest, m, m₁, hhist, hend, rfl, hfuel⟩ := exists_history .start rfl hrun hret
  obtain ⟨m₀, l₁, ret, x, l₂, exit, -, hsplit, -, hfinish⟩ := runBlock_eq_inr hend
  have hop : x.op = .ret := choose_fits hfinish
  have hmem : (ret, x) ∈ s.body p.block := hsplit ▸ List.mem_append_right _ List.mem_cons_self
  obtain ⟨⟨hlive, hx⟩, hb, -⟩ := hset.lists.mem_body.mp hmem
  obtain ⟨hroute, hsound⟩ := hhist.sound hset rfl (hset.block_live hmem)
  obtain ⟨hleft, -⟩ := hrem.return_left ⟨hlive, hx, hb, .inr (by rw [hop]; rfl)⟩ hop
    (hset.reachable hroute)
  have hblocks : ∀ b ∈ blocks (p :: rest), h.Live b := by
    refine hrem.blocks_live hroute fun p' rest' heq => ?_
    obtain ⟨rfl, rfl⟩ := List.cons_eq_cons.mp heq
    refine hrem.block_live hleft ((hrem.blockOf_eq hlive hleft).trans ?_)
    exact (Graph.blockOf_eq hx).trans hb
  obtain ⟨p', rest', m', hhist', hlength, hbeside, hmeets⟩ :=
    hrem.accompanies hhist rfl hblocks (hrem.touched_live hroute hmem hop)
  obtain ⟨m₁', hend', hstate⟩ := hrem.block_returns hroute hsound hbeside hmeets hend
  rw [List.length_nil, Nat.zero_add] at hfuel
  obtain ⟨left, rfl⟩ : ∃ left, fuel = rest'.length + (left + 1) :=
    ⟨fuel - rest'.length - 1, by omega⟩
  have hwhole := hhist'.runFrom rfl (left + 1)
  rw [Graph.execute, hrem.scheduled]
  refine hwhole.trans ?_
  rw [runFrom, hend']
  simp only [bind, Except.bind, pure, Except.pure, hlength, (Prod.mk.inj hstate).2]

end Remains

end Execution

end SeaOfNodes
