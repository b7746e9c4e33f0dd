import SeaOfNodes.Proofs.Chains

/-!
What acts before a function returns.

The walk begins at the stop node, whose first input is the exit block. So it lists what the exit
block depends on before anything else (`Walk.exit_first`), and what stands before a return in the
schedule is needed to leave the function. In a function in proper form, the members of the block of
a return on which the exit block depends are those that the return depends on
(`Setting.needed_before`): nothing that the return does not need can be moved in front of it
(`Remains.before_return`).
-/

namespace SeaOfNodes

namespace Graph

/-- The stop node stands in the exit block. -/
structure Anchored (g : Graph) : Prop where
  stop : ∃ x, g.nodes[Anchor.stop]? = some x ∧ x.op = .stop ∧ x.block = some Anchor.endBlock
  last : ∃ x, g.nodes[Anchor.endBlock]? = some x ∧ x.op = .block

/-- The exit block depends on `n`, directly or through other nodes. -/
def ExitNeeds (g : Graph) (n : NodeId) : Prop :=
  Relation.ReflTransGen g.Needs Anchor.endBlock n

theorem ExitNeeds.live {g : Graph} {n : NodeId} (hn : g.ExitNeeds n) (hg : g.Anchored) :
    g.Live n := by
  obtain ⟨x, hx, -, hb⟩ := hg.stop
  obtain ⟨y, hy, hop⟩ := hg.last
  induction hn with
  | refl =>
    refine Live.needs ⟨Anchor.stop, by simp, .refl⟩ ⟨?_, isRetired_eq_false.mpr ⟨y, hy, ?_⟩⟩
    · rw [inputs_eq hx, Node.inputs, hb]
      exact List.mem_cons_self
    · simp [hop]
  | tail _ hneeds ih => exact ih.needs hneeds

end Graph

/-! ### The walk -/

namespace Walk

variable {g : Graph}

/-- How far the visit of the exit block has come. -/
inductive Phase (g : Graph) : State → Prop where
  | before {w : Walk} {f : Frame} {rest : List NodeId} : w.order = [] → f.breaker = false →
    f.rest = Anchor.endBlock :: rest → Phase g ⟨w, [f]⟩
  | inside {w : Walk} {inner below : List Frame} {f : Frame} : (∀ n ∈ w.order, g.ExitNeeds n) →
    (∀ e ∈ inner, g.ExitNeeds e.node) → f.node = Anchor.endBlock → f.breaker = true →
    openNodes below = [] → Phase g ⟨w, inner ++ f :: below⟩
  | after {w : Walk} {stack : List Frame} {first rest : List NodeId} : w.order = first ++ rest →
    (∀ n, n ∈ first ↔ g.ExitNeeds n) → Phase g ⟨w, stack⟩

/-- Nodes are listed at the end. -/
theorem Step.order {s t : State} (hst : Step g s t) :
    ∃ more, t.walk.order = s.walk.order ++ more := by
  cases hst with
  | leaveBreaker | leave => exact ⟨_, rfl⟩
  | leaveAgain | dangle | skip | enterBreaker | enter => exact ⟨[], (List.append_nil _).symm⟩

/-- When the visit of the exit block ends, everything it depends on is listed. -/
theorem Sound.exit_listed {w : Walk} {stack : List Frame} (h : Sound g ⟨w, stack⟩)
    (hopen : openNodes stack = []) (hend : Anchor.endBlock ∈ w.order) {n : NodeId}
    (hn : g.ExitNeeds n) : n ∈ w.order := by
  induction hn with
  | refl => exact hend
  | tail _ hneeds ih =>
    have hlive := (h.settled _ ih _ hneeds.1).lives hneeds.2
    refine (h.found _ hlive).resolve_right ?_
    rw [hopen]
    exact List.not_mem_nil

/-- Only the visit of the exit block can begin. -/
theorem Phase.step_before {w : Walk} {f : Frame} {rest : List NodeId} {t : State}
    (hs : Sound g ⟨w, [f]⟩) (hg : g.Anchored) (horder : w.order = []) (hbreaker : f.breaker = false)
    (hrest : f.rest = Anchor.endBlock :: rest) (hst : Step g ⟨w, [f]⟩ t) : Phase g t := by
  obtain ⟨z, hz, hop⟩ := hg.last
  have hopen : openNodes [f] = [] := by rw [openNodes_cons, hbreaker]; rfl
  cases hst with
  | leaveBreaker hdone | leaveAgain hdone | leave hdone => cases hdone.symm.trans hrest
  | dangle hrest' hret =>
    cases hrest.symm.trans hrest'
    simp [Graph.isRetired, hz, Node.isRetired, hop] at hret
  | skip hrest' _ hlive =>
    cases hrest.symm.trans hrest'
    rcases hs.found _ hlive with hmem | hmem
    · rw [horder] at hmem
      cases hmem
    · rw [hopen] at hmem
      cases hmem
  | enterBreaker hrest' hx _ _ _ _ _ =>
    cases hrest.symm.trans hrest'
    refine @Phase.inside g _ [] _ _ (fun n hn => ?_) (List.forall_mem_nil _) rfl rfl ?_
    · rw [horder] at hn
      cases hn
    · rw [openNodes_cons_rest]
      exact hopen
  | enter hrest' hx _ _ _ hb =>
    cases hrest.symm.trans hrest'
    cases hz.symm.trans hx
    rw [hop] at hb
    cases hb

/-- What the exit block depends on is visited next, until its visit ends and all of it is listed. -/
theorem Phase.step_exit {w : Walk} {f : Frame} {below : List Frame} {t : State}
    (hs : Sound g ⟨w, f :: below⟩) (horder : ∀ n ∈ w.order, g.ExitNeeds n)
    (hnode : f.node = Anchor.endBlock) (hbreaker : f.breaker = true)
    (hopen : openNodes below = []) (hst : Step g ⟨w, f :: below⟩ t) : Phase g t := by
  have hneeds {i : NodeId} {rest : List NodeId} {x : Node} (hrest : f.rest = i :: rest)
      (hx : g.nodes[i]? = some x) (hret : x.isRetired = false) : g.ExitNeeds i := by
    refine .single ⟨hnode ▸ hs.nested.1.mem_inputs hrest, ?_⟩
    simp [Graph.isRetired, hx, hret]
  have hsound := hs.step hst
  cases hst with
  | leaveBreaker =>
    refine .after (List.append_nil _).symm fun n => ⟨fun hn => ?_, fun hn => ?_⟩
    · rcases List.mem_append.mp hn with hn | hn
      · exact horder n hn
      · rw [List.mem_singleton.mp hn, hnode]
        exact .refl
    · exact hsound.exit_listed hopen (hnode ▸ List.mem_append_right _ List.mem_cons_self) hn
  | leaveAgain _ hb | leave _ hb => cases hbreaker.symm.trans hb
  | dangle | skip =>
    exact @Phase.inside g _ [] _ _ horder (List.forall_mem_nil _) hnode hbreaker hopen
  | enterBreaker hrest hx hret | enter hrest hx hret =>
    refine @Phase.inside g _ [_] _ _ horder (fun e he => ?_) hnode hbreaker hopen
    rw [List.mem_singleton.mp he]
    exact hneeds hrest hx hret

/-- Whatever is visited on the way is something the exit block depends on. -/
theorem Phase.step_inner {w : Walk} {e f : Frame} {inner below : List Frame} {t : State}
    (hs : Sound g ⟨w, e :: (inner ++ f :: below)⟩) (horder : ∀ n ∈ w.order, g.ExitNeeds n)
    (hinner : ∀ e' ∈ e :: inner, g.ExitNeeds e'.node) (hnode : f.node = Anchor.endBlock)
    (hbreaker : f.breaker = true) (hopen : openNodes below = [])
    (hst : Step g ⟨w, e :: (inner ++ f :: below)⟩ t) : Phase g t := by
  obtain ⟨he, hrest⟩ := List.forall_mem_cons.mp hinner
  have hlist (n : NodeId) (hn : n ∈ w.order ++ [e.node]) : g.ExitNeeds n := by
    rcases List.mem_append.mp hn with hn | hn
    · exact horder n hn
    · rw [List.mem_singleton.mp hn]
      exact he
  have hgoes (rest : List NodeId) : ∀ e' ∈ { e with rest } :: inner, g.ExitNeeds e'.node :=
    List.forall_mem_cons.mpr ⟨he, hrest⟩
  have henters {i : NodeId} {b : Bool} {rest : List NodeId} {x : Node}
      (hinputs : e.rest = i :: rest) (hx : g.nodes[i]? = some x) (hret : x.isRetired = false) :
      ∀ e' ∈ { node := i, breaker := b, rest := x.inputs } :: { e with rest } :: inner,
        g.ExitNeeds e'.node := by
    refine List.forall_mem_cons.mpr ⟨he.tail ⟨hs.nested.1.mem_inputs hinputs, ?_⟩, hgoes rest⟩
    simp [Graph.isRetired, hx, hret]
  cases hst with
  | leaveBreaker | leave => exact .inside hlist hrest hnode hbreaker hopen
  | leaveAgain => exact .inside horder hrest hnode hbreaker hopen
  | dangle | skip =>
    exact @Phase.inside g _ (_ :: inner) _ _ horder (hgoes _) hnode hbreaker hopen
  | enterBreaker hinputs hx hret | enter hinputs hx hret =>
    exact @Phase.inside g _ (_ :: _ :: inner) _ _ horder (henters hinputs hx hret) hnode
      hbreaker hopen

theorem Phase.step {s t : State} (h : Phase g s) (hs : Sound g s) (hg : g.Anchored)
    (hst : Step g s t) : Phase g t := by
  cases h with
  | before horder hbreaker hrest => exact .step_before hs hg horder hbreaker hrest hst
  | @inside w inner below f horder hinner hnode hbreaker hopen =>
    cases inner with
    | nil => exact .step_exit hs horder hnode hbreaker hopen hst
    | cons e inner => exact .step_inner hs horder hinner hnode hbreaker hopen hst
  | after horder hfirst =>
    obtain ⟨more, hmore⟩ := hst.order
    obtain ⟨w', stack'⟩ := t
    exact .after (hmore.trans (by rw [horder, List.append_assoc])) hfirst

/-- When no visit is left, the visit of the exit block has ended. -/
theorem Phase.ended {w : Walk} (h : Phase g ⟨w, []⟩) :
    ∃ first rest, w.order = first ++ rest ∧ ∀ n, n ∈ first ↔ g.ExitNeeds n := by
  generalize hs : (⟨w, []⟩ : State) = s at h
  cases h with
  | before => cases hs
  | inside => simp at hs
  | after horder hfirst =>
    cases hs
    exact ⟨_, _, horder, hfirst⟩

/-- The walk from the stop node lists what the exit block depends on first. -/
theorem phase_of_visitFrom {w : Walk} (hg : g.Anchored)
    (h : visitFrom g (begin g) Anchor.stop = .ok w) : Phase g ⟨w, []⟩ := by
  obtain ⟨x, hx, hop, hblock⟩ := hg.stop
  have hnew : (begin g).live.contains Anchor.stop = false := by simp [Walk.begin]
  unfold visitFrom at h
  rw [if_neg (by rw [hnew]; decide)] at h
  obtain ⟨x', hx', h⟩ := bind_eq_ok.mp h
  cases hx.symm.trans (Graph.node_eq_ok hx')
  obtain ⟨s, henter, h⟩ := bind_eq_ok.mp h
  obtain ⟨hsound, -⟩ := (Sound.begin g).enter hx ⟨_, by simp, .refl⟩ hnew henter
  have hphase : Phase g s := by
    rw [Walk.enter, hop] at henter
    cases henter
    refine .before rfl rfl (show x.inputs = Anchor.endBlock :: x.operands from ?_)
    rw [Node.inputs, hblock]
    rfl
  exact (ends_of_iterate (I := fun s => Sound g s ∧ Phase g s)
    (fun s t hinv hst => ⟨hinv.1.step hst, hinv.2.step hinv.1 hg hst⟩) ⟨hsound, hphase⟩ h).2

theorem order_of_visitFrom {w w' : Walk} {root : NodeId} (h : visitFrom g w root = .ok w') :
    ∃ more, w'.order = w.order ++ more := by
  unfold visitFrom at h
  split at h
  next =>
    cases h
    exact ⟨[], (List.append_nil _).symm⟩
  next =>
    obtain ⟨x, -, h⟩ := bind_eq_ok.mp h
    obtain ⟨s, henter, h⟩ := bind_eq_ok.mp h
    have hbegin : s.walk.order = w.order := by
      unfold Walk.enter at henter
      split at henter
      · split at henter
        · cases henter
        · cases henter
          rfl
      · cases henter
        rfl
    refine ends_of_iterate (I := fun s => ∃ more, s.walk.order = w.order ++ more)
      (fun s t hinv hst => ?_) ⟨[], by rw [hbegin, List.append_nil]⟩ h
    obtain ⟨more, hmore⟩ := hinv
    obtain ⟨more', hmore'⟩ := hst.order
    exact ⟨more ++ more', by rw [hmore', hmore, List.append_assoc]⟩

/-- A walk lists what the exit block depends on first. -/
theorem exit_first {w : Walk} (hg : g.Anchored) (h : run g = .ok w) :
    ∃ first rest, w.order = first ++ rest ∧ ∀ n, n ∈ first ↔ g.ExitNeeds n := by
  obtain ⟨w₁, h₁, h⟩ := bind_eq_ok.mp h
  obtain ⟨w₂, h₂, h⟩ := bind_eq_ok.mp h
  obtain ⟨w₃, h₃, h⟩ := bind_eq_ok.mp h
  cases h
  obtain ⟨more₂, horder₂⟩ := order_of_visitFrom h₂
  obtain ⟨more₃, horder₃⟩ := order_of_visitFrom h₃
  obtain ⟨first, rest, horder, hfirst⟩ := (phase_of_visitFrom hg h₁).ended
  exact ⟨first, rest ++ (more₂ ++ more₃), by simp [horder₃, horder₂, horder], hfirst⟩

end Walk

namespace Execution

open Image

variable {g h : Graph} {r : Solution} {s t : Schedule} {σ : NodeId → NodeId}
  {K : NodeId → List Nat} {p q : Position} {rest : List Position}

/-- What stands before something that the exit block depends on is needed by it, too. -/
theorem exitNeeds_of_before (hg : g.Anchored) (hs : schedule g = .ok s) {l₁ l₂ : Schedule}
    {n : NodeId} {y : Node} (hsplit : s = l₁ ++ (n, y) :: l₂) (hn : g.ExitNeeds n) :
    ∀ e ∈ l₁, g.ExitNeeds e.1 := by
  obtain ⟨walk, hrun, hkeys⟩ := schedule_keys hs
  obtain ⟨first, rest, horder, hfirst⟩ := Walk.exit_first hg hrun
  have hnodup := (Walk.complete_of_run hrun).nodup
  intro e he
  have hn := (hfirst n).mpr hn
  obtain ⟨A, B, rfl⟩ := List.append_of_mem hn
  rw [← hkeys, hsplit, List.map_append, List.map_cons, List.append_assoc, List.cons_append]
    at horder
  rw [← hkeys, hsplit, List.map_append, List.map_cons] at hnodup
  obtain ⟨-, hlater, hapart⟩ := List.nodup_append.mp hnodup
  obtain ⟨hA, -⟩ := (List.append_cons_inj_of_notMem
    (fun hmem => hapart n hmem n List.mem_cons_self rfl) (List.nodup_cons.mp hlater).1).mp horder
  refine (hfirst e.1).mp (List.mem_append_left _ ?_)
  rw [← hA]
  exact List.mem_map_of_mem he

/-! ### Functions in proper form -/

theorem isExit_of_entersBlock {b : NodeId} {op : Op} (h : Graph.entersBlock b op = true) :
    op.isExit = true := by
  cases op with
  | jump | ret => rfl
  | proj k => exact h
  | _ => cases h

theorem breaker_eq_false {op : Op} (hblock : op ≠ .block) (hphi : op ≠ .phi) :
    op.isLoopBreaker = false := by
  cases op with
  | block => exact absurd rfl hblock
  | phi => exact absurd rfl hphi
  | proj k => cases k <;> rfl
  | _ => rfl

section Setting

variable (hset : Setting g r s)

include hset

/-- The predecessors of a block are edges of other live blocks that end there. -/
theorem Setting.pred_edge {b e : NodeId} {x : Node} (hb : g.Live b) (hx : g.nodes[b]? = some x)
    (hop : x.op = .block) (he : e ∈ x.operands) :
    ∃ c y, g.Leaves c e y ∧ y.op.isExit = true ∧ c ≠ Anchor.endBlock ∧
      Graph.entersBlock b y.op = true := by
  have helive := hset.describes.operands_live hb hx e he
  obtain ⟨-, y, hy, henters⟩ := hset.verified.predecessor b x hb hx hop e he
  have hexit := isExit_of_entersBlock henters
  have hne : y.op ≠ .block := fun heq => by rw [heq] at hexit; cases hexit
  obtain ⟨c, -, hc, -⟩ := hset.proper.member e y helive hy hne
  refine ⟨c, y, ⟨helive, hy, hc, .inr hexit⟩, hexit, ?_, henters⟩
  rintro rfl
  rw [hset.terminal e y helive hy hc] at hexit
  cases hexit

/-- Every live block but the exit block has a route to it. -/
theorem Setting.exists_route {b : NodeId} {x : Node} (hb : g.Live b) (hx : g.nodes[b]? = some x)
    (hop : x.op = .block) (hne : b ≠ Anchor.endBlock) :
    ∃ p rest, Route g (fun _ => True) (p :: rest) ∧ p.block = b := by
  obtain ⟨all, hall, hflow⟩ := hset.verified.flow
  have hpath := (hflow b ((hall b).mpr ⟨hb, x, hx, hop⟩)).resolve_left hne
  clear hb hx hne
  induction hpath with
  | refl => exact ⟨_, _, .entry, rfl⟩
  | @tail c d _ hfollows ih =>
    obtain ⟨p, rest, hroute, rfl⟩ := ih
    obtain ⟨hd, e, he, -, -, hblock⟩ := hfollows
    obtain ⟨hdlive, y, hy, hyop⟩ := (hall d).mp hd
    rw [Graph.operands_eq hy] at he
    obtain ⟨k, hk⟩ := List.mem_iff_getElem?.mp he
    exact ⟨_, _, hroute.step hdlive hy hyop hk hblock trivial, rfl⟩

/-- A route passes the exit block at its end only. -/
theorem Setting.end_last (hroute : Route g (fun _ => True) (p :: rest)) :
    Anchor.endBlock ∉ blocks rest := by
  generalize hall : p :: rest = route at hroute
  induction hroute generalizing p rest with
  | entry =>
    obtain ⟨rfl, rfl⟩ := List.cons_eq_cons.mp hall
    exact List.not_mem_nil
  | @step q older b e k x _ hb hx hop hk he _ ih =>
    obtain ⟨rfl, rfl⟩ := List.cons_eq_cons.mp hall
    intro hmem
    rcases List.mem_cons.mp hmem with heq | hmem
    · obtain ⟨c, y, hleaves, -, hne, -⟩ := hset.pred_edge hb hx hop (List.mem_of_getElem? hk)
      rw [Graph.blockOf_eq hleaves.slot, hleaves.block, ← heq] at he
      exact hne (Option.some.inj he)
    · exact ih rfl hmem

/-- How a node that does not stand in the exit block uses a node of the block `b`: as a
predecessor, in a block that `b` dominates, or at the end of such a block. -/
theorem Setting.used_by (hg : g.Anchored) {w n b : NodeId} {x y : Node} (hw : g.Live w)
    (hy : g.nodes[w]? = some y) (haway : y.block ≠ some Anchor.endBlock) (hneeds : g.Needs w n)
    (hx : g.nodes[n]? = some x) (hb : x.block = some b) :
    (y.op = .block ∧ n ∈ y.operands ∧ x.op.isExit = true) ∨
      ∃ p rest, Route g (fun _ => True) (p :: rest) ∧ b ∈ blocks (p :: rest) ∧
        (y.op.isLoopBreaker = false ∧ y.block = some p.block ∨
          ∃ d z e u, y.op = .phi ∧ y.block = some d ∧ g.Live d ∧ g.nodes[d]? = some z ∧
            z.op = .block ∧ e ∈ z.operands ∧ g.Leaves p.block e u ∧ u.op.isExit = true) := by
  have hn := hw.needs hneeds
  have hmem : n ∈ y.operands := by
    have hin := hneeds.1
    rw [Graph.inputs_eq hy, Node.inputs] at hin
    rcases List.mem_append.mp hin with hin | hin
    · exfalso
      -- The block of a node stands nowhere.
      have hblock : y.block = some n := Option.mem_toList.mp hin
      by_cases hop : y.op = .block
      · rw [hset.proper.block w y hw hy hop] at hblock
        cases hblock
      · obtain ⟨c, z, hc, hz, hzop⟩ := hset.proper.member w y hw hy hop
        cases hblock.symm.trans hc
        cases hx.symm.trans hz
        rw [hset.proper.block n x hn hx hzop] at hb
        cases hb
    · exact hin
  have hblockOf : g.blockOf n = some b := (Graph.blockOf_eq hx).trans hb
  by_cases hblock : y.op = .block
  · obtain ⟨-, z, hz, henters⟩ := hset.verified.predecessor w y hw hy hblock n hmem
    cases hx.symm.trans hz
    exact .inl ⟨hblock, hmem, isExit_of_entersBlock henters⟩
  refine .inr ?_
  by_cases hphi : y.op = .phi
  · obtain ⟨d, z, hd, hz, hzop, hlen⟩ := hset.verified.phi w y hw hy hphi
    have hdlive := hset.describes.block_live hw hy hd
    obtain ⟨k, hk⟩ := List.mem_iff_getElem?.mp hmem
    have hlt : k < z.operands.length := hlen ▸ (List.getElem?_eq_some_iff.mp hk).1
    have he : z.operands[k]? = some z.operands[k] := List.getElem?_eq_getElem hlt
    have hemem := List.mem_of_getElem? he
    obtain ⟨c, u, hleaves, hexit, hne, -⟩ := hset.pred_edge hdlive hz hzop hemem
    obtain ⟨c', v, hc', hv, hvop⟩ := hset.proper.member _ u hleaves.live hleaves.slot
      (fun heq => by rw [heq] at hexit; cases hexit)
    cases hleaves.block.symm.trans hc'
    obtain ⟨p, rest, hroute, rfl⟩ := hset.exists_route
      (hset.describes.block_live hleaves.live hleaves.slot hleaves.block) hv hvop hne
    have hblock' := (Graph.blockOf_eq hleaves.slot).trans hleaves.block
    refine ⟨p, rest, hroute, ?_,
      .inr ⟨d, z, _, u, hphi, hd, hdlive, hz, hzop, hemem, hleaves, hexit⟩⟩
    exact hset.proper.phi w y d k n b hw hy hphi hd hk hblockOf _
      (hroute.step hdlive hz hzop he hblock' trivial)
  · obtain ⟨d, z, hd, hz, hzop⟩ := hset.proper.member w y hw hy hblock
    have hne : d ≠ Anchor.endBlock := fun heq => haway (heq ▸ hd)
    obtain ⟨p, rest, hroute, rfl⟩ :=
      hset.exists_route (hset.describes.block_live hw hy hd) hz hzop hne
    have hwstop : w ≠ Anchor.stop := by
      rintro rfl
      obtain ⟨y', hy', -, hblock'⟩ := hg.stop
      cases hy.symm.trans hy'
      exact haway hblock'
    refine ⟨p, rest, hroute, ?_, .inl ⟨breaker_eq_false hblock hphi, hd⟩⟩
    exact hset.proper.operand w y n p.block b hw hy hblock hphi hwstop hmem hd hblockOf p rest
      hroute rfl

/-- The exit block depends on none of its own members. -/
theorem Setting.away_of_exitNeeds (hg : g.Anchored) {n : NodeId} {x : Node} (hn : g.ExitNeeds n)
    (hx : g.nodes[n]? = some x) : x.block ≠ some Anchor.endBlock := by
  induction hn generalizing x with
  | refl =>
    obtain ⟨y, hy, hop⟩ := hg.last
    cases hx.symm.trans hy
    rw [hset.proper.block _ x (Graph.ExitNeeds.live .refl hg) hx hop]
    nofun
  | @tail w n hw hneeds ih =>
    intro hb
    have hwlive := Graph.ExitNeeds.live hw hg
    obtain ⟨y, hy, -⟩ := Graph.isRetired_eq_false.mp (hset.describes.used w hwlive)
    have hin {p : Position} {rest : List Position} (hroute : Route g (fun _ => True) (p :: rest))
        (hmem : Anchor.endBlock ∈ blocks (p :: rest)) : Anchor.endBlock = p.block :=
      (List.mem_cons.mp hmem).resolve_right (hset.end_last hroute)
    rcases hset.used_by hg hwlive hy (ih hy) hneeds hx hb with
      ⟨-, -, hexit⟩ |
      ⟨p, rest, hroute, hmem, ⟨-, hyb⟩ | ⟨d, z, e, u, -, -, -, -, -, -, hleaves, hexit⟩⟩
    · rw [hset.terminal n x (hwlive.needs hneeds) hx hb] at hexit
      cases hexit
    · exact ih hy (hin hroute hmem ▸ hyb)
    · rw [hset.terminal e u hleaves.live hleaves.slot (hin hroute hmem ▸ hleaves.block)] at hexit
      cases hexit

/-- Control goes from the block of a return to the exit block only. -/
theorem Setting.after_return {c ret : NodeId} {z : Node} (hret : g.Leaves c ret z)
    (hop : z.op = .ret) (hleft : g.LeftOnce c) (hroute : Route g (fun _ => True) (p :: rest))
    (hc : c ∈ blocks rest) : p.block = Anchor.endBlock := by
  generalize hall : p :: rest = route at hroute
  induction hroute generalizing p rest with
  | entry =>
    obtain ⟨rfl, rfl⟩ := List.cons_eq_cons.mp hall
    cases hc
  | @step q older b e k x hold hb hx hbop hk he _ ih =>
    obtain ⟨rfl, rfl⟩ := List.cons_eq_cons.mp hall
    rcases List.mem_cons.mp hc with rfl | hc
    · obtain ⟨c, y, hleaves, -, -, henters⟩ :=
        hset.pred_edge hb hx hbop (List.mem_of_getElem? hk)
      rw [Graph.blockOf_eq hleaves.slot, hleaves.block] at he
      obtain rfl := Option.some.inj he
      obtain rfl := hleft.eq_of_plain hret (.inr hop) hleaves
      cases hret.slot.symm.trans hleaves.slot
      rw [hop] at henters
      exact beq_iff_eq.mp henters
    · have hroute := hold.step hb hx hbop hk he trivial
      exact absurd (ih hc rfl ▸ List.mem_cons_self) (hset.end_last hroute)

/-- The members of the block of a return that the exit block depends on act before the return. -/
theorem Setting.needed_before (hg : g.Anchored) {c ret : NodeId} {z : Node} {l₁ l₂ : Schedule}
    (hsplit : s.body c = l₁ ++ (ret, z) :: l₂) (hop : z.op = .ret) {n : NodeId} {x : Node}
    (hn : g.ExitNeeds n) (hx : g.nodes[n]? = some x) (hb : x.block = some c) (hphi : x.op ≠ .phi) :
    n = ret ∨ (n, x) ∈ l₁ := by
  have hlists := hset.lists
  obtain ⟨⟨hretlive, hz⟩, hzb, -⟩ := hlists.mem_body.mp
    (hsplit ▸ List.mem_append_right _ List.mem_cons_self)
  have hret : g.Leaves c ret z := ⟨hretlive, hz, hzb, .inr (by rw [hop]; rfl)⟩
  have hclive := hset.describes.block_live hretlive hz hzb
  have hleft : g.LeftOnce c := by
    obtain ⟨c', v, hc', hv, hvop⟩ := hset.proper.member ret z hretlive hz (by simp [hop])
    cases hzb.symm.trans hc'
    refine hset.proper.exit c v hclive hv hvop ?_
    rintro rfl
    have hexit := hset.terminal ret z hretlive hz hzb
    rw [hop] at hexit
    cases hexit
  -- Where a route has passed the block, it is there or at the exit.
  have hhere {p : Position} {rest : List Position} (hroute : Route g (fun _ => True) (p :: rest))
      (hmem : c ∈ blocks (p :: rest)) : c = p.block ∨ p.block = Anchor.endBlock := by
    rcases List.mem_cons.mp hmem with heq | hmem
    · exact .inl heq
    · exact .inr (hset.after_return hret hop hleft hroute hmem)
  induction hn generalizing x with
  | refl =>
    obtain ⟨y, hy, hyop⟩ := hg.last
    cases hx.symm.trans hy
    rw [hset.proper.block _ x (Graph.ExitNeeds.live .refl hg) hx hyop] at hb
    cases hb
  | @tail w n hw hneeds ih =>
    have hwlive := Graph.ExitNeeds.live hw hg
    obtain ⟨y, hy, -⟩ := Graph.isRetired_eq_false.mp (hset.describes.used w hwlive)
    have haway := hset.away_of_exitNeeds hg hw hy
    have hnlive := hwlive.needs hneeds
    rcases hset.used_by hg hwlive hy haway hneeds hx hb with
      ⟨-, -, hexit⟩ | ⟨p, rest, hroute, hmem, ⟨hbreaker, hyb⟩ | ⟨d, v, e, u, hyphi, hyb, hdlive, hv,
        hvop, he, hleaves, hexit⟩⟩
    · exact .inl (hleft.eq_of_plain hret (.inr hop) ⟨hnlive, hx, hb, .inr hexit⟩)
    · rcases hhere hroute hmem with rfl | heq
      · have hxblock : x.op ≠ .block := by
          intro hxop
          rw [hset.proper.block n x hnlive hx hxop] at hb
          cases hb
        have hnbreaker := breaker_eq_false hxblock hphi
        rcases ih hy hyb (ne_of_not_breaker hbreaker).2 with rfl | hmem
        · exact .inr (hlists.before_body hsplit hneeds hx hb hnbreaker)
        · exact .inr (hlists.closed_body hsplit hmem hneeds hx hb hnbreaker)
      · exact absurd (heq ▸ hyb) haway
    · exfalso
      rcases hhere hroute hmem with rfl | heq
      · obtain rfl := hleft.eq_of_plain hret (.inr hop) hleaves
        obtain ⟨-, z', hz', henters⟩ := hset.verified.predecessor d v hdlive hv hvop e he
        cases hz.symm.trans hz'
        rw [hop] at henters
        exact haway (beq_iff_eq.mp henters ▸ hyb)
      · rw [hset.terminal e u hleaves.live hleaves.slot (heq ▸ hleaves.block)] at hexit
        cases hexit

theorem Setting.exitNeeds_of_mem (hg : g.Anchored) {n m : NodeId} (hn : g.ExitNeeds n)
    (hm : m ∈ g.inputs n) : g.ExitNeeds m :=
  hn.tail ⟨hm, hset.verified.inUse n m (hn.live hg) hm⟩

end Setting

/-! ### What is left -/

/-- What folding leaves of the nodes that the exit block depends on. -/
inductive Kept (g h : Graph) : NodeId → Prop where
  | old {n : NodeId} : g.ExitNeeds n → Kept g h n
  | constant {n : NodeId} {v : Literal} : Carries g h n v → Kept g h n
  | jump {n b : NodeId} : Jump g h n b → g.ExitNeeds b → Kept g h n
  | bad : Kept g h Anchor.bad
  | start : Kept g h Anchor.startBlock

section Remains

variable (hrem : Remains g r s σ K h t)

include hrem

theorem Remains.anchored_before : g.Anchored := by
  obtain ⟨x, hx, hop, hb⟩ := hrem.basis.anchor (n := Anchor.stop) rfl (by decide)
  obtain ⟨y, hy, hyop, -⟩ := hrem.basis.anchor (n := Anchor.endBlock) rfl (by decide)
  obtain ⟨x, hstop, rfl⟩ := Option.map_eq_some_iff.mp hx
  obtain ⟨y, hlast, rfl⟩ := Option.map_eq_some_iff.mp hy
  exact ⟨⟨x, hstop, hop, hb⟩, y, hlast, hyop⟩

theorem Remains.anchored : h.Anchored := by
  have hi := hrem.image
  obtain ⟨⟨x, hx, hop, hb⟩, y, hy, hyop⟩ := hrem.anchored_before
  obtain ⟨x', hx', hop', -, hb'⟩ := hi.exists_same (Graph.shape?_eq hx) (hi.anchor _ (by decide)).2
  obtain ⟨y', hy', hyop', -⟩ := hi.exists_same (Graph.shape?_eq hy) (hi.anchor _ (by decide)).2
  obtain ⟨x', hstop, rfl⟩ := Option.map_eq_some_iff.mp hx'
  obtain ⟨y', hlast, rfl⟩ := Option.map_eq_some_iff.mp hy'
  exact ⟨⟨x', hstop, hop'.trans hop, hb'.trans hb⟩, y', hlast, hyop'.trans hyop⟩

theorem Remains.kept_gives {n m : NodeId} (hn : Kept g h n) (hgives : Image.Gives g r h n m) :
    Kept g h m := by
  have hend := hrem.anchored_before
  have hinput {i j : NodeId} (hi : g.ExitNeeds i) (hj : j ∈ g.operands i) : g.ExitNeeds j := by
    obtain ⟨x, hx, hj⟩ := Graph.mem_operands_of_shape hj
    exact hrem.setting.exitNeeds_of_mem hend hi (Graph.mem_inputs.mpr ⟨x, hx, .inr hj⟩)
  cases hn with
  | old hn =>
    cases hgives with
    | fold _ _ _ _ _ hc | quotient _ _ _ _ _ hc => exact .constant hc
    | splice _ hx _ _ hd hm =>
      have hd := hd hrem.apart
      rw [← Graph.operands_eq_of_shape hx] at hd
      exact .old (hinput (hinput hn hd) (List.mem_of_mem_head? hm))
    | jump _ hx _ _ _ _ hb hj =>
      exact .jump hj (hrem.setting.exitNeeds_of_mem hend hn (Graph.mem_inputs.mpr ⟨_, hx, .inl hb⟩))
    | merge _ hx _ _ _ ho =>
      refine .old (hinput hn ?_)
      rw [Graph.operands_eq_of_shape hx]
      exact List.mem_of_getElem? ho
    | dead | bury | buryJump | block => exact .bad
  | constant hc => exact absurd hgives (hc.not_gives hrem.basis)
  | jump hj _ =>
    have hold {x : Shape} (hx : g.shape? n = some x) : Kept g h m :=
      absurd (Graph.lt_size_of_shape? hx) (Nat.not_lt_of_le hj.1)
    cases hgives with
    | fold _ hx | quotient _ hx | splice _ hx | jump _ hx | merge _ hx => exact hold hx
    | dead | bury | buryJump | block => exact .bad
  | bad => exact absurd hgives (Image.Gives.not_bad hrem.basis)
  | start =>
    obtain ⟨y, hy, hop, -⟩ := hrem.basis.anchor (n := Anchor.startBlock) rfl (by decide)
    have hother {x : Shape} (hx : g.shape? Anchor.startBlock = some x) : x.op = .block := by
      cases hx.symm.trans hy
      exact hop
    cases hgives with
    | fold _ hx hxop =>
      rw [hother hx] at hxop
      cases hxop
    | quotient _ hx hxop | splice _ hx hxop | jump _ hx hxop | merge _ hx hxop =>
      cases (hother hx).symm.trans hxop
    | dead | bury | buryJump | block => exact .bad

theorem Remains.kept_stands {n : NodeId} (hn : g.ExitNeeds n) : Kept g h (σ n) :=
  path_induction (P := Kept g h) (fun _ _ hi hgives => hrem.kept_gives hi hgives)
    (hrem.image.path n (hn.live hrem.anchored_before)) (.old hn)

/-- What is left of these nodes depends on nothing else. -/
theorem Remains.kept_needs {n m : NodeId} (hn : Kept g h n) (hlive : h.Live n)
    (hneeds : h.Needs n m) : Kept g h m := by
  have hi := hrem.image
  have hend := hrem.anchored_before
  have hused := (hi.of_live hlive).2
  obtain ⟨y, hy, hm⟩ := Graph.mem_inputs.mp hneeds.1
  have hleaf (hnone : h.operands n = []) (hm : m ∈ y.operands) : Kept g h m := by
    rw [← Graph.operands_eq_of_shape hy, hnone] at hm
    cases hm
  cases hn with
  | old hn =>
    have hg := hn.live hend
    rcases hm with hm | hm
    · have hb : g.blockOf n = some m := by
        rw [← hrem.blockOf_eq hg hlive, Graph.blockOf_of_shape hy, hm]
      obtain ⟨x, hx, hxb⟩ := Option.bind_eq_some_iff.mp hb
      exact .old (hrem.setting.exitNeeds_of_mem hend hn
        (Graph.mem_inputs.mpr ⟨_, Graph.shape?_eq hx, .inl hxb⟩))
    · rw [← Graph.operands_eq_of_shape hy] at hm
      have hold {o : NodeId} (ho : o ∈ g.operands n) : Kept g h (σ o) := by
        obtain ⟨x, hx, ho⟩ := Graph.mem_operands_of_shape ho
        exact hrem.kept_stands (hrem.setting.exitNeeds_of_mem hend hn
          (Graph.mem_inputs.mpr ⟨x, hx, .inr ho⟩))
      by_cases hstop : n = Anchor.stop
      · subst hstop
        obtain ⟨o, ho, rfl⟩ := hi.stop m hm
        exact hold ho
      · rw [hi.operands n hstop hlive hg hused] at hm
        obtain ⟨o, ho, rfl⟩ := List.mem_map.mp hm
        obtain ⟨k, -, ho⟩ := mem_pick.mp ho
        exact hold (List.mem_of_getElem? ho)
  | constant hc =>
    rcases hm with hm | hm
    · obtain ⟨z, hz, hzb, -⟩ := hc.now
      cases hy.symm.trans hz
      cases hm.symm.trans hzb
      exact .start
    · refine hleaf ?_ hm
      rcases hc.origin with hsize | ⟨x, hx, hop, -⟩
      · rw [Graph.operands_eq_of_shape hy, (hi.fresh n y hsize hy).1]
      · exact hi.leaf n x hx (.inl ⟨_, hop⟩)
  | jump hj hb =>
    obtain ⟨hsize, z, hz, hzb, -⟩ := hj
    cases hy.symm.trans hz
    rcases hm with hm | hm
    · cases hm.symm.trans hzb
      exact .old hb
    · exact hleaf (by rw [Graph.operands_eq_of_shape hy, (hi.fresh n y hsize hy).1]) hm
  | bad =>
    obtain ⟨x, hx, hop, hxb⟩ := hrem.basis.anchor (n := Anchor.bad) rfl (by decide)
    rcases hm with hm | hm
    · have hb : h.blockOf Anchor.bad = x.block := by
        rw [hrem.blockOf_eq (hrem.basis.anchor_live _ (by decide)) hlive,
          Graph.blockOf_of_shape hx]
      rw [Graph.blockOf_of_shape hy, hm, hxb] at hb
      cases hb
      exact .start
    · exact hleaf (hi.leaf _ x hx (.inr hop)) hm
  | start =>
    have hg := hrem.basis.anchor_live Anchor.startBlock (by decide)
    obtain ⟨x, hx, hop, -⟩ := hrem.basis.anchor (n := Anchor.startBlock) rfl (by decide)
    obtain ⟨x, hnode, rfl⟩ := Option.map_eq_some_iff.mp hx
    rcases hm with hm | hm
    · have hb := hrem.blockOf_eq hg hlive
      rw [Graph.blockOf_of_shape hy, hm, Graph.blockOf_eq hnode,
        hrem.setting.proper.block _ x hg hnode hop] at hb
      cases hb
    · refine hleaf ?_ hm
      rw [hi.operands _ (by decide) hlive hg hused, hrem.setting.proper.entry]
      simp [pick]

/-- What the exit block depends on has come from what it depended on. -/
theorem Remains.kept_of_exitNeeds {n : NodeId} (hn : h.ExitNeeds n) : Kept g h n := by
  induction hn with
  | refl => exact .old .refl
  | tail hn hneeds ih => exact hrem.kept_needs ih (Graph.ExitNeeds.live hn hrem.anchored) hneeds

/-- A return in a block that control comes to is left. -/
theorem Remains.return_left {c ret : NodeId} {x : Node} (hret : g.Leaves c ret x)
    (hop : x.op = .ret) (hreach : r.assignment.reachable c = true) :
    h.Live ret ∧ h.ExitNeeds ret := by
  have hset := hrem.setting
  have htaken : r.Taken ret := hset.describes.solves.leave ret x hret.live hret.slot (.inr hop)
    (Assignment.enters_eq_true.mpr ⟨c, hret.block, hreach⟩)
  obtain ⟨b, y, hb, hy, hyop, hcount, -⟩ :=
    hset.proper.edge ret x hret.live hret.slot (by rw [hop]; rfl)
  have hmem : ret ∈ y.operands := List.count_pos_iff.mp (by omega)
  obtain ⟨-, x', hx', henters⟩ := hset.verified.predecessor b y hb hy hyop ret hmem
  cases hret.slot.symm.trans hx'
  rw [hop] at henters
  obtain rfl : b = Anchor.endBlock := beq_iff_eq.mp henters
  obtain ⟨k, hk⟩ := List.mem_iff_getElem?.mp hmem
  have hend := hrem.image.anchor_live hrem.basis Anchor.endBlock (by decide)
  obtain ⟨i, -, hi⟩ := hrem.edge hend hy hyop hk htaken
  rw [hrem.event_stays hret.live hret.slot (by rw [hop]; rfl) hret.block hreach] at hi
  obtain ⟨z, hz, hin⟩ := Graph.mem_operands_of_shape (List.mem_of_getElem? hi)
  have hneeds := hrem.needs hend (Graph.mem_inputs.mpr ⟨z, hz, .inr hin⟩)
  exact ⟨hend.needs hneeds, .single hneeds⟩

/-- The kinds of nodes that act in any case. -/
def Idle (op : Op) : Prop := (∃ v, op = .const v) ∨ op = .jump ∨ op = .bad

/-- A member of a block that the exit block depends on was one before, or acts in any case. -/
theorem Remains.kept_member {n c : NodeId} {z : Node} (hn : Kept g h n)
    (hmem : (n, z) ∈ t.body c) : g.ExitNeeds n ∨ Idle z.op := by
  have hi := hrem.image
  obtain ⟨⟨hlive, hz⟩, hb, -⟩ := (schedule_lists hrem.scheduled).mem_body.mp hmem
  obtain ⟨z', hz', hused⟩ := Graph.isRetired_eq_false.mp (hi.of_live hlive).2
  cases hz.symm.trans hz'
  cases hn with
  | old hneeds => exact .inl hneeds
  | constant hc =>
    obtain ⟨w, hw, -, hwop⟩ := hc.now
    rw [Graph.shape?_eq hz] at hw
    cases hw
    exact .inr (.inl ⟨_, hwop.resolve_right hused⟩)
  | jump hj _ =>
    obtain ⟨-, w, hw, -, hwop⟩ := hj
    rw [Graph.shape?_eq hz] at hw
    cases hw
    exact .inr (.inr (.inl (hwop.resolve_right hused)))
  | bad =>
    obtain ⟨w, hw, hwop, -⟩ := hrem.basis.anchor (n := Anchor.bad) rfl (by decide)
    obtain ⟨w', hw', hwop', -⟩ := hi.exists_same hw (hi.of_live hlive).2
    rw [Graph.shape?_eq hz] at hw'
    cases hw'
    exact .inr (.inr (.inr (hwop'.trans hwop)))
  | start =>
    obtain ⟨w, hw, hwop, -⟩ := hrem.basis.anchor (n := Anchor.startBlock) rfl (by decide)
    obtain ⟨w, hnode, rfl⟩ := Option.map_eq_some_iff.mp hw
    have hg := hrem.basis.anchor_live Anchor.startBlock (by decide)
    have hnone := hrem.blockOf_eq hg hlive
    rw [Graph.blockOf_eq hz, hb, Graph.blockOf_eq hnode,
      hrem.setting.proper.block _ w hg hnode hwop] at hnone
    cases hnone

/-- What is left of a block acts before the return only if it did so before, or acts in any case. -/
theorem Remains.before_return {c ret : NodeId} {x y : Node} {l₁ l₂ l₁' l₂' : Schedule}
    (hsplit : s.body c = l₁ ++ (ret, x) :: l₂) (hop : x.op = .ret)
    (hreach : r.assignment.reachable c = true) (hsplit' : t.body c = l₁' ++ (ret, y) :: l₂')
    {n : NodeId} {z : Node} (hn : (n, z) ∈ l₁') : (∃ w, (n, w) ∈ l₁) ∨ Idle z.op := by
  have hset := hrem.setting
  have hlists := schedule_lists hrem.scheduled
  obtain ⟨⟨hlive, hx⟩, hb, -⟩ := hset.lists.mem_body.mp
    (hsplit ▸ List.mem_append_right _ List.mem_cons_self)
  have hret : g.Leaves c ret x := ⟨hlive, hx, hb, .inr (by rw [hop]; rfl)⟩
  have hmem : (n, z) ∈ t.body c := hsplit' ▸ List.mem_append_left _ hn
  obtain ⟨t₁, t₂, hsplit'', rfl⟩ := Schedule.split_body hsplit'
  have hneeds := exitNeeds_of_before hrem.anchored hrem.scheduled hsplit''
    (hrem.return_left hret hop hreach).2 (n, z) (List.mem_filter.mp hn).1
  rcases hrem.kept_member (hrem.kept_of_exitNeeds hneeds) hmem with hneeds | hidle
  · have hg := hneeds.live hrem.anchored_before
    obtain ⟨⟨hnlive, hz⟩, hzb, hzphi⟩ := hlists.mem_body.mp hmem
    obtain ⟨w, hw, -⟩ := Graph.isRetired_eq_false.mp (hset.describes.used n hg)
    obtain ⟨z', hz', hzop, -, hzblock, -⟩ := hrem.image.exists_renamed hg hnlive hw
    cases hz.symm.trans hz'
    rcases hset.needed_before hrem.anchored_before hsplit hop hneeds hw (hzblock ▸ hzb)
      (hzop ▸ hzphi) with rfl | hmem
    · have hnodup := hlists.nodup_body (b := c)
      rw [hsplit', List.map_append, List.map_cons] at hnodup
      exact absurd rfl
        ((List.nodup_append.mp hnodup).2.2 n (List.mem_map_of_mem hn) n List.mem_cons_self)
    · exact .inl ⟨w, hmem⟩
  · exact .inr hidle

end Remains

end Execution

end SeaOfNodes
