import SeaOfNodes.Proofs.Routes
import SeaOfNodes.Proofs.Support
import SeaOfNodes.Proofs.Visits

/-!
What is true along a run of a function in proper form.

A `History` is the list of the blocks that a run has entered, with the machine it enters the last
of them with. At every point of it, values are those that the analysis allows for, and they belong
to nodes of blocks that were passed (`Sound.explained`). A phi that control comes to along one edge
only has the value of the operand that arrives there as long as its block dominates the point
(`Sound.steady`): that operand stands in a block which is not passed again without passing the
block of the phi.
-/

namespace SeaOfNodes

/-- The analysis found that control passes the edge. -/
abbrev Solution.Taken (r : Solution) (e : NodeId) : Prop := r.assignment.taken e = true

namespace Execution

/-- A function in proper form, what an analysis found in it, and the order in which its nodes
act. -/
structure Setting (g : Graph) (r : Solution) (s : Schedule) : Prop where
  mirrored : g.Mirrored
  verified : g.Verified
  describes : r.Describes g
  agree : ResultsAgree g r.assignment
  proper : g.Proper
  terminal : g.Terminal
  scheduled : schedule g = .ok s

/-- Only `o` arrives at the phi `n` of the block `b`: control enters `b` at one position. -/
def Sole (g : Graph) (r : Solution) (n b o : NodeId) : Prop :=
  ∃ (x : Node) (k : Nat), g.Live n ∧ g.nodes[n]? = some x ∧ x.op = .phi ∧ x.block = some b ∧
    (∀ j p, (g.operands b)[j]? = some p → r.Taken p → j = k) ∧ x.operands[k]? = some o

/-- What is known of a node that has the value `v` when the blocks of a route were passed. -/
structure Explained (g : Graph) (r : Solution) (route : List Position) (n : NodeId)
    (v : Literal) : Prop where
  live : g.Live n
  kind : ∃ x, g.nodes[n]? = some x ∧
    (givesValue x.op = true ∨ x.op = .phi ∧ x.mode.isData = true)
  placed : ∃ b ∈ blocks route, g.blockOf n = some b
  covers : (r.assignment.value n).Covers v

/-- What holds of the machine in the last block of a route, once its phis are set. -/
structure Sound (g : Graph) (r : Solution) (route : List Position) (m : Machine) : Prop where
  explained : ∀ n v, m.value n = some v → Explained g r route n v
  steady : ∀ n b o p rest, route = p :: rest → Sole g r n b o → Dominates g r.Taken b p.block →
    ∀ v, m.value n = some v → m.value o = some v

section Setting

variable {g : Graph} {r : Solution} {s : Schedule} {handler : Handler} {args : List Literal}
  {m m' : Machine} {p : Position} {rest : List Position}

theorem Sound.covered {route : List Position} (h : Sound g r route m) :
    m.Covered r.assignment :=
  fun n v hv => (h.explained n v (value_eq_some.mpr hv)).covers

variable (hset : Setting g r s)

include hset

theorem Setting.lists : s.Lists g := schedule_lists hset.scheduled

/-! ### Routes along taken edges -/

theorem Setting.reachable (hroute : Route g r.Taken (p :: rest)) :
    r.assignment.reachable p.block = true := by
  cases hroute with
  | entry => exact hset.describes.solves.entry
  | step _ hb hx hop hk _ htaken =>
    exact hset.describes.solves.enter _ _ hb hx hop _ (List.mem_of_getElem? hk) htaken

/-- What arrives alone at a phi is passed before every entry into the block of the phi. -/
theorem Setting.sole_entry {n b o c : NodeId} (hsole : Sole g r n b o)
    (hc : g.blockOf o = some c) (q : Position) (older : List Position)
    (hroute : Route g r.Taken (q :: older)) (hq : q.block = b) : c ∈ blocks older := by
  obtain ⟨x, k, hn, hx, hop, hb, hsole, ho⟩ := hsole
  cases hroute with
  | entry =>
    -- The entry has no predecessors, so its phis have no operands.
    obtain ⟨b', y, hb', hy, -, hlen⟩ := hset.verified.phi n x hn hx hop
    obtain rfl : Anchor.startBlock = b' := by simpa [hb, ← hq] using hb'
    rw [← Graph.operands_eq hy, hset.proper.entry] at hlen
    rw [List.length_eq_zero_iff.mp hlen] at ho
    cases ho
  | @step p rest _ e j y hold hlive hy hyop hj he htaken =>
    subst hq
    obtain rfl := hsole j e (by rwa [Graph.operands_eq hy]) htaken
    exact hset.proper.phi n x _ j o c hn hx hop hb ho hc _
      (.step (hold.mono fun _ _ => trivial) hlive hy hyop hj he trivial)

/-- What arrives alone at a phi does not stand in a block that the block of the phi dominates. -/
theorem Setting.sole_away (hroute : Route g r.Taken (p :: rest)) {n b o : NodeId}
    (hsole : Sole g r n b o) (hdom : Dominates g r.Taken b p.block) :
    g.blockOf o ≠ some p.block := by
  intro hc
  obtain ⟨after, q, older, hsplit, hq, hafter⟩ := exists_last (hdom p rest hroute rfl)
  have hhead : (after ++ q :: older).head?.map Position.block = some p.block := by
    rw [← hsplit]
    rfl
  rw [hsplit] at hroute
  obtain ⟨hne, hnot⟩ := hroute.not_repeated hq hafter (hset.sole_entry hsole hc) hhead hdom
  cases after with
  | nil =>
    obtain ⟨rfl, -⟩ := List.cons_eq_cons.mp hsplit
    exact hne hq
  | cons u after =>
    obtain ⟨rfl, -⟩ := List.cons_eq_cons.mp hsplit
    exact hnot List.mem_cons_self

/-! ### One block -/

omit hset in
theorem Explained.later {n : NodeId} {v : Literal} (h : Explained g r rest n v) :
    Explained g r (p :: rest) n v :=
  ⟨h.live, h.kind, h.placed.imp fun _ hb => ⟨List.mem_cons_of_mem _ hb.1, hb.2⟩, h.covers⟩

/-- Entering a block along a taken edge. -/
theorem Sound.arrive (h : Sound g r rest m) (hroute : Route g r.Taken (p :: rest))
    (harrive : arrive s p m = .ok m') : Sound g r (p :: rest) m' := by
  have hreach := hset.reachable hroute
  cases hroute with
  | entry =>
    -- Nothing has a value yet.
    cases harrive
    have hnone (n : NodeId) (v : Literal) (hv : m.value n = some v) : False := by
      obtain ⟨b, hb, -⟩ := (h.explained n v hv).placed
      cases hb
    exact ⟨fun n v hv => (hnone n v hv).elim, fun n _ _ _ _ _ _ _ v hv => (hnone n v hv).elim⟩
  | @step q older b e k y hold hlive hy hyop hk he htaken =>
    have hroute := Route.step hold hlive hy hyop hk he htaken
    obtain ⟨-, -, hset', hkeep⟩ := runPhis_eq_ok hset.lists.nodup_phis harrive
    constructor
    · intro n v hv
      by_cases hn : n ∈ (s.phis b).map Prod.fst
      · obtain ⟨⟨n, x⟩, hmem, rfl⟩ := List.mem_map.mp hn
        obtain ⟨⟨hlive, hx⟩, ⟨hb, hop⟩, hdata⟩ := hset.lists.mem_phis.mp hmem
        obtain ⟨o, w, ho, hw, hnow⟩ := hset' n x hmem
        cases hv.symm.trans hnow
        refine ⟨hlive, ⟨x, hx, .inr ⟨hop, hdata⟩⟩, ⟨b, List.mem_cons_self, ?_⟩, ?_⟩
        · rw [Graph.blockOf_eq hx, hb]
        · refine phi_covers hset.describes.solves hlive hx hop hb hreach
            (by rwa [Graph.operands_eq hy]) htaken ?_
          rw [Assignment.operand, ho]
          exact (h.explained o v hw).covers
      · rw [hkeep n hn] at hv
        exact (h.explained n v hv).later
    · intro n b' o p' rest' heq hsole hdom v hv
      obtain ⟨rfl, rfl⟩ := List.cons_eq_cons.mp heq
      -- What arrives at the phi is not set here.
      have haway := hset.sole_away hroute hsole hdom
      have hother : m'.value o = m.value o := by
        refine hkeep o fun ho => haway ?_
        obtain ⟨⟨o, z⟩, hmem, rfl⟩ := List.mem_map.mp ho
        obtain ⟨⟨-, hz⟩, ⟨hzb, -⟩, -⟩ := hset.lists.mem_phis.mp hmem
        rw [Graph.blockOf_eq hz, hzb]
      have hsole' := hsole
      obtain ⟨x, k', hn, hx, hop, hb', hpos, ho⟩ := hsole'
      by_cases hbb : b' = b
      · subst hbb
        by_cases hmem : n ∈ (s.phis b').map Prod.fst
        · obtain ⟨⟨n, x'⟩, hphi, rfl⟩ := List.mem_map.mp hmem
          obtain ⟨⟨-, hx'⟩, -⟩ := hset.lists.mem_phis.mp hphi
          cases hx.symm.trans hx'
          obtain ⟨o', w, ho', hw, hnow⟩ := hset' n x hphi
          obtain rfl := hpos k e (by rwa [Graph.operands_eq hy]) htaken
          cases ho.symm.trans ho'
          cases hv.symm.trans hnow
          rw [hother, hw]
        · -- A phi that carries no data has no value.
          rw [hkeep n hmem] at hv
          obtain ⟨x', hx', hkind⟩ := (h.explained n v hv).kind
          cases hx.symm.trans hx'
          rcases hkind with hkind | ⟨-, hdata⟩
          · simp [hop, givesValue] at hkind
          · exact absurd (List.mem_map_of_mem
              (hset.lists.mem_phis.mpr ⟨⟨hn, hx⟩, ⟨hb', hop⟩, hdata⟩)) hmem
      · have hn' : n ∉ (s.phis b).map Prod.fst := by
          intro hmem
          obtain ⟨⟨n, x'⟩, hphi, rfl⟩ := List.mem_map.mp hmem
          obtain ⟨⟨-, hx'⟩, ⟨hb, -⟩, -⟩ := hset.lists.mem_phis.mp hphi
          cases hx.symm.trans hx'
          exact hbb (Option.some.inj (hb'.symm.trans hb))
        rw [hother]
        exact h.steady n b' o q older rfl hsole (hdom.before hbb hlive hy hyop hk he htaken) v
          (hkeep n hn' ▸ hv)

/-- One member acts. -/
theorem Sound.act (h : Sound g r (p :: rest) m) (hroute : Route g r.Taken (p :: rest))
    {n : NodeId} {x : Node} {action : Action} (hmem : (n, x) ∈ s.body p.block)
    (hchoose : choose args m n x = .ok action) (hperform : action.perform handler n m = .ok m') :
    Sound g r (p :: rest) m' := by
  obtain ⟨⟨hn, hx⟩, hb, hphi⟩ := hset.lists.mem_body.mp hmem
  have hin : r.assignment.enters x = true :=
    Assignment.enters_eq_true.mpr ⟨p.block, hb, hset.reachable hroute⟩
  have hforeseen := choose_foreseen hset.describes.solves hset.agree hset.describes.inUse hn hx hin
    h.covered hchoose
  have hfits := choose_fits hchoose
  have hblock : g.blockOf n = some p.block := by rw [Graph.blockOf_eq hx, hb]
  constructor
  · intro i v hv
    rw [value_perform hperform] at hv
    split at hv
    next heq =>
      subst heq
      have hplaced : ∃ b ∈ blocks (p :: rest), g.blockOf i = some b :=
        ⟨p.block, List.mem_cons_self, hblock⟩
      cases action with
      | value w =>
        cases hv
        exact ⟨hn, ⟨x, hx, .inl hfits.1⟩, hplaced, hforeseen⟩
      | invoke callee vs =>
        have hop : x.op = .call callee := hfits
        exact ⟨hn, ⟨x, hx, .inl (by rw [hop]; rfl)⟩, hplaced, .inl hforeseen⟩
      | _ => exact h.explained i v hv
    next => exact h.explained i v hv
  · intro i b o p' rest' heq hsole hdom v hv
    obtain ⟨rfl, rfl⟩ := List.cons_eq_cons.mp heq
    have hi : i ≠ n := by
      rintro rfl
      obtain ⟨x', -, -, hx', hop, -⟩ := hsole
      cases hx.symm.trans hx'
      exact hphi hop
    have ho : o ≠ n := by
      rintro rfl
      exact hset.sole_away hroute hsole hdom hblock
    rw [value_perform hperform, if_neg hi] at hv
    rw [value_perform hperform, if_neg ho]
    exact h.steady i b o p rest rfl hsole hdom v hv

/-- Some members act. -/
theorem Sound.passes (h : Sound g r (p :: rest) m) (hroute : Route g r.Taken (p :: rest))
    {l : Schedule} {exit exit' : Option NodeId} (hpass : Passes handler args l m exit m' exit')
    (hl : ∀ e ∈ l, e ∈ s.body p.block) : Sound g r (p :: rest) m' := by
  induction hpass with
  | nil => exact h
  | @cons n x l m m₁ m' exit exit' action hchoose hends hperform hrest ih =>
    exact ih (h.act hset hroute (hl _ List.mem_cons_self) hchoose hperform)
      fun e he => hl e (List.mem_cons_of_mem _ he)

omit hset in
/-- Control goes on in a block that lists the edge, at the edge's place. -/
theorem follow_lists (hm : g.Mirrored) {e : NodeId} {q : Position} (h : follow g e = .ok q) :
    ∃ y k, g.nodes[q.block]? = some y ∧ y.op = .block ∧ q.via = some k ∧
      y.operands.idxOf? e = some k ∧ y.operands[k]? = some e := by
  obtain ⟨huser, ⟨y, hy, hop⟩, hvia⟩ := follow_eq_ok h
  rw [Graph.operands_eq hy] at hvia
  have hmem : e ∈ y.operands := by
    rw [← Graph.operands_eq hy]
    exact hm.mem_users.mp huser
  obtain ⟨k, hk⟩ : ∃ k, y.operands.idxOf? e = some k :=
    Option.ne_none_iff_exists'.mp fun hnone => List.idxOf?_eq_none_iff.mp hnone hmem
  obtain ⟨hlt, hget, -⟩ := List.idxOf?_eq_some_iff.mp hk
  exact ⟨y, k, hy, hop, hvia.trans hk, hk, List.getElem?_eq_some_iff.mpr ⟨hlt, hget⟩⟩

theorem Setting.operand_live {n o : NodeId} (hn : g.Live n) (ho : o ∈ g.operands n) :
    g.Live o := by
  cases hx : g.nodes[n]? with
  | none =>
    rw [Graph.operands, hx] at ho
    cases ho
  | some x =>
    rw [Graph.operands_eq hx] at ho
    exact hset.describes.operands_live hn hx o ho

theorem Setting.block_live {n b : NodeId} {x : Node} (hmem : (n, x) ∈ s.body b) : g.Live b := by
  obtain ⟨⟨hn, hx⟩, hb, -⟩ := hset.lists.mem_body.mp hmem
  exact hset.describes.block_live hn hx hb

/-- Leaving a block. -/
theorem Sound.leave {m₀ : Machine} {e : NodeId} (h : Sound g r (p :: rest) m₀)
    (hroute : Route g r.Taken (p :: rest))
    (hpass : Passes handler args (s.body p.block) m₀ none m' (some e)) :
    r.Taken e ∧ ∃ x, (e, x) ∈ s.body p.block ∧ x.op.isExit = true := by
  obtain ⟨l₁, x, l₂, m₁, exit, hsplit, hfirst, hleave⟩ := hpass.leaves
  have hmem : (e, x) ∈ s.body p.block := hsplit ▸ List.mem_append_right _ List.mem_cons_self
  obtain ⟨⟨hn, hx⟩, hb, -⟩ := hset.lists.mem_body.mp hmem
  have hin : r.assignment.enters x = true :=
    Assignment.enters_eq_true.mpr ⟨p.block, hb, hset.reachable hroute⟩
  have hsound := h.passes hset hroute hfirst fun e he => hsplit ▸ List.mem_append_left _ he
  refine ⟨choose_foreseen hset.describes.solves hset.agree hset.describes.inUse hn hx hin
    hsound.covered hleave, x, hmem, ?_⟩
  rcases choose_fits hleave with hop | ⟨side, hop⟩ <;> rw [hop] <;> rfl

end Setting

/-! ### Whole runs -/

/-- The blocks that a run has entered, the last first, and the machine it enters that one with. -/
inductive History (g : Graph) (s : Schedule) (handler : Handler) (args : List Literal) :
    List Position → Machine → Prop where
  | start : History g s handler args [{ block := Anchor.startBlock, via := none }]
      (Machine.initial g)
  | step {p q : Position} {rest : List Position} {m m' : Machine} :
    History g s handler args (p :: rest) m →
    runBlock g s handler args p m = .ok (.inl (q, m')) →
    History g s handler args (q :: p :: rest) m'

section History

variable {g : Graph} {r : Solution} {s : Schedule} {handler : Handler} {args : List Literal}
  {m m' : Machine} {p : Position} {rest : List Position}

/-- A run has come along a route of taken edges, and its machine is sound. -/
theorem History.sound (hset : Setting g r s) {route : List Position}
    (h : History g s handler args route m) (hroute : route = p :: rest) (hlive : g.Live p.block) :
    Route g r.Taken (p :: rest) ∧ Sound g r rest m := by
  induction h generalizing p rest with
  | start =>
    obtain ⟨rfl, rfl⟩ := List.cons_eq_cons.mp hroute
    have hnone (n : NodeId) (v : Literal) (hv : (Machine.initial g).value n = some v) : False := by
      have hv := value_eq_some.mp hv
      simp [Machine.initial, Array.getElem?_replicate] at hv
    exact ⟨.entry, fun n v hv => (hnone n v hv).elim,
      fun n _ _ _ _ _ _ _ v hv => (hnone n v hv).elim⟩
  | @step p' q rest' m m' _ hrun ih =>
    obtain ⟨rfl, rfl⟩ := List.cons_eq_cons.mp hroute
    obtain ⟨m₀, e, harrive, hpass, hfollow⟩ := runBlock_eq_inl hrun
    obtain ⟨_, x, _, _, _, hsplit, -, -⟩ := hpass.leaves
    obtain ⟨hold, hsound⟩ := ih rfl
      (hset.block_live (hsplit ▸ List.mem_append_right _ List.mem_cons_self))
    have harrived := hsound.arrive hset hold harrive
    obtain ⟨htaken, x, hmem, -⟩ := harrived.leave hset hold hpass
    obtain ⟨⟨-, hx⟩, hb, -⟩ := hset.lists.mem_body.mp hmem
    obtain ⟨y, k, hy, hop, hvia, -, hk⟩ := follow_lists hset.mirrored hfollow
    refine ⟨?_, harrived.passes hset hold hpass fun _ he => he⟩
    have hstep := Route.step hold hlive hy hop hk ((Graph.blockOf_eq hx).trans hb) htaken
    rwa [← hvia] at hstep

/-- A run that returns has a history. -/
theorem exists_history {fuel steps : Nat} {e : Execution} {vs : List Literal}
    (hhist : History g s handler args (p :: rest) m) (hsteps : steps = rest.length)
    (h : runFrom g s handler args fuel steps p m = .ok e) (hret : e.outcome = .returned vs) :
    ∃ q older m₁ m₂, History g s handler args (q :: older) m₁ ∧
      runBlock g s handler args q m₁ = .ok (.inr (m₂, .returned vs)) ∧
      e = { effects := m₂.effects, outcome := .returned vs, steps := older.length + 1 } ∧
      older.length < steps + fuel := by
  induction fuel generalizing steps p rest m with
  | zero =>
    cases h
    cases hret
  | succ fuel ih =>
    obtain ⟨next, hrun, h⟩ := bind_eq_ok.mp h
    cases next with
    | inl next =>
      obtain ⟨q, m'⟩ := next
      obtain ⟨q, older, m₁, m₂, hq, hend, he, hlt⟩ :=
        ih (.step hhist hrun) (by rw [hsteps, List.length_cons]) h
      exact ⟨q, older, m₁, m₂, hq, hend, he, by omega⟩
    | inr next =>
      obtain ⟨m', o⟩ := next
      cases h
      cases hret
      exact ⟨p, rest, m, m', hhist, hrun, by rw [hsteps], by omega⟩

/-- A history with enough fuel is a run. -/
theorem History.runFrom {route : List Position} (h : History g s handler args route m)
    (hroute : route = p :: rest) (fuel : Nat) :
    Execution.runFrom g s handler args (rest.length + fuel) 0
        { block := Anchor.startBlock, via := none } (Machine.initial g) =
      Execution.runFrom g s handler args fuel rest.length p m := by
  induction h generalizing p rest fuel with
  | start =>
    obtain ⟨rfl, rfl⟩ := List.cons_eq_cons.mp hroute
    rw [List.length_nil, Nat.zero_add]
  | @step p' q rest' m m' _ hrun ih =>
    obtain ⟨rfl, rfl⟩ := List.cons_eq_cons.mp hroute
    have hearlier := ih rfl (fuel + 1)
    rw [show (p' :: rest').length + fuel = rest'.length + (fuel + 1) by
      rw [List.length_cons]; omega, hearlier]
    exact bind_of_ok hrun

end History

end Execution

end SeaOfNodes
