import SeaOfNodes.Proofs.WellFormed
import SeaOfNodes.Proofs.Soundness

/-!
What an analysis finds in a graph that was folded.

The facts about an image are at least as weak as those about the graph it was made from
(`Image.value_le`). Read off where each node stands now, and cut down to the facts found first, they
solve the constraints of the first graph (`Image.pullback_looksThrough`), and the facts found first
are the least that do. Conversely control comes to no block that it did not come to before
(`Image.reachable_of_reachable`).

One thing changes. Of a phi of pointers nothing is known, whatever it merges, but where it collapses
the second analysis sees the node in its place, which may be a constant or computed. Such nodes are
looked through (`Image.LooksThrough`), and the facts found first have to be the least also then
(`Image.Exhausted`). They are if nothing computed reads such a node (`Image.Exhausted.of_unread`).
-/

namespace SeaOfNodes

/-! ### Facts -/

namespace Fact

/-- The strongest fact that says no more than either of two. -/
def glb : Fact → Fact → Fact
  | varying, b => b
  | a, varying => a
  | constant a, constant b => if a = b then constant a else unknown
  | _, _ => unknown

theorem glb_le_left (a b : Fact) : (a.glb b).le a = true := by
  cases a with
  | unknown => cases b <;> exact unknown_le _
  | varying => exact le_varying _
  | constant c =>
    cases b with
    | unknown => exact unknown_le _
    | varying => exact le_refl _
    | constant d =>
      rw [glb]
      split
      · exact le_refl _
      · exact unknown_le _

theorem glb_le_right (a b : Fact) : (a.glb b).le b = true := by
  cases a with
  | unknown => cases b <;> exact unknown_le _
  | varying => exact le_refl _
  | constant c =>
    cases b with
    | unknown => exact unknown_le _
    | varying => exact le_varying _
    | constant d =>
      rw [glb]
      split
      · next heq => exact heq ▸ le_refl _
      · exact unknown_le _

theorem glb_eq_left {a b : Fact} (h : a.le b = true) : a.glb b = a := by
  rcases le_iff.mp h with rfl | rfl | rfl
  · cases b <;> rfl
  · cases a <;> simp [glb]
  · cases a <;> rfl

theorem le_glb {a b c : Fact} (hb : a.le b = true) (hc : a.le c = true) :
    a.le (b.glb c) = true := by
  rcases le_iff.mp hb with rfl | rfl | rfl
  · exact unknown_le _
  · rw [glb_eq_left hc]
    exact le_refl _
  · exact hc

end Fact

/-- A node of the graph that is neither a constant nor computed. -/
def Graph.Varies (g : Graph) (n : NodeId) : Prop :=
  ∃ x, g.nodes[n]? = some x ∧ (∀ v, x.op ≠ .const v) ∧ g.computes x = false

theorem Graph.computes_of_isFolded (g : Graph) {x : Node} (hop : x.op.isFolded = true)
    (hmode : x.mode.isFoldable = true) : g.computes x = true := by
  unfold Graph.computes
  cases hx : x.op <;> simp_all [Op.isFolded]

theorem Graph.computes_of_isDivision (g : Graph) {x : Node} (hop : x.op.isDivision = true) :
    g.computes x = true := by
  unfold Graph.computes
  cases hx : x.op <;> simp_all [Op.isDivision]

/-- Whether the fact about a node is substituted for it, for what it hands on or for what hangs off
it. -/
def Substitution.consults (x : Node) : Bool :=
  x.op.isFolded && x.mode.isFoldable || x.op.isDivision || x.op == .cond

theorem Graph.computes_of_consults (g : Graph) {x : Node}
    (h : Substitution.consults x = true) : g.computes x = true := by
  simp only [Substitution.consults, Bool.or_eq_true, Bool.and_eq_true, beq_iff_eq] at h
  rcases h with (⟨hop, hmode⟩ | hop) | hop
  · exact g.computes_of_isFolded hop hmode
  · exact g.computes_of_isDivision hop
  · simp [Graph.computes, hop]

theorem Node.seed_of_not_const {x : Node} (h : ∀ v, x.op ≠ .const v) : x.seed = .varying := by
  unfold Node.seed
  split
  · next v hop => exact absurd hop (h v)
  · rfl

namespace Solution

variable {r : Solution} {g : Graph} {n : NodeId}

theorem value_of_constant? {v : Literal} (h : r.constant? n = some v) :
    r.assignment.value n = .constant v := by
  obtain ⟨a, ha, hav⟩ := Option.bind_eq_some_iff.mp h
  show (r.value? n).getD .varying = _
  rw [ha]
  cases a with
  | constant c =>
    cases hav
    rfl
  | unknown => cases hav
  | varying => cases hav

/-- A constant found for a computed node is what follows from its operands. -/
theorem Describes.transfer_of_constant (hr : r.Describes g) {x : Node} {v : Literal}
    (hn : g.Live n) (hx : g.nodes[n]? = some x) (hc : g.computes x = true)
    (hv : r.constant? n = some v) : r.assignment.transfer g x = .constant v := by
  have hvalue := value_of_constant? hv
  have henters : r.assignment.enters x = true := by
    by_contra hin
    rw [hr.untouched n x hn hx hc (by simpa using hin)] at hvalue
    cases hvalue
  rw [← hr.value_eq_transfer hn hx hc henters, hvalue]

end Solution

namespace Image

open Rewriting

variable {g h : Graph} {r r' : Solution} {σ : NodeId → NodeId} {K : NodeId → List Nat}

/-- Folding may put `o` in the place of `n`, whatever is known of either. -/
inductive Bypasses (g : Graph) (r : Solution) (n o : NodeId) : Prop where
  /-- `n` is a phi that has `o` where control enters its block, at one position only. -/
  | phi (h : Merges g r n o)
  /-- `n` is a phi in a start block that control enters by no edge. -/
  | entry {x : Node} (hx : g.nodes[n]? = some x) (hop : x.op = .phi)
    (hblock : x.block = some Anchor.startBlock)
    (hnone : ∀ e ∈ g.operands Anchor.startBlock, r.assignment.taken e = false)
    (ho : o ∈ x.operands)
  /-- `n` is the memory state of a division with a known result, which consumed `o`. -/
  | memory (h : Splices g r n o)

/-- In the place of `n`, which is neither a constant nor computed, folding may put `o`, which is one
or the other. -/
def Reveals (g : Graph) (r : Solution) (n o : NodeId) : Prop :=
  Relation.TransGen (fun k m => g.Live k ∧ g.Varies k ∧ Bypasses g r k m) n o ∧ ¬ g.Varies o

/-- The constraints of constant propagation if a node is looked through that reveals others: the
fact about it need be no weaker than that about one of these. -/
structure LooksThrough (g : Graph) (r : Solution) (a : Assignment) : Prop
    extends a.Propagates g where
  seed : ∀ n x, g.Live n → g.nodes[n]? = some x → g.computes x = false →
    (∀ o, ¬ Reveals g r n o) → a.value n = x.seed
  copy : ∀ n o, g.Live n → Reveals g r n o →
    ∃ o', Reveals g r n o' ∧ (a.value o').le (a.value n) = true

/-- The facts leave nothing open that folding could make known. -/
structure Exhausted (g : Graph) (r : Solution) : Prop where
  /-- Something is known of every branch with an arm in a reachable block. -/
  decided : Decided g r.assignment
  /-- Looking through the nodes that reveal others tells nothing about the nodes whose facts are
  substituted. -/
  least : ∀ a, LooksThrough g r a → ∀ n x, g.Live n → g.nodes[n]? = some x →
    Substitution.consults x = true → (r.assignment.value n).le (a.value n) = true

theorem Reveals.varies {n o : NodeId} (h : Reveals g r n o) :
    g.Varies n ∧ ∃ m, Bypasses g r n m := by
  obtain ⟨m, ⟨-, hv, hm⟩, -⟩ := Relation.TransGen.head'_iff.mp h.1
  exact ⟨hv, m, hm⟩

/-- A computed node reveals nothing. -/
theorem not_reveals_of_computes {n o : NodeId} {x : Node} (hx : g.nodes[n]? = some x)
    (hc : g.computes x = true) : ¬ Reveals g r n o := by
  intro h
  obtain ⟨⟨y, hy, -, hc'⟩, -⟩ := h.varies
  cases hx.symm.trans hy
  rw [hc] at hc'
  cases hc'

open Classical in
/-- The assignment that knows nothing about nodes that reveal others. -/
noncomputable def forget (g : Graph) (r : Solution) (a : Assignment) : Assignment :=
  { a with value := fun n => if ∃ o, Reveals g r n o then .varying else a.value n }

theorem forget_value {a : Assignment} {n : NodeId} (h : ∀ o, ¬ Reveals g r n o) :
    (forget g r a).value n = a.value n := if_neg (not_exists.mpr h)

theorem forget_operand {a : Assignment} {x : Node}
    (h : ∀ n ∈ x.operands, ∀ o, ¬ Reveals g r n o) (i : Nat) :
    (forget g r a).operand x i = a.operand x i := by
  unfold Assignment.operand
  cases hn : x.operands[i]? with
  | none => rfl
  | some n => exact forget_value (h n (List.mem_of_getElem? hn))

/-- Looking through nodes tells nothing that is not known anyway, if no computed node and no arm
reads one that reveals another. -/
theorem Exhausted.of_unread (hr : r.Describes g) (hdecided : Decided g r.assignment)
    (hunread : ∀ u x, g.Live u → g.nodes[u]? = some x →
      g.computes x = true ∨ (∃ side, x.op = .proj (.arm side)) →
      ∀ n ∈ x.operands, ∀ o, ¬ Reveals g r n o) : Exhausted g r where
  decided := hdecided
  least a ha n x hn hx hkind := by
    have hsolves : (forget g r a).Solves g :=
      { entry := ha.entry
        enter := ha.enter
        leave := ha.leave
        choose := fun u y side hu hy hop hin hadmits => by
          rw [forget_operand (hunread u y hu hy (.inr ⟨side, hop⟩))] at hadmits
          exact ha.choose u y side hu hy hop hin hadmits
        compute := fun u y hu hy hc hin => by
          rw [forget_value fun o => not_reveals_of_computes hy hc,
            Assignment.transfer_congr (forget_operand (hunread u y hu hy (.inl hc))) rfl]
          exact ha.compute u y hu hy hc hin
        seed := fun u y hu hy hc => by
          by_cases hreveals : ∃ o, Reveals g r u o
          · obtain ⟨o, ho⟩ := hreveals
            obtain ⟨⟨z, hz, hconst, -⟩, -⟩ := ho.varies
            cases hy.symm.trans hz
            rw [Node.seed_of_not_const hconst]
            exact if_pos ⟨o, ho⟩
          · rw [forget_value (not_exists.mp hreveals)]
            exact ha.seed u y hu hy hc (not_exists.mp hreveals) }
    have hle := (hr.least _ hsolves).value n hn
    rwa [forget_value fun o => not_reveals_of_computes hx (g.computes_of_consults hkind)] at hle

/-- What is assumed so that a second analysis finds nothing new. -/
structure Typed (g : Graph) (r : Solution) : Prop extends Exhausted g r where
  projected : Projected g
  single : ∀ n x k, g.Live n → g.nodes[n]? = some x → x.op = .proj k → x.operands.length = 1
  results : Execution.ResultsAgree g r.assignment

/-! ### Nodes that are left -/

theorem self_of_live (hi : Image g r σ K h.Live h) {n : NodeId} (hn : h.Live n) : σ n = n :=
  hi.self n (Graph.not_removed (hi.of_live hn).2)

/-- A node that is left, with its operands renamed. -/
theorem exists_renamed (hi : Image g r σ K h.Live h) {n : NodeId} {x : Node} (hn : g.Live n)
    (hh : h.Live n) (hx : g.nodes[n]? = some x) :
    ∃ y, h.nodes[n]? = some y ∧ y.op = x.op ∧ y.mode = x.mode ∧ y.block = x.block ∧
      (n ≠ Anchor.stop → y.operands = (pick x.operands (K n)).map σ) := by
  have hused := (hi.of_live hh).2
  obtain ⟨z, hz, hop, hmode, hblock⟩ := hi.exists_same (Graph.shape?_eq hx) hused
  obtain ⟨y, hy, rfl⟩ := Option.map_eq_some_iff.mp hz
  refine ⟨y, hy, hop, hmode, hblock, fun hstop => ?_⟩
  rw [← Graph.operands_eq hx, ← hi.operands n hstop hh hn hused, Graph.operands_eq hy]

/-- A node that is no block and no phi keeps all its operands. -/
theorem operands_of_whole (hi : Image g r σ K h.Live h) {n : NodeId} {x y : Node} (hn : g.Live n)
    (hh : h.Live n) (hx : g.nodes[n]? = some x) (hy : h.nodes[n]? = some y)
    (hstop : n ≠ Anchor.stop) (hblock : x.op ≠ .block) (hphi : x.op ≠ .phi) :
    y.operands = x.operands.map σ := by
  obtain ⟨z, hz, -, -, -, hops⟩ := hi.exists_renamed hn hh hx
  rw [hy] at hz
  cases hz
  rw [hops hstop, hi.whole n _ (Graph.shape?_eq hx) hblock hphi, Graph.operands_eq hx, pick_range]

/-- What is computed from other facts in the image was so before. -/
theorem computes_eq_false (hb : Basis g r) (ht : Typed g r) (hi : Image g r σ K h.Live h)
    {n : NodeId} {x y : Node} (hn : g.Live n) (hh : h.Live n) (hx : g.nodes[n]? = some x)
    (hy : h.nodes[n]? = some y) (hc : g.computes x = false) : h.computes y = false := by
  obtain ⟨z, hz, hop, hmode, -⟩ := hi.exists_renamed hn hh hx
  rw [hy] at hz
  cases hz
  by_cases hres : x.op = .proj .result
  · have hops := hi.operands_of_whole hn hh hx hy (ne_stop_of_op hb hx (by simp [hres]))
      (by simp [hres]) (by simp [hres])
    refine Bool.eq_false_iff.mpr fun hcomp => ?_
    obtain ⟨w, hw, hdiv⟩ : ∃ w, (y.operands.head?.bind fun t => h.nodes[t]?) = some w ∧
        w.op.isDivision = true := by
      simpa [Graph.computes, hop, hres, Option.any_eq_true] using hcomp
    rw [hops, List.head?_map] at hw
    obtain ⟨t', ht', hw⟩ := Option.bind_eq_some_iff.mp hw
    obtain ⟨t, htx, rfl⟩ := Option.map_eq_some_iff.mp ht'
    -- A division is not renamed, so the operand was one before.
    have hret : w.op ≠ .retired := by rintro heq; simp [heq, Op.isDivision] at hdiv
    have hconst : ∀ v, w.op ≠ .const v := by rintro v heq; simp [heq, Op.isDivision] at hdiv
    have hjump : w.op ≠ .jump := by rintro heq; simp [heq, Op.isDivision] at hdiv
    obtain ⟨v, hv, hwop, -⟩ := hi.origin (Graph.shape?_eq hw) hret hconst hjump
    have hvdiv : v.op.isDivision = true := by rwa [← hwop]
    have htlive := hb.describes.operands_live hn hx t (List.mem_of_mem_head? htx)
    have heq := eq_of_division hb ht.projected (hi.path t htlive) hv hvdiv
    rw [← heq] at hv
    obtain ⟨u, hu, rfl⟩ := Option.map_eq_some_iff.mp hv
    have : g.computes x = true := by simp [Graph.computes, hres, htx, hu]; exact hvdiv
    rw [hc] at this
    cases this
  · unfold Graph.computes at hc ⊢
    rw [hop]
    split at hc
    all_goals simp_all

/-! ### Nodes that vary -/

theorem varies_bad (hb : Basis g r) : g.Live Anchor.bad ∧ g.Varies Anchor.bad := by
  obtain ⟨x, hx, hop, -⟩ := hb.anchor (n := Anchor.bad) rfl (by decide)
  obtain ⟨y, hy, rfl⟩ := Option.map_eq_some_iff.mp hx
  have hop : y.op = .bad := hop
  exact ⟨hb.anchor_live _ (by decide), y, hy, by simp [hop], by simp [Graph.computes, hop]⟩

/-- A phi is merged where control enters its block, or in a start block that it enters by no
edge. -/
theorem merges_or_entry (hb : Basis g r) {n b o : NodeId} {x : Node} {k : Nat} (hn : g.Live n)
    (hx : g.nodes[n]? = some x) (hop : x.op = .phi) (hblock : x.block = some b)
    (hreach : r.assignment.reachable b = true)
    (hsole : ∀ j p, (g.operands b)[j]? = some p → r.assignment.taken p = true → j = k)
    (ho : x.operands[k]? = some o) :
    Merges g r n o ∨
      b = Anchor.startBlock ∧ ∀ e ∈ g.operands b, r.assignment.taken e = false := by
  by_cases hentry : ∃ e ∈ g.operands b, r.assignment.taken e = true
  · obtain ⟨e, he, htaken⟩ := hentry
    obtain ⟨j, hj⟩ := List.mem_iff_getElem?.mp he
    obtain rfl := hsole j e hj htaken
    exact .inl ⟨x, b, j, hx, hop, hblock, ⟨⟨e, hj, htaken⟩, fun i p hp => hsole i p hp.1 hp.2⟩, ho⟩
  · have hnone : ∀ e ∈ g.operands b, r.assignment.taken e = false := by
      intro e he
      by_contra htaken
      exact hentry ⟨e, he, by simpa using htaken⟩
    refine .inr ⟨?_, hnone⟩
    cases hb.describes.reached (hb.describes.block_live hn hx hblock) hreach with
    | refl => rfl
    | tail _ hlast =>
      obtain ⟨e, he, htaken, -⟩ := hlast.edge
      rw [hnone e he] at htaken
      cases htaken

/-- A node that varies is bypassed, or dead control or a jump takes its place. -/
theorem Gives.bypasses (hb : Basis g r) (ht : Typed g r) {n m : NodeId} (hv : g.Varies n)
    (hg : Gives g r h n m) :
    (g.Live n ∧ g.Live m ∧ Bypasses g r n m) ∨ m = Anchor.bad ∨ ∃ b, Jump g h m b := by
  obtain ⟨x, hx, hconst, hcomp⟩ := hv
  have hshape {y : Shape} (hy : g.shape? n = some y) : y = x.shape := by
    rw [Graph.shape?_eq hx] at hy
    exact (Option.some.inj hy).symm
  cases hg with
  | fold _ hy hop hmode =>
    cases hshape hy
    have hop : x.op.isFolded = true := hop
    have hmode : x.mode.isFoldable = true := hmode
    rw [Graph.computes_of_isFolded g hop hmode] at hcomp
    cases hcomp
  | quotient hn hy hop hq hd _ =>
    cases hshape hy
    obtain ⟨t, hops⟩ := List.length_eq_one_iff.mp (ht.single n x _ hn hx hop)
    have hd : _ ∈ x.operands := hd ht.projected.apart
    rw [hops, List.mem_singleton] at hd
    obtain ⟨-, ⟨z, hz, hdiv⟩, -⟩ := hq
    obtain ⟨w, hw, rfl⟩ := Option.map_eq_some_iff.mp hz
    subst hd
    have hop : x.op = .proj .result := hop
    have : g.computes x = true := by simp [Graph.computes, hop, hops, hw]; exact hdiv
    rw [hcomp] at this
    cases this
  | splice hn hy hop hq hd hm =>
    cases hshape hy
    obtain ⟨hdlive, ⟨z, hz, hdiv⟩, hv⟩ := hq
    obtain ⟨w, hw, rfl⟩ := Option.map_eq_some_iff.mp hz
    rw [Graph.operands_eq hw] at hm
    obtain ⟨t, hops⟩ := List.length_eq_one_iff.mp (ht.single n x _ hn hx hop)
    have hd : _ ∈ x.operands := hd ht.projected.apart
    obtain rfl := List.mem_singleton.mp (hops ▸ hd)
    exact .inl ⟨hn, hb.describes.operands_live hdlive hw m (List.mem_of_mem_head? hm),
      .memory ⟨x, _, w, _, hx, hop, hops, hw, hdiv, hv, hm⟩⟩
  | jump _ _ _ _ _ _ _ hj => exact .inr (.inr ⟨_, hj⟩)
  | merge hn hy hop hblock hsole ho hreach =>
    cases hshape hy
    have hmem : m ∈ x.operands := List.mem_of_getElem? ho
    refine .inl ⟨hn, hb.describes.operands_live hn hx m hmem, ?_⟩
    rcases merges_or_entry hb hn hx hop hblock (hreach ht.decided) hsole ho with
      hmerge | ⟨rfl, hnone⟩
    · exact .phi hmerge
    · exact .entry hx hop hblock hnone hmem
  | dead => exact .inr (.inl rfl)
  | bury => exact .inr (.inl rfl)
  | buryJump => exact .inr (.inl rfl)
  | block => exact .inr (.inl rfl)

/-- A node that varies and is left still does. -/
theorem value_of_varies (hb : Basis g r) (ht : Typed g r) (hi : Image g r σ K h.Live h)
    (hr : r'.Describes h) {n : NodeId} (hn : g.Live n) (hv : g.Varies n) (hh : h.Live n) :
    r'.assignment.value n = .varying := by
  obtain ⟨x, hx, hconst, hc⟩ := hv
  obtain ⟨y, hy, hop, -⟩ := hi.exists_renamed hn hh hx
  rw [hr.solves.seed n y hh hy (hi.computes_eq_false hb ht hn hh hx hy hc)]
  exact Node.seed_of_not_const (by rwa [hop])

theorem value_of_jump (hi : Image g r σ K h.Live h) (hr : r'.Describes h) {j b : NodeId}
    (hj : Jump g h j b) (hh : h.Live j) : r'.assignment.value j = .varying := by
  obtain ⟨-, z, hz, -, hop⟩ := hj
  obtain ⟨y, hy, rfl⟩ := Option.map_eq_some_iff.mp hz
  have hop : y.op = .jump := hop.resolve_right fun hret =>
    Graph.not_removed (hi.of_live hh).2 ⟨_, hz, hret⟩
  rw [hr.solves.seed j y hh hy (by simp [Graph.computes, hop])]
  exact Node.seed_of_not_const (by simp [hop])

theorem value_of_bad (hb : Basis g r) (ht : Typed g r) (hi : Image g r σ K h.Live h)
    (hr : r'.Describes h) (hh : h.Live Anchor.bad) :
    r'.assignment.value Anchor.bad = .varying := by
  obtain ⟨hlive, hvaries⟩ := varies_bad hb
  exact hi.value_of_varies hb ht hr hlive hvaries hh

/-- What stands in for a node that varies varies, unless the node reveals it. -/
theorem varies_or_reveals (hb : Basis g r) (ht : Typed g r) (hi : Image g r σ K h.Live h)
    (hr : r'.Describes h) {n : NodeId} (hn : g.Live n) (hv : g.Varies n) (hh : h.Live (σ n)) :
    r'.assignment.value (σ n) = .varying ∨ ∃ o, Reveals g r n o ∧ σ o = σ n := by
  -- Along the trail nodes vary, until one is revealed or nothing but control is left.
  have htrail : ∀ m, Relation.ReflTransGen (Yields g r σ h) n m →
      (g.Live m ∧ g.Varies m ∧ Relation.ReflTransGen
        (fun k m => g.Live k ∧ g.Varies k ∧ Bypasses g r k m) n m) ∨
      σ n = Anchor.bad ∨ (∃ b, Jump g h m b) ∨ ∃ o, Reveals g r n o ∧ σ o = σ n := by
    intro m htrail
    induction htrail with
    | refl => exact .inl ⟨hn, hv, .refl⟩
    | @tail k m htrail hlast ih =>
      have hend : σ m = σ n := (eq_of_trail (htrail.tail hlast)).symm
      have hdead (hm : m = Anchor.bad) : σ n = Anchor.bad := by
        rw [← hend, hm, hi.stands_bad]
      rcases ih with ⟨hk, hkv, hpath⟩ | hbad | ⟨b, hj⟩ | hreveals
      · rcases hlast.1.bypasses hb ht hkv with ⟨-, hm, hbypass⟩ | hbad | hj
        · by_cases hmv : g.Varies m
          · exact .inl ⟨hm, hmv, hpath.tail ⟨hk, hkv, hbypass⟩⟩
          · exact .inr (.inr (.inr ⟨m, ⟨.tail' hpath ⟨hk, hkv, hbypass⟩, hmv⟩, hend⟩))
        · exact .inr (.inl (hdead hbad))
        · exact .inr (.inr (.inl hj))
      · exact .inr (.inl hbad)
      · exact .inr (.inl (hdead (hlast.1.bad_of_jump hj)))
      · exact .inr (.inr (.inr hreveals))
  rcases htrail _ (hi.trail n hn) with ⟨hm, hmv, -⟩ | hbad | ⟨b, hj⟩ | hreveals
  · exact .inl (hi.value_of_varies hb ht hr hm hmv hh)
  · rw [hbad] at hh ⊢
    exact .inl (hi.value_of_bad hb ht hr hh)
  · exact .inl (hi.value_of_jump hr hj hh)
  · exact .inr hreveals

/-- The fact about a node that is not computed is not lost, unless it reveals another. -/
theorem seed_le (hb : Basis g r) (ht : Typed g r) (hi : Image g r σ K h.Live h)
    (hr : r'.Describes h) {n : NodeId} {x : Node} (hn : g.Live n) (hx : g.nodes[n]? = some x)
    (hc : g.computes x = false) (hnone : ∀ o, ¬ Reveals g r n o) (hh : h.Live (σ n)) :
    x.seed.le (r'.assignment.value (σ n)) = true := by
  by_cases hconst : ∃ v, x.op = .const v
  · obtain ⟨v, hop⟩ := hconst
    by_cases heq : σ n = n
    · rw [heq] at hh ⊢
      obtain ⟨y, hy, hyop, -⟩ := hi.exists_renamed hn hh hx
      rw [hr.solves.seed n y hh hy (hi.computes_eq_false hb ht hn hh hx hy hc)]
      simp only [Node.seed, hyop, hop]
      exact Fact.le_refl _
    · -- Only dead control takes the place of a constant.
      obtain ⟨m, hg, hm⟩ := hi.gives_of_ne hn heq
      have hshape {y : Shape} (hy : g.shape? n = some y) : y.op = .const v := by
        rw [Graph.shape?_eq hx] at hy
        cases hy
        exact hop
      obtain rfl : m = Anchor.bad := by
        cases hg with
        | bury => rfl
        | dead => rfl
        | buryJump => rfl
        | block => rfl
        | fold _ hy hop' => simp [hshape hy, Op.isFolded] at hop'
        | quotient _ hy hop' => simp [hshape hy] at hop'
        | splice _ hy hop' => simp [hshape hy] at hop'
        | jump _ hy hop' => simp [hshape hy] at hop'
        | merge _ hy hop' => simp [hshape hy] at hop'
      rw [hm, hi.stands_bad] at hh ⊢
      rw [hi.value_of_bad hb ht hr hh]
      exact Fact.le_varying _
  · have hv : g.Varies n := ⟨x, hx, fun v hv => hconst ⟨v, hv⟩, hc⟩
    rcases hi.varies_or_reveals hb ht hr hn hv hh with hvalue | ⟨o, ho, -⟩
    · rw [hvalue]
      exact Fact.le_varying _
    · exact absurd ho (hnone o)

/-! ### The facts about the image, read off in the graph it was made from -/

open Classical in
/-- What both analyses agree on, for the nodes that something live stands in for. -/
noncomputable def pullback (r r' : Solution) (σ : NodeId → NodeId) (h : Graph) : Assignment where
  value n :=
    if h.Live (σ n) then (r.assignment.value n).glb (r'.assignment.value (σ n))
    else r.assignment.value n
  taken e := r.assignment.taken e && (!decide (h.Live (σ e)) || r'.assignment.taken (σ e))
  reachable b := r.assignment.reachable b && (!decide (h.Live b) || r'.assignment.reachable b)

theorem taken_pullback {e : NodeId} : (pullback r r' σ h).taken e = true ↔
    r.assignment.taken e = true ∧ (h.Live (σ e) → r'.assignment.taken (σ e) = true) := by
  unfold pullback
  by_cases hlive : h.Live (σ e) <;> simp [hlive]

theorem reachable_pullback {b : NodeId} : (pullback r r' σ h).reachable b = true ↔
    r.assignment.reachable b = true ∧ (h.Live b → r'.assignment.reachable b = true) := by
  unfold pullback
  by_cases hlive : h.Live b <;> simp [hlive]

theorem pullback_value_le {n : NodeId} (hh : h.Live (σ n)) :
    ((pullback r r' σ h).value n).le (r'.assignment.value (σ n)) = true := by
  simp only [pullback, if_pos hh]
  exact Fact.glb_le_right _ _

theorem pullback_below (g : Graph) : (pullback r r' σ h).Below g r.assignment where
  value n _ := by
    simp only [pullback]
    split
    · exact Fact.glb_le_left _ _
    · exact Fact.le_refl _
  taken _ _ ht := (taken_pullback.mp ht).1
  reachable _ _ hb := (reachable_pullback.mp hb).1

theorem pullback_operand_le {x y : Node} {i j : Nat} (hlive : ∀ o ∈ y.operands, h.Live o)
    (hj : y.operands[j]? = x.operands[i]?.map σ) :
    ((pullback r r' σ h).operand x i).le (r'.assignment.operand y j) = true := by
  unfold Assignment.operand
  cases ho : x.operands[i]? with
  | none =>
    rw [hj, ho]
    exact Fact.le_refl _
  | some o =>
    rw [hj, ho]
    have hmem : σ o ∈ y.operands := List.mem_of_getElem? (by rw [hj, ho]; rfl)
    exact pullback_value_le (hlive _ hmem)

theorem enters_pullback {x : Node} (hin : (pullback r r' σ h).enters x = true) :
    r.assignment.enters x = true := by
  obtain ⟨b, hxb, hreach⟩ := Assignment.enters_eq_true.mp hin
  exact Assignment.enters_eq_true.mpr ⟨b, hxb, (reachable_pullback.mp hreach).1⟩

/-- A node that stands in a reachable block does so in the image. -/
theorem enters_of_pullback (hr : r'.Describes h) {n : NodeId} {x y : Node} (hh : h.Live n)
    (hy : h.nodes[n]? = some y) (hblock : y.block = x.block)
    (hin : (pullback r r' σ h).enters x = true) : r'.assignment.enters y = true := by
  obtain ⟨b, hb, hreach⟩ := Assignment.enters_eq_true.mp hin
  have hyb := hblock.trans hb
  exact Assignment.enters_eq_true.mpr
    ⟨b, hyb, (reachable_pullback.mp hreach).2 (hr.block_live hh hy hyb)⟩

/-- The positions that a phi and its block have kept are those of the operands that they have. -/
theorem phi_positions (hb : Basis g r) (hi : Image g r σ K h.Live h) (hr : r'.Describes h)
    {n b : NodeId} {x y : Node} (hn : g.Live n) (hh : h.Live n) (hx : g.nodes[n]? = some x)
    (hy : h.nodes[n]? = some y) (hop : x.op = .phi) (hblock : x.block = some b) {k : Nat}
    {p : NodeId} (hp : (g.operands b)[k]? = some p) (htaken : r.assignment.taken p = true) :
    ∃ j : Nat, (h.operands b)[j]? = some (σ p) ∧ y.operands[j]? = x.operands[k]?.map σ := by
  obtain ⟨z, hz, -, -, hyb, hops⟩ := hi.exists_renamed hn hh hx
  rw [hy] at hz
  cases hz
  have hblive := hb.describes.block_live hn hx hblock
  have hbh := hr.block_live hh hy (hyb.trans hblock)
  have hbused := (hi.of_live hbh).2
  obtain ⟨c, u, hc, hu, hwop⟩ :=
    hb.structured.placed n _ hn (Graph.shape?_eq hx) (by simp [Node.shape, hop])
  cases hblock.symm.trans hc
  obtain ⟨w, hw, rfl⟩ := Option.map_eq_some_iff.mp hu
  have hwop : w.op = .block := hwop
  rw [Graph.operands_eq hw] at hp
  have hk := hi.kept b _ hbh (Graph.shape?_eq hw) hwop hbused k p hp htaken
  obtain ⟨j, hj⟩ := List.getElem?_of_mem hk
  refine ⟨j, ?_, ?_⟩
  · rw [hi.operands b (ne_stop_of_op hb hw (by simp [hwop])) hbh hblive hbused,
      List.getElem?_map, getElem?_pick hi.valid, hj, Graph.operands_eq hw]
    simp [hp]
  · have hK := hi.aligned n _ b hh (Graph.shape?_eq hx) hop hblock (hi.of_live hh).2
    have hvalid := hi.valid (n := n)
    rw [Graph.operands_eq hx] at hvalid
    rw [hops (ne_stop_of_op hb hx (by simp [hop])), List.getElem?_map, getElem?_pick hvalid, hK, hj]
    rfl

/-- What follows from the operands of a node that is left says no more than what follows from
them in the image. -/
theorem pullback_transfer_le (hb : Basis g r) (hi : Image g r σ K h.Live h)
    (hr : r'.Describes h) {n : NodeId} {x y : Node} (hn : g.Live n) (hh : h.Live n)
    (hx : g.nodes[n]? = some x) (hy : h.nodes[n]? = some y) (hc : g.computes x = true) :
    ((pullback r r' σ h).transfer g x).le (r'.assignment.transfer h y) = true := by
  obtain ⟨z, hz, hop, hmode, hblock, -⟩ := hi.exists_renamed hn hh hx
  rw [hy] at hz
  cases hz
  have hlive := hr.operands_live hh hy
  by_cases hphi : x.op = .phi
  · obtain ⟨b, -, hxb, -⟩ :=
      hb.structured.placed n _ hn (Graph.shape?_eq hx) (by simp [Node.shape, hphi])
    have hxb : x.block = some b := hxb
    simp only [Assignment.transfer, hop, hphi, hblock, hxb, Option.elim]
    refine Fact.foldl_meet_le.mpr ⟨Fact.unknown_le _, fun v hv => ?_⟩
    obtain ⟨p, k, hp, htaken, rfl⟩ := Assignment.mem_arriving.mp hv
    obtain ⟨htaken, htaken'⟩ := taken_pullback.mp htaken
    obtain ⟨j, hj, hyj⟩ := hi.phi_positions hb hr hn hh hx hy hphi hxb hp htaken
    have hpred : h.Live (σ p) :=
      hr.preds_live hh hy _ (by rw [hblock, hxb]; exact List.mem_of_getElem? hj)
    have harrives : r'.assignment.operand y j ∈ r'.assignment.arriving (h.operands b) y :=
      Assignment.mem_arriving.mpr ⟨σ p, j, hj, htaken' hpred, rfl⟩
    exact Fact.le_trans (pullback_operand_le hlive hyj)
      ((Fact.foldl_meet_le.mp (Fact.le_refl _)).2 _ harrives)
  · have hstop : x.op ≠ .stop := by rintro heq; simp [Graph.computes, heq] at hc
    have hnblock : x.op ≠ .block := by rintro heq; simp [Graph.computes, heq] at hc
    have hops := hi.operands_of_whole hn hh hx hy (ne_stop_of_op hb hx hstop) hnblock hphi
    have hoperand (i : Nat) :
        ((pullback r r' σ h).operand x i).le (r'.assignment.operand y i) = true :=
      pullback_operand_le hlive (by rw [hops, List.getElem?_map])
    unfold Assignment.transfer
    rw [hop, hmode]
    split <;> first
      | exact Fact.combine_mono _ (hoperand _) (hoperand _)
      | exact Fact.map_mono _ (hoperand _)
      | exact hoperand _
      | exact Fact.le_refl _
      | contradiction

/-- A constant that carries a value is known to have it. -/
theorem value_of_carries (hi : Image g r σ K h.Live h) (hr : r'.Describes h) {c : NodeId}
    {v : Literal} (hcv : Carries g h c v) (hh : h.Live (σ c)) :
    r'.assignment.value (σ c) = .constant v := by
  rw [hi.constant c v hcv] at hh ⊢
  obtain ⟨z, hz, -, hop⟩ := hcv.now
  obtain ⟨y, hy, rfl⟩ := Option.map_eq_some_iff.mp hz
  have hop : y.op = .const v := hop.resolve_right fun hret =>
    Graph.not_removed (hi.of_live hh).2 ⟨_, hz, hret⟩
  rw [hr.solves.seed c y hh hy (by simp [Graph.computes, hop])]
  simp [Node.seed, hop]

/-- What follows from the operands of a node that was replaced says no more than what is known of
the node in its place. -/
theorem pullback_transfer_le_of_gives (hb : Basis g r) (ht : Typed g r)
    (hi : Image g r σ K h.Live h) (hr : r'.Describes h) {n m : NodeId} {x : Node} (hn : g.Live n)
    (hx : g.nodes[n]? = some x) (hc : g.computes x = true)
    (hin : (pullback r r' σ h).enters x = true) (hg : Gives g r h n m) (hm : σ n = σ m)
    (hh : h.Live (σ n)) :
    ((pullback r r' σ h).transfer g x).le (r'.assignment.value (σ n)) = true := by
  have hbelow : (pullback r r' σ h).Below g r.assignment := pullback_below g
  have hfirst : ((pullback r r' σ h).transfer g x).le (r.assignment.transfer g x) = true :=
    Assignment.transfer_le hbelow (hb.describes.operands_live hn hx)
      (hb.describes.preds_live hn hx)
  have hin := enters_pullback hin
  have hshape {y : Shape} (hy : g.shape? n = some y) : y = x.shape := by
    rw [Graph.shape?_eq hx] at hy
    exact (Option.some.inj hy).symm
  rw [hm] at hh ⊢
  cases hg with
  | fold _ hy hop hmode hv hcv =>
    rw [hi.value_of_carries hr hcv hh, ← Solution.value_of_constant? hv]
    exact Fact.le_trans hfirst (hb.describes.solves.compute n x hn hx hc hin)
  | quotient _ hy hop hq hd hcv =>
    cases hshape hy
    have hop : x.op = .proj .result := hop
    obtain ⟨t, hops⟩ := List.length_eq_one_iff.mp (ht.single n x _ hn hx hop)
    have hd : _ ∈ x.operands := hd ht.projected.apart
    rw [hops, List.mem_singleton] at hd
    subst hd
    obtain ⟨hdlive, ⟨z, hz, hdiv⟩, hv⟩ := hq
    obtain ⟨w, hw, rfl⟩ := Option.map_eq_some_iff.mp hz
    have hval := Solution.value_of_constant? hv
    have hmode := ht.results n x _ w _ hn hx hop (by rw [hops]; rfl) hdlive hw hdiv hval
    have hconv := Literal.convert?_mode
    rw [hi.value_of_carries hr hcv hh]
    simp only [Node.shape, hmode, hconv, Option.getD_some]
    refine Fact.le_trans hfirst ?_
    simp only [Assignment.transfer, hop, Assignment.operand, hops, List.getElem?_cons_zero,
      Option.elim, hval]
    exact Fact.le_refl _
  | merge _ hy hop hblock hsole ho =>
    cases hshape hy
    have hop : x.op = .phi := hop
    have hblock : x.block = some _ := hblock
    have ho : x.operands[_]? = some m := ho
    simp only [Assignment.transfer, hop, hblock, Option.elim]
    refine Fact.foldl_meet_le.mpr ⟨Fact.unknown_le _, fun v hv => ?_⟩
    obtain ⟨p, k, hp, htaken, rfl⟩ := Assignment.mem_arriving.mp hv
    cases hsole k p hp (taken_pullback.mp htaken).1
    simp only [Assignment.operand, ho, Option.elim]
    exact pullback_value_le hh
  | bury _ hy _ hblock hunreached =>
    cases hshape hy
    obtain ⟨b, hxb, hreach⟩ := Assignment.enters_eq_true.mp hin
    cases hxb.symm.trans hblock
    rw [hreach] at hunreached
    cases hunreached
  | buryJump hj =>
    exact absurd (Graph.lt_size_of_getElem? hx) (Nat.not_lt_of_le hj.1)
  | splice _ hy hop =>
    cases hshape hy
    have hop : x.op = .proj .memory := hop
    simp [Graph.computes, hop] at hc
  | jump _ hy hop =>
    cases hshape hy
    have hop : x.op = .proj (.arm _) := hop
    simp [Graph.computes, hop] at hc
  | dead _ hy hop =>
    cases hshape hy
    have hop : x.op = .proj (.arm _) := hop
    simp [Graph.computes, hop] at hc
  | block _ hy hop =>
    cases hshape hy
    have hop : x.op = .block := hop
    simp [Graph.computes, hop] at hc

/-- What follows from the operands of a computed node says no more than what both analyses agree on
about it. -/
theorem pullback_compute (hb : Basis g r) (ht : Typed g r) (hi : Image g r σ K h.Live h)
    (hr : r'.Describes h) {n : NodeId} {x : Node} (hn : g.Live n) (hx : g.nodes[n]? = some x)
    (hc : g.computes x = true) (hin : (pullback r r' σ h).enters x = true) :
    ((pullback r r' σ h).transfer g x).le ((pullback r r' σ h).value n) = true := by
  have hfirst : ((pullback r r' σ h).transfer g x).le (r.assignment.value n) = true :=
    Fact.le_trans
      (Assignment.transfer_le (pullback_below g) (hb.describes.operands_live hn hx)
        (hb.describes.preds_live hn hx))
      (hb.describes.solves.compute n x hn hx hc (enters_pullback hin))
  simp only [pullback] at hfirst ⊢
  split
  · next hh =>
    refine Fact.le_glb hfirst ?_
    by_cases heq : σ n = n
    · rw [heq] at hh ⊢
      obtain ⟨y, hy, hyop, -, hyb, -⟩ := hi.exists_renamed hn hh hx
      cases hcy : h.computes y with
      | false =>
        rw [hr.solves.seed n y hh hy hcy, Node.seed_of_not_const]
        · exact Fact.le_varying _
        · intro v hv
          simp [Graph.computes, ← hyop, hv] at hc
      | true =>
        exact Fact.le_trans (hi.pullback_transfer_le hb hr hn hh hx hy hc)
          (hr.solves.compute n y hh hy hcy (enters_of_pullback hr hh hy hyb hin))
    · obtain ⟨m, hg, hm⟩ := hi.gives_of_ne hn heq
      exact hi.pullback_transfer_le_of_gives hb ht hr hn hx hc hin hg hm hh
  · exact hfirst

/-- A control edge that the first analysis takes is taken by the second if control comes to its
block. -/
theorem taken_of_stands (hb : Basis g r) (hi : Image g r σ K h.Live h) (hr : r'.Describes h)
    {e : NodeId} {x : Node} (he : g.Live e) (hx : g.nodes[e]? = some x)
    (htaken : r.assignment.taken e = true) (hin : (pullback r r' σ h).enters x = true)
    (hh : h.Live (σ e))
    (hself : ∀ y, h.Live e → h.nodes[e]? = some y → y.op = x.op → y.block = x.block →
      r'.assignment.enters y = true → r'.assignment.taken e = true) :
    r'.assignment.taken (σ e) = true := by
  obtain ⟨-, heq | ⟨b, hblock, hj⟩⟩ := hi.taken_stands hb he htaken
  · rw [heq] at hh ⊢
    obtain ⟨y, hy, hop, -, hyb, -⟩ := hi.exists_renamed he hh hx
    exact hself y hh hy hop hyb (enters_of_pullback hr hh hy hyb hin)
  · rw [Graph.blockOf_eq hx] at hblock
    obtain ⟨-, z, hz, hzb, hop⟩ := hj
    obtain ⟨y, hy, rfl⟩ := Option.map_eq_some_iff.mp hz
    have hop : y.op = .jump := hop.resolve_right fun hret =>
      Graph.not_removed (hi.of_live hh).2 ⟨_, hz, hret⟩
    exact hr.solves.leave _ y hh hy (.inl hop)
      (enters_of_pullback hr hh hy (Eq.trans hzb hblock.symm) hin)

/-- The fact about a node that reveals another is no weaker than that about one it reveals. -/
theorem pullback_copy (hb : Basis g r) (ht : Typed g r) (hi : Image g r σ K h.Live h)
    (hr : r'.Describes h) {n o : NodeId} (hn : g.Live n) (ho : Reveals g r n o) :
    ∃ o', Reveals g r n o' ∧
      ((pullback r r' σ h).value o').le ((pullback r r' σ h).value n) = true := by
  have hv : g.Varies n := ho.varies.1
  have hvarying : r.assignment.value n = .varying := by
    obtain ⟨x, hx, hconst, hc⟩ := hv
    rw [hb.describes.solves.seed n x hn hx hc, Node.seed_of_not_const hconst]
  by_cases hh : h.Live (σ n)
  · have hvalue : (pullback r r' σ h).value n = r'.assignment.value (σ n) := by
      simp only [pullback, if_pos hh, hvarying, Fact.glb]
    rw [hvalue]
    rcases hi.varies_or_reveals hb ht hr hn hv hh with heq | ⟨o', ho', heq⟩
    · exact ⟨o, ho, heq ▸ Fact.le_varying _⟩
    · rw [← heq] at hh ⊢
      exact ⟨o', ho', pullback_value_le hh⟩
  · refine ⟨o, ho, ?_⟩
    have hvalue : (pullback r r' σ h).value n = .varying := by
      simp only [pullback, if_neg hh, hvarying]
    rw [hvalue]
    exact Fact.le_varying _

/-- The facts that both analyses agree on solve the constraints of the graph that was folded, if
nodes that reveal others are looked through. -/
theorem pullback_looksThrough (hb : Basis g r) (ht : Typed g r) (hi : Image g r σ K h.Live h)
    (hr : r'.Describes h) : LooksThrough g r (pullback r r' σ h) where
  entry := reachable_pullback.mpr ⟨hb.describes.solves.entry, fun _ => hr.solves.entry⟩
  enter b x hlive hx hop e he htaken := by
    obtain ⟨htaken, htaken'⟩ := taken_pullback.mp htaken
    refine reachable_pullback.mpr
      ⟨hb.describes.solves.enter b x hlive hx hop e he htaken, fun hh => ?_⟩
    obtain ⟨y, hy, hyop, -, -, hops⟩ := hi.exists_renamed hlive hh hx
    obtain ⟨k, hk⟩ := List.getElem?_of_mem he
    have hkept := hi.kept b _ hh (Graph.shape?_eq hx) hop (hi.of_live hh).2 k e hk htaken
    have hmem : σ e ∈ y.operands := by
      rw [hops (ne_stop_of_op hb hx (by simp [hop]))]
      exact List.mem_map_of_mem (mem_pick.mpr ⟨k, hkept, hk⟩)
    exact hr.solves.enter b y hh hy (hyop.trans hop) _ hmem
      (htaken' (hr.operands_live hh hy _ hmem))
  leave n x hn hx hop hin := by
    have htaken := hb.describes.solves.leave n x hn hx hop (enters_pullback hin)
    refine taken_pullback.mpr ⟨htaken, fun hh => ?_⟩
    refine hi.taken_of_stands hb hr hn hx htaken hin hh fun y hn' hy hyop _ hin' => ?_
    exact hr.solves.leave n y hn' hy (by rwa [hyop]) hin'
  choose n x side hn hx hop hin hadmits := by
    have hbelow : (pullback r r' σ h).Below g r.assignment := pullback_below g
    have hle := Assignment.operand_le hbelow (hb.describes.operands_live hn hx) 0
    have htaken := hb.describes.solves.choose n x side hn hx hop (enters_pullback hin)
      (hadmits.mono hle)
    refine taken_pullback.mpr ⟨htaken, fun hh => ?_⟩
    refine hi.taken_of_stands hb hr hn hx htaken hin hh fun y hn' hy hyop _ hin' => ?_
    have hops := hi.operands_of_whole hn hn' hx hy (ne_stop_of_op hb hx (by simp [hop]))
      (by simp [hop]) (by simp [hop])
    refine hr.solves.choose n y side hn' hy (hyop.trans hop) hin' (hadmits.mono ?_)
    exact pullback_operand_le (hr.operands_live hn' hy) (by rw [hops, List.getElem?_map])
  seed n x hn hx hc hnone := by
    simp only [pullback]
    rw [hb.describes.solves.seed n x hn hx hc]
    split
    · next hh => exact Fact.glb_eq_left (hi.seed_le hb ht hr hn hx hc hnone hh)
    · rfl
  copy n o hn ho := hi.pullback_copy hb ht hr hn ho
  compute n x hn hx hc hin := hi.pullback_compute hb ht hr hn hx hc hin

/-- A second analysis knows no more about a node whose fact is substituted than the first knew. -/
theorem value_le (hb : Basis g r) (ht : Typed g r) (hi : Image g r σ K h.Live h)
    (hr : r'.Describes h) {n : NodeId} {x : Node} (hn : g.Live n) (hx : g.nodes[n]? = some x)
    (hkind : Substitution.consults x = true) (hh : h.Live (σ n)) :
    (r.assignment.value n).le (r'.assignment.value (σ n)) = true :=
  Fact.le_trans (ht.least _ (hi.pullback_looksThrough hb ht hr) n x hn hx hkind)
    (pullback_value_le hh)

/-! ### Control -/

/-- The second analysis finds no block reachable that the first did not. -/
theorem reachable_of_reachable (hb : Basis g r) (hi : Image g r σ K h.Live h)
    (hsettled : ∀ n, g.Live n → Substitution.Settled g r h n) (harms : Decided g r.assignment)
    (hr : r'.Describes h) {b : NodeId} (hh : h.Live b)
    (hreach : r'.assignment.reachable b = true) : r.assignment.reachable b = true := by
  refine hi.reachable_of_flows hb hsettled harms
    (Relation.ReflTransGen.mono (fun s t hlead => ?_) _ _ (hr.reached hh hreach))
  obtain ⟨hlive, ⟨x, hx, hop⟩, e, he, htaken, hblock⟩ := hlead
  have helive : h.Live e := hr.operands_live hlive hx e (by rwa [← Graph.operands_eq hx])
  refine ⟨hlive, ⟨_, Graph.shape?_eq hx, hop⟩, e, he, ?_, hr.used e helive, hblock⟩
  -- Dead control is never taken.
  rintro rfl
  obtain ⟨c, ⟨z, hz, -, hpass⟩, -⟩ := hr.passes helive htaken
  obtain ⟨w, hw, hwop, -⟩ := hb.anchor (n := Anchor.bad) rfl (by decide)
  obtain ⟨v, hv, hvop, -⟩ := hi.exists_same hw (hr.used _ helive)
  rw [Graph.shape?_eq hz] at hv
  cases hv
  have hzop : z.op = .bad := hvop.trans hwop
  rcases hpass with hop' | hop' | ⟨side, hop', -⟩ <;> cases hzop.symm.trans hop'

end Image

end SeaOfNodes
