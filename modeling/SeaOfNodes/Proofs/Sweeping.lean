import SeaOfNodes.Proofs.Faults
import SeaOfNodes.Proofs.Image

/-!
The first half of a round of cleaning up, on any graph.

It is a sequence of steps of three kinds (`Cleanup.Sweep`): a dead predecessor is dropped with the
operands of the phis that belong to it, a phi is exchanged with the one operand it has left, or
stale keep-alives are dropped. What each kind of step keeps, the half keeps. As a whole it leaves
every live block with those of its predecessors that are not dead, and no phi that combines nothing
in a block with one predecessor (`Cleanup.Swept`).

All that is asked of the graph is that its blocks stand in no block and have no phi among their
predecessors (`Cleanup.Orderly`), so that exchanging phis takes no predecessor away.
-/

namespace SeaOfNodes

open Rewriting

namespace Graph

/-- Control can pass from the block `s` to the block `t`, which is one of the nodes `A`. -/
def FlowsAmong (A : NodeId → Prop) (g : Graph) (s t : NodeId) : Prop :=
  A t ∧ (∃ x, g.shape? t = some x ∧ x.op = .block) ∧
    ∃ p ∈ g.operands t, p ≠ Anchor.bad ∧ g.isRetired p = false ∧ g.blockOf p = some s

/-- Control can pass from the block `s` to the live block `t`. -/
def Flows (g : Graph) : NodeId → NodeId → Prop := FlowsAmong g.Live g

/-- Control can reach every live block but the exit block. -/
def Connected (g : Graph) : Prop :=
  ∀ b x, g.Live b → g.shape? b = some x → x.op = .block → b ≠ Anchor.endBlock →
    Relation.ReflTransGen g.Flows Anchor.startBlock b

end Graph

namespace Cleanup

variable {A : NodeId → Prop} {d d' : Draft} {h₀ h h' : Graph} {blocks : List NodeId}
  {members : IdMap (List NodeId)}

/-! ### Orderly graphs -/

/-- Among the nodes `A`, which hold everything live, blocks stand in no block and have no phi among
their predecessors. -/
structure Orderly (A : NodeId → Prop) (h : Graph) : Prop where
  mirrored : h.Mirrored
  anchor : ∀ n x, (Graph.new "" 0).shape? n = some x → ∃ y, h.shape? n = some y ∧ x.Keeps y
  confined : Confined A h
  outermost : ∀ b y, A b → h.shape? b = some y → y.op = .block → y.block = none
  predecessor : ∀ b y, A b → h.shape? b = some y → y.op = .block →
    ∀ p ∈ y.operands, ∀ z, h.shape? p = some z → z.op ≠ .phi

theorem Orderly.of_built (hbuilt : h.Built)
    (houter : ∀ b y, h.Live b → h.shape? b = some y → y.op = .block → y.block = none)
    (hpred : ∀ b y, h.Live b → h.shape? b = some y → y.op = .block →
      ∀ p ∈ y.operands, ∀ z, h.shape? p = some z → z.op ≠ .phi) : Orderly h.Live h :=
  ⟨hbuilt.mirrored, fun _ _ hx => hbuilt.keeps_anchor hx, .of_live h, houter, hpred⟩

/-- It is enough to look at what is live. -/
theorem Orderly.restrict (ho : Orderly A h) : Orderly h.Live h where
  mirrored := ho.mirrored
  anchor := ho.anchor
  confined := .of_live h
  outermost b y hb := ho.outermost b y (ho.confined.live hb)
  predecessor b y hb := ho.predecessor b y (ho.confined.live hb)

/-- Where the stop node keeps its place, nothing of another kind stands there. -/
theorem ne_stop_of_keeps {x : Shape} (hx : x.op = .stop)
    (hanchor : ∃ z, h.shape? Anchor.stop = some z ∧ x.Keeps z) {n : NodeId} {y : Shape}
    (hy : h.shape? n = some y) (hstop : y.op ≠ .stop) (hret : y.op ≠ .retired) :
    n ≠ Anchor.stop := by
  rintro rfl
  obtain ⟨z, hz, hkeep⟩ := hanchor
  rw [hy] at hz
  cases hz
  exact hkeep.op.elim (fun hop => hstop (hop.trans hx)) hret

theorem Orderly.ne_stop (ho : Orderly A h) {n : NodeId} {y : Shape} (hy : h.shape? n = some y)
    (hstop : y.op ≠ .stop) (hret : y.op ≠ .retired) : n ≠ Anchor.stop :=
  ne_stop_of_keeps rfl (ho.anchor Anchor.stop _ rfl) hy hstop hret

theorem Orderly.lt_size_of_anchor (ho : Orderly A h) {n : NodeId} {x : Shape}
    (hx : (Graph.new "" 0).shape? n = some x) : n < h.size := by
  obtain ⟨y, hy, -⟩ := ho.anchor n x hx
  exact Graph.lt_size_of_shape? hy

/-- What is live is in the arena. -/
theorem Orderly.lt_size (ho : Orderly A h) {n : NodeId} (hn : h.Live n) : n < h.size :=
  hn.lt_size (ho.lt_size_of_anchor rfl)

theorem Orderly.trim {cut : NodeId → List NodeId → List NodeId} (ho : Orderly A h)
    (hc : Trims h h' cut) : Orderly A h' := by
  have hback {n : NodeId} {z : Shape} (hz : h'.shape? n = some z) :
      ∃ y, h.shape? n = some y ∧ z = { y with operands := cut n y.operands } := by
    rw [hc.shape] at hz
    obtain ⟨y, hy, rfl⟩ := Option.map_eq_some_iff.mp hz
    exact ⟨y, hy, rfl⟩
  refine ⟨hc.mirrored, fun n x hx => ?_, ho.confined.trim hc, fun b z hb hz hop => ?_,
    fun b z hb hz hop p hp w hw => ?_⟩
  · obtain ⟨y, hy, hkeep⟩ := ho.anchor n x hx
    obtain ⟨z, hz, hkeep'⟩ := hc.descends n y hy
    exact ⟨z, hz, hkeep.trans hkeep'⟩
  · obtain ⟨y, hy, rfl⟩ := hback hz
    exact ho.outermost b y hb hy hop
  · obtain ⟨y, hy, rfl⟩ := hback hz
    obtain ⟨v, hv, rfl⟩ := hback hw
    exact ho.predecessor b y hb hy hop p ((hc.sublist b y.operands).subset hp) v hv

/-- Retiring nodes and moving edges keeps a graph orderly, if edges to nodes that are gone move
within `A`, and those that enter blocks to no phi. -/
theorem Orderly.contract {gone : NodeId → Prop} {move : NodeId → NodeId} (ho : Orderly A h)
    (hc : Contracts h h' gone move)
    (hmove : ∀ n m, A n → m ∈ h.operands n → gone m → h'.isRetired (move m) = false → A (move m))
    (hpred : ∀ b y p, A b → h.shape? b = some y → y.op = .block → p ∈ y.operands → gone p →
      ∀ z, h'.shape? (move p) = some z → z.op ≠ .phi) : Orderly A h' := by
  refine ⟨hc.mirrored, fun n x hx => ?_, ho.confined.contract hc hmove, fun b z hb hz hop => ?_,
    fun b z hb hz hop p hp w hw hphi => ?_⟩
  · obtain ⟨y, hy, hkeep⟩ := ho.anchor n x hx
    obtain ⟨z, hz, hkeep'⟩ := hc.descends n y hy
    exact ⟨z, hz, hkeep.trans hkeep'⟩
  · obtain ⟨-, y, hy, rfl⟩ := hc.back hz (by simp [hop])
    exact ho.outermost b y hb hy hop
  · obtain ⟨-, y, hy, rfl⟩ := hc.back hz (by simp [hop])
    obtain ⟨q, hq, rfl⟩ := List.mem_map.mp hp
    by_cases hgone : gone q
    · exact hpred b y q hb hy hop hq hgone w hw hphi
    · rw [hc.stays q hgone] at hw
      obtain ⟨-, v, hv, rfl⟩ := hc.back hw (by simp [hphi])
      exact ho.predecessor b y hb hy hop q hq v hv hphi

/-! ### Steps -/

/-- One step of the first half of a round, in which `A` are the nodes that were live when the round
began. -/
inductive Sweep (A : NodeId → Prop) (t : Graph) : Graph → Prop where
  | dropEdge {t' : Graph} {b p : NodeId} {phis : List NodeId} {i : Nat} {w : Shape} : A b →
    t.shape? b = some w → w.op = .block → w.operands[i]? = some p →
    p = Anchor.bad ∨ t.isRetired p = true →
    (∀ n ∈ phis, ∃ y, t.shape? n = some y ∧ y.op = .phi ∧ y.block = some b) →
    (∀ n y, A n → t.shape? n = some y → y.op = .phi → y.block = some b → n ∈ phis) →
    Trims t t' (dropAt b phis i) → Sweep A t t'
  | mergePhi {t' : Graph} {n value : NodeId} {y : Shape} : A n → t.shape? n = some y →
    y.op = .phi → y.operands = [value] →
    (∀ b, y.block = some b → Relation.ReflTransGen (t.FlowsAmong A) Anchor.startBlock b) →
    n ≠ value → t.exchange n value = .ok t' → Sweep A t t'
  | dropKeepAlives {t' : Graph} {cut : NodeId → List NodeId → List NodeId} : Trims t t' cut →
    (∀ n, n ≠ Anchor.stop → ∀ l, cut n l = l) → Sweep A t t'

/-- A step keeps a graph orderly. -/
theorem Orderly.sweep (ho : Orderly A h) (hstep : Sweep A h h') : Orderly A h' := by
  cases hstep with
  | dropEdge _ _ _ _ _ _ _ htrim => exact ho.trim htrim
  | dropKeepAlives htrim _ => exact ho.trim htrim
  | @mergePhi n value y hn hy hop hops _ hne hex =>
    have hc := Contracts.of_exchange ho.mirrored hne hex
    refine ho.contract hc ?_ ?_
    · rintro u m - - rfl hused
      rw [if_pos rfl] at hused ⊢
      refine ho.confined.closed m value hn ⟨Graph.mem_inputs.mpr ⟨y, hy, .inr ?_⟩, ?_⟩
      · rw [hops]
        exact List.mem_singleton_self value
      · rwa [hc.isRetired fun heq => hne heq.symm] at hused
    · rintro b w p hb hw hwop hp rfl z -
      exact absurd hop (ho.predecessor b w hb hw hwop p hp y hy)

theorem Sweep.descends (hm : h.Mirrored) (hstep : Sweep A h h') : Descends h h' := by
  cases hstep with
  | dropEdge _ _ _ _ _ _ _ htrim => exact htrim.descends
  | dropKeepAlives htrim _ => exact htrim.descends
  | mergePhi _ _ _ _ _ hne hex => exact (Contracts.of_exchange hm hne hex).descends

theorem Orderly.sweeps (ho : Orderly A h) (hsteps : Relation.ReflTransGen (Sweep A) h h') :
    Orderly A h' := by
  induction hsteps with
  | refl => exact ho
  | tail _ hlast ih => exact ih.sweep hlast

theorem isDead_congr {n : NodeId} (hn : h'.isRetired n = h.isRetired n) :
    isDead h' n = isDead h n := by
  rw [isDead, isDead, hn]

/-! ### Positions -/

/-- The positions of a list that are left, when those from `i` on were looked at and kept if `p`
holds of the element. -/
def leftFrom {α : Type} (p : α → Bool) (l : List α) (i : Nat) : List Nat :=
  List.range i ++ (l.drop i).findIdxs p i

section positions

variable {α : Type} {p : α → Bool} {l : List α} {i : Nat}

theorem leftFrom_length (p : α → Bool) (l : List α) :
    leftFrom p l l.length = List.range l.length := by
  simp [leftFrom]

theorem leftFrom_zero (p : α → Bool) (l : List α) : leftFrom p l 0 = l.findIdxs p := by
  simp [leftFrom]

theorem lt_length_of_mem_leftFrom (hi : i ≤ l.length) {k : Nat} (hk : k ∈ leftFrom p l i) :
    k < l.length := by
  rcases List.mem_append.mp hk with hk | hk
  · have := List.mem_range.mp hk
    omega
  · have := List.lt_add_of_mem_findIdxs k hk
    rw [List.length_drop] at this
    omega

theorem leftFrom_succ (p : α → Bool) (l : List α) (i : Nat) :
    leftFrom p l (i + 1) = List.range i ++ i :: (l.drop (i + 1)).findIdxs p (i + 1) := by
  rw [leftFrom, List.range_succ, List.append_assoc]
  rfl

/-- A position that is still to be looked at is left, in its own place. -/
theorem getElem?_leftFrom_succ (p : α → Bool) (l : List α) (i : Nat) :
    (leftFrom p l (i + 1))[i]? = some i := by
  rw [leftFrom_succ, List.getElem?_append_right (by simp), List.length_range, Nat.sub_self]
  rfl

theorem leftFrom_of_keep (hi : i < l.length) (hp : p l[i] = true) :
    leftFrom p l i = leftFrom p l (i + 1) := by
  rw [leftFrom_succ, leftFrom, List.drop_eq_getElem_cons hi, List.findIdxs_cons, if_pos hp]

theorem leftFrom_of_drop (hi : i < l.length) (hp : p l[i] = false) :
    leftFrom p l i = (leftFrom p l (i + 1)).eraseIdx i := by
  rw [leftFrom_succ, leftFrom, List.drop_eq_getElem_cons hi, List.findIdxs_cons,
    if_neg (by simp [hp]), List.eraseIdx_append_of_length_le (by simp), List.length_range,
    Nat.sub_self]
  rfl

theorem pick_findIdxs (p : α → Bool) (l : List α) : pick l (l.findIdxs p) = l.filter p := by
  induction l with
  | nil => rfl
  | cons a l ih =>
    -- The positions in the tail are those of the tail, one further.
    have htail : pick (a :: l) (l.findIdxs p 1) = l.filter p := by
      rw [← ih, List.findIdxs_start, pick, List.filterMap_map]
      rfl
    rw [List.findIdxs_cons, List.filter_cons]
    split
    · rw [pick_cons (Nat.zero_lt_succ _), htail]
      rfl
    · exact htail

end positions

/-! ### Dead edges -/

/-- The positions of the predecessors of `b` that are not dead, in ascending order. -/
def openPositions (g : Graph) (b : NodeId) : List Nat :=
  (g.operands b).findIdxs fun p => !isDead g p

/-- `n` is a live phi of the block `b`. -/
def PhiOf (g : Graph) (b n : NodeId) : Prop :=
  g.Live n ∧ ∃ y, g.shape? n = some y ∧ y.op = .phi ∧ y.block = some b

/-- What dropping dead edges into the block `b` has made of `s`, when the positions from `i` on were
looked at. The phis that began with one operand for each predecessor lose the same positions. -/
structure Dropped (h₀ : Graph) (b : NodeId) (s : Draft × Nat) (i : Nat) (t : Draft × Nat) : Prop where
  sweeps : Relation.ReflTransGen (Sweep h₀.Live) s.1.graph t.1.graph
  trims : ∃ cut, Trims s.1.graph t.1.graph cut
  kept : ∀ n, n = b ∨ PhiOf h₀ b n ∧
      (s.1.graph.operands n).length = (s.1.graph.operands b).length →
    t.1.graph.operands n =
      pick (s.1.graph.operands n) (leftFrom (fun p => !isDead h₀ p) (s.1.graph.operands b) i)
  other : ∀ n, n ≠ b → ¬ PhiOf h₀ b n → t.1.graph.operands n = s.1.graph.operands n
  count : t.2 = s.2 + ((s.1.graph.operands b).drop i).countP (isDead h₀)

/-- One position is looked at. -/
theorem Dropped.step {s t t' : Draft × Nat} {b : NodeId} {i : Nat} {phis : List NodeId}
    {cut : NodeId → List NodeId → List NodeId} (hd : Dropped h₀ b s (i + 1) t)
    (hcut : Trims h₀ s.1.graph cut) (hlive : h₀.Live b) {w : Shape} (hw : h₀.shape? b = some w)
    (hwop : w.op = .block) (hnodup : phis.Nodup) (hphis : ∀ n, n ∈ phis ↔ PhiOf h₀ b n)
    (hi : i < (s.1.graph.operands b).length) (h : dropDeadEdge b phis t i = .ok t') :
    Dropped h₀ b s i t' := by
  obtain ⟨cut', hcut'⟩ := hd.trims
  have hnow := hcut.trans hcut'
  have hdeadsame (p : NodeId) : isDead t.1.graph p = isDead h₀ p := isDead_congr (hnow.isRetired p)
  have hb : b ∉ phis := by
    intro hmem
    obtain ⟨-, y, hy, hop, -⟩ := (hphis b).mp hmem
    cases hw.symm.trans hy
    cases hwop.symm.trans hop
  have hin {n : NodeId} (hn : n = b ∨ PhiOf h₀ b n ∧
      (s.1.graph.operands n).length = (s.1.graph.operands b).length) :
      ∀ k ∈ leftFrom (fun p => !isDead h₀ p) (s.1.graph.operands b) (i + 1),
        k < (s.1.graph.operands n).length := by
    intro k hk
    rcases hn with rfl | ⟨-, hlen⟩
    · exact lt_length_of_mem_leftFrom hi hk
    · exact hlen ▸ lt_length_of_mem_leftFrom hi hk
  have hdrop := List.drop_eq_getElem_cons hi
  obtain ⟨p, hat, hcase⟩ := dropDeadEdge_eq_ok hcut'.mirrored hnodup hb h
  -- Position `i` has not moved yet.
  obtain rfl : (s.1.graph.operands b)[i] = p := by
    rw [hd.kept b (.inl rfl), getElem?_pick (hin (.inl rfl)), getElem?_leftFrom_succ] at hat
    exact Option.some.inj ((List.getElem?_eq_getElem hi).symm.trans hat)
  rcases hcase with ⟨heq, halive, hcount⟩ | ⟨htrim, hdead, hcount⟩
  · rw [hdeadsame] at halive
    have hleft := leftFrom_of_keep (p := fun p => !isDead h₀ p) hi (by simp [halive])
    refine ⟨heq ▸ hd.sweeps, heq ▸ hd.trims, fun n hn => ?_, fun n hn hphi => ?_, ?_⟩
    · rw [heq, hleft, hd.kept n hn]
    · rw [heq, hd.other n hn hphi]
    · rw [hcount, hd.count, hdrop, List.countP_cons_of_neg (by simp [halive])]
  · have hat' := hdead
    rw [hdeadsame] at hdead
    have hleft := leftFrom_of_drop (p := fun p => !isDead h₀ p) hi (by simp [hdead])
    refine ⟨hd.sweeps.tail (.dropEdge hlive (hnow.some hw) hwop ?_ (isDead_iff.mp hat') ?_ ?_ htrim),
      ⟨_, hcut'.trans htrim⟩, fun n hn => ?_, fun n hn hphi => ?_, ?_⟩
    · rw [← hat, Graph.operands_eq_of_shape (hnow.some hw)]
    · intro n hn
      obtain ⟨-, y, hy, hkind⟩ := (hphis n).mp hn
      exact ⟨_, hnow.some hy, hkind⟩
    · intro n y hn hy hyop hyb
      rw [hnow.shape] at hy
      obtain ⟨z, hz, rfl⟩ := Option.map_eq_some_iff.mp hy
      exact (hphis n).mpr ⟨hn, z, hz, hyop, hyb⟩
    · rw [htrim.operands_eq, dropAt, if_pos (hn.imp id fun h => (hphis n).mpr h.1), hd.kept n hn,
        hleft, pick_eraseIdx (hin hn)]
    · rw [htrim.operands_eq, dropAt_of_not_mem hn (fun hmem => hphi ((hphis n).mp hmem)),
        hd.other n hn hphi]
    · rw [hcount, hd.count, hdrop, List.countP_cons_of_pos hdead]
      rfl

/-- Dropping the dead edges into one block. -/
theorem dropDeadEdges_eq_ok (hs : Survey h₀ blocks members) {b : NodeId} (hmem : b ∈ blocks)
    {s s' : Draft × Nat} (hcut : ∃ cut, Trims h₀ s.1.graph cut)
    (h : dropDeadEdges members s b = .ok s') : Dropped h₀ b s 0 s' := by
  obtain ⟨phis, hselect, h⟩ := bind_eq_ok.mp h
  obtain ⟨x, hx, h⟩ := bind_eq_ok.mp h
  obtain ⟨cut, hcut⟩ := hcut
  have ⟨hnodup, hphis⟩ := hs.select_phis hcut hselect
  obtain ⟨hlive, w, hw, hwop⟩ := (hs.mem_blocks b).mp hmem
  rw [← Graph.operands_eq (Graph.node_eq_ok hx)] at h
  refine foldlM_reverse_range_eq_ok h ⟨.refl, ⟨_, .refl hcut.mirrored⟩, fun n hn => ?_,
    fun _ _ _ => rfl, by simp⟩ fun i t t' hi ht hturn =>
      ht.step hcut hlive hw hwop hnodup hphis hi hturn
  have hlen : (s.1.graph.operands n).length = (s.1.graph.operands b).length := by
    rcases hn with rfl | ⟨-, hlen⟩
    · rfl
    · exact hlen
  rw [leftFrom_length, ← hlen, pick_range]

/-- What dropping dead edges has made of `h₀`, when the edges into the blocks `done` were dropped. -/
structure Cleared (h₀ : Graph) (k : Nat) (done : List NodeId) (t : Draft × Nat) : Prop where
  sweeps : Relation.ReflTransGen (Sweep h₀.Live) h₀ t.1.graph
  trims : ∃ cut, Trims h₀ t.1.graph cut
  kept : ∀ b ∈ done, ∀ n, n = b ∨ PhiOf h₀ b n ∧
      (h₀.operands n).length = (h₀.operands b).length →
    t.1.graph.operands n = pick (h₀.operands n) (openPositions h₀ b)
  other : ∀ n, (∀ b ∈ done, n ≠ b ∧ ¬ PhiOf h₀ b n) → t.1.graph.operands n = h₀.operands n
  count : t.2 = k + (done.map fun b => (h₀.operands b).countP (isDead h₀)).sum

/-- A node belongs to one block only. -/
theorem PhiOf.unique {b c n : NodeId} (hb : PhiOf h₀ b n) (hc : PhiOf h₀ c n) : b = c := by
  obtain ⟨-, y, hy, -, hyb⟩ := hb
  obtain ⟨-, z, hz, -, hzc⟩ := hc
  cases hy.symm.trans hz
  exact Option.some.inj (hyb.symm.trans hzc)

theorem PhiOf.ne_block {b c n : NodeId} (hb : PhiOf h₀ b n)
    (hc : ∃ y, h₀.shape? c = some y ∧ y.op = .block) : n ≠ c := by
  rintro rfl
  obtain ⟨-, y, hy, hop, -⟩ := hb
  obtain ⟨z, hz, hzop⟩ := hc
  cases hy.symm.trans hz
  cases hop.symm.trans hzop

/-- The dead edges into one more block are dropped. -/
theorem Cleared.step {k : Nat} {done : List NodeId} {t t' : Draft × Nat} {b : NodeId}
    (hc : Cleared h₀ k done t) (hblock : ∀ c ∈ b :: done, ∃ y, h₀.shape? c = some y ∧ y.op = .block)
    (hb : b ∉ done) (hd : Dropped h₀ b t 0 t') : Cleared h₀ k (done ++ [b]) t' := by
  obtain ⟨cut, hcut⟩ := hc.trims
  obtain ⟨cut', hcut'⟩ := hd.trims
  -- Nothing was done yet to the block or to its phis.
  have hbefore {n : NodeId} (hn : n = b ∨ PhiOf h₀ b n) :
      t.1.graph.operands n = h₀.operands n := by
    refine hc.other n fun c hmem => ?_
    have hne : c ≠ b := fun heq => hb (heq ▸ hmem)
    rcases hn with rfl | hphi
    · exact ⟨hne.symm, fun hphi => hphi.ne_block (hblock n List.mem_cons_self) rfl⟩
    · exact ⟨hphi.ne_block (hblock c (List.mem_cons_of_mem b hmem)),
        fun hphi' => hne (hphi'.unique hphi)⟩
  have hpreds : t.1.graph.operands b = h₀.operands b := hbefore (.inl rfl)
  refine ⟨hc.sweeps.trans hd.sweeps, ⟨_, hcut.trans hcut'⟩, fun c hmem n hn => ?_, fun n hn => ?_,
    ?_⟩
  · rcases List.mem_append.mp hmem with hmem | hmem
    · have hne : c ≠ b := fun heq => hb (heq ▸ hmem)
      rw [hd.other n ?_ ?_, hc.kept c hmem n hn]
      · rcases hn with rfl | ⟨hphi, -⟩
        · exact hne
        · exact hphi.ne_block (hblock b List.mem_cons_self)
      · intro hphi
        rcases hn with rfl | ⟨hphi', -⟩
        · exact hphi.ne_block (hblock n (List.mem_cons_of_mem b hmem)) rfl
        · exact hne (hphi'.unique hphi)
    · obtain rfl := List.mem_singleton.mp hmem
      have hsame := hbefore (hn.imp id And.left)
      rw [hd.kept n (hn.imp id fun h => ⟨h.1, by rw [hsame, hpreds, h.2]⟩), leftFrom_zero, hsame,
        hpreds]
      rfl
  · rw [hd.other n (hn b (by simp)).1 (hn b (by simp)).2,
      hc.other n fun c hmem => hn c (List.mem_append_left _ hmem)]
  · rw [hd.count, hc.count, List.drop_zero, hpreds, List.map_append, List.sum_append]
    simp [Nat.add_assoc]

/-- Dropping the dead edges into all blocks. -/
theorem dropAllDeadEdges_eq_ok (hs : Survey d.graph blocks members) (hm : d.graph.Mirrored)
    {k : Nat} {s : Draft × Nat} (h : blocks.foldlM (dropDeadEdges members) (d, k) = .ok s) :
    Cleared d.graph k blocks s := by
  refine foldlM_eq_ok (I := fun done t => Cleared d.graph k done t) h
    ⟨.refl, ⟨_, .refl hm⟩, by simp, fun _ _ => rfl, rfl⟩ fun done b rest t t' hsplit ht hturn => ?_
  have hslot : ∀ c ∈ b :: done, ∃ y, d.graph.shape? c = some y ∧ y.op = .block := by
    intro c hc
    exact ((hs.mem_blocks c).mp (by rw [hsplit]; grind)).2
  refine ht.step hslot ?_ (dropDeadEdges_eq_ok hs (by simp [hsplit]) ht.trims hturn)
  have hdistinct := hs.distinct
  rw [hsplit] at hdistinct
  exact fun hmem => (List.nodup_append.mp hdistinct).2.2 b hmem b List.mem_cons_self rfl

/-! ### Phis that combine nothing -/

/-- What was done to `h` while phis were merged. -/
structure Merging (h₀ h t : Graph) : Prop where
  sweeps : Relation.ReflTransGen (Sweep h₀.Live) h t
  orderly : Orderly h₀.Live t
  descends : Descends h t
  used : ∀ n y, h.shape? n = some y → y.op ≠ .phi → t.isRetired n = h.isRetired n
  block : ∀ b y, h₀.Live b → h.shape? b = some y → y.op = .block → t.operands b = h.operands b

theorem Merging.refl (ho : Orderly h₀.Live h) : Merging h₀ h h :=
  ⟨.refl, ho, .refl h, fun _ _ _ _ => rfl, fun _ _ _ _ _ => rfl⟩

/-- Blocks stay blocks. -/
theorem Merging.exists_block {t : Graph} (hm : Merging h₀ h t) {b : NodeId} {y : Shape}
    (hy : h.shape? b = some y) (hop : y.op = .block) :
    ∃ z, t.shape? b = some z ∧ z.op = .block := by
  obtain ⟨z, hz, hkeep⟩ := hm.descends b y hy
  have hused : t.isRetired b = false := by
    rw [hm.used b y hy (by simp [hop])]
    exact Graph.isRetired_eq_false_iff.mpr ⟨y, hy, by simp [hop]⟩
  rcases hkeep.op with heq | heq
  · exact ⟨z, hz, heq.trans hop⟩
  · exact absurd ⟨z, hz, heq⟩ (Graph.not_removed hused)

/-- Control passes between blocks as before. -/
theorem Merging.flows {t : Graph} (hm : Merging h₀ h t) (ho : Orderly h₀.Live h) {s b : NodeId}
    (hflow : h.FlowsAmong h₀.Live s b) : t.FlowsAmong h₀.Live s b := by
  obtain ⟨hlive, ⟨y, hy, hop⟩, p, hp, hbad, hused, hblock⟩ := hflow
  obtain ⟨w, hw, -⟩ := Graph.exists_shape hused
  have hphi : w.op ≠ .phi := by
    rw [Graph.operands_eq_of_shape hy] at hp
    exact ho.predecessor b y hlive hy hop p hp w hw
  refine ⟨hlive, hm.exists_block hy hop, p, ?_, hbad, ?_, ?_⟩
  · rwa [hm.block b y hlive hy hop]
  · rw [hm.used p w hw hphi, hused]
  · obtain ⟨z, hz, hkeep⟩ := hm.descends p w hw
    rw [Graph.blockOf_of_shape hz, hkeep.block, ← Graph.blockOf_of_shape hw, hblock]

theorem Merging.exchange {t t' : Graph} {n value : NodeId} {x : Shape} (hm : Merging h₀ h t)
    (hn : h₀.Live n) (hx : t.shape? n = some x) (hop : x.op = .phi) (hops : x.operands = [value])
    (hreach : ∀ b, x.block = some b →
      Relation.ReflTransGen (t.FlowsAmong h₀.Live) Anchor.startBlock b)
    (hne : n ≠ value) (hex : t.exchange n value = .ok t') :
    Merging h₀ h t' ∧ Combines t' n ∧ ∀ m, Combines t m → Combines t' m := by
  have hstep := Sweep.mergePhi hn hx hop hops hreach hne hex
  have hc := Contracts.of_exchange hm.orderly.mirrored hne hex
  have hother {m : NodeId} {y : Shape} (hy : h.shape? m = some y) (hyop : y.op ≠ .phi) :
      m ≠ n := by
    rintro rfl
    obtain ⟨z, hz, hkeep⟩ := hm.descends m y hy
    rw [hx] at hz
    cases hz
    rcases hkeep.op with heq | heq
    · exact hyop (heq.symm.trans hop)
    · cases hop.symm.trans heq
  refine ⟨⟨hm.sweeps.tail hstep, hm.orderly.sweep hstep, hm.descends.trans hc.descends,
    fun m y hy hyop => ?_, fun b y hlive hy hyop => ?_⟩, fun y hy hyop => ?_,
    fun m hcomb y hy hyop v hv => ?_⟩
  · rw [hc.isRetired (hother hy hyop), hm.used m y hy hyop]
  · obtain ⟨z, hz, hzop⟩ := hm.exists_block hy hyop
    rw [← hm.block b y hlive hy hyop, Graph.operands_eq_of_shape hz,
      Graph.operands_eq_of_shape (hc.shape (hother hy (by simp [hyop])) hz)]
    refine (List.map_congr_left fun p hp => if_neg ?_).trans (List.map_id _)
    rintro rfl
    exact hm.orderly.predecessor b z hlive hz hzop p hp x hx hop
  · exact absurd rfl (hc.back hy (by simp [hyop])).1
  · obtain ⟨hgone, z, hz, rfl⟩ := hc.back hy (by simp [hyop])
    obtain ⟨o, ho, hov⟩ := List.map_eq_singleton_iff.mp hv
    obtain rfl := hcomb z hz hyop o ho
    rw [if_neg hgone] at hov
    exact hov.symm

theorem Merging.mergePhi {s s' : Draft × Nat} {n : NodeId} (hm : Merging h₀ h s.1.graph)
    (hn : h₀.Live n)
    (hreach : ∀ b, s.1.graph.blockOf n = some b →
      Relation.ReflTransGen (s.1.graph.FlowsAmong h₀.Live) Anchor.startBlock b)
    (hturn : mergePhi s n = .ok s') :
    Merging h₀ h s'.1.graph ∧ Combines s'.1.graph n ∧
      ∀ m, Combines s.1.graph m → Combines s'.1.graph m := by
  rcases mergePhi_eq_ok hturn with ⟨rfl, hcomb⟩ | ⟨x, value, hx, hop, hops, hne, hex, -⟩
  · exact ⟨hm, hcomb, fun _ h => h⟩
  · have hx := Graph.shape?_eq hx
    exact hm.exchange hn hx hop hops (fun b hb => hreach b ((Graph.blockOf_of_shape hx).trans hb))
      hne hex

theorem Merging.mergePhis (hs : Survey h₀ blocks members) {reachable : BitSet}
    {s s' : Draft × Nat} {b : NodeId} (hm : Merging h₀ h s.1.graph) (ho : Orderly h₀.Live h)
    (hdesc : Descends h₀ h) (hmem : b ∈ blocks)
    (hslot : ∃ y, h.shape? b = some y ∧ y.op = .block)
    (hreach : reachable.contains b = true →
      Relation.ReflTransGen (h.FlowsAmong h₀.Live) Anchor.startBlock b)
    (hturn : mergePhis members reachable s b = .ok s') :
    Merging h₀ h s'.1.graph ∧ (∀ m, Combines s.1.graph m → Combines s'.1.graph m) ∧
      (reachable.contains b = true → (h.operands b).length = 1 →
        ∀ n ∈ members.filed b, Combines s'.1.graph n) := by
  obtain ⟨x, hx, hturn⟩ := bind_eq_ok.mp hturn
  obtain ⟨y, hy, hyop⟩ := hslot
  have hops := hm.block b y ((hs.mem_blocks b).mp hmem).1 hy hyop
  rw [Graph.operands_eq (Graph.node_eq_ok hx)] at hops
  split at hturn
  next hcond =>
    have hreach := hreach (Bool.and_eq_true_iff.mp hcond).1
    have hend := foldlM_eq_ok (I := fun done t => Merging h₀ h t.1.graph ∧
        (∀ m, Combines s.1.graph m → Combines t.1.graph m) ∧
        ∀ n ∈ done, Combines t.1.graph n) hturn ⟨hm, fun _ h => h, by simp⟩
      fun done n rest t t' hsplit ht hturn => by
        obtain ⟨hm, hkeep, hdone⟩ := ht
        obtain ⟨hn, y, hy, hyb⟩ := (hs.mem_members n b).mp (by simp [hsplit])
        have hblock : t.1.graph.blockOf n = some b := by
          obtain ⟨z, hz, hkeep⟩ := (hdesc.trans hm.descends) n y hy
          rw [Graph.blockOf_of_shape hz, hkeep.block, hyb]
        obtain ⟨hm', hcomb, hkeep'⟩ := hm.mergePhi hn (fun c hc => by
          rw [hblock] at hc
          cases hc
          exact Relation.ReflTransGen.mono (fun _ _ => hm.flows ho) _ _ hreach) hturn
        refine ⟨hm', fun m h => hkeep' m (hkeep m h), fun m hmem => ?_⟩
        rcases List.mem_append.mp hmem with hmem | hmem
        · exact hkeep' m (hdone m hmem)
        · obtain rfl := List.mem_singleton.mp hmem
          exact hcomb
    exact ⟨hend.1, hend.2.1, fun _ _ => hend.2.2⟩
  next hcond =>
    cases hturn
    refine ⟨hm, fun _ h => h, fun hreach hone => ?_⟩
    rw [hops, hreach, hone] at hcond
    exact absurd rfl hcond

/-- Merging the phis of all reachable blocks that have one predecessor. -/
theorem mergeAllPhis_eq_ok (hs : Survey h₀ blocks members) {reachable : BitSet}
    (ho : Orderly h₀.Live d.graph) (hdesc : Descends h₀ d.graph)
    (hreach : ∀ b, reachable.contains b = true →
      Relation.ReflTransGen (d.graph.FlowsAmong h₀.Live) Anchor.startBlock b)
    (hslot : ∀ b ∈ blocks, ∃ y, d.graph.shape? b = some y ∧ y.op = .block) {k k' : Nat}
    (h : blocks.foldlM (mergePhis members reachable) (d, k) = .ok (d', k')) :
    Merging h₀ d.graph d'.graph ∧
      ∀ b ∈ blocks, reachable.contains b = true → (d.graph.operands b).length = 1 →
        ∀ n ∈ members.filed b, Combines d'.graph n :=
  foldlM_eq_ok (I := fun done t => Merging h₀ d.graph t.1.graph ∧
      ∀ b ∈ done, reachable.contains b = true → (d.graph.operands b).length = 1 →
        ∀ n ∈ members.filed b, Combines t.1.graph n) h ⟨.refl ho, by simp⟩
    fun done b rest t t' hsplit ht hturn => by
      obtain ⟨hm, hdone⟩ := ht
      have hmem : b ∈ blocks := by simp [hsplit]
      obtain ⟨hm', hkeep, hcomb⟩ := hm.mergePhis hs ho hdesc hmem (hslot b hmem) (hreach b) hturn
      refine ⟨hm', fun c hc hreach hone n hn => ?_⟩
      rcases List.mem_append.mp hc with hc | hc
      · exact hkeep n (hdone c hc hreach hone n hn)
      · obtain rfl := List.mem_singleton.mp hc
        exact hcomb hreach hone n hn

/-! ### Keep-alives -/

theorem keptAlive_congr {l : List NodeId} (hl : ∀ n ∈ l, isDead h' n = isDead h n) :
    keptAlive h' l = keptAlive h l := by
  induction l with
  | nil => rfl
  | cons n later ih =>
    rw [keptAlive, keptAlive, hl n List.mem_cons_self,
      ih fun m hm => hl m (List.mem_cons_of_mem n hm)]

/-- Looking for stale keep-alives twice finds none the second time. -/
theorem keptAlive_keptAlive (h : Graph) (l : List NodeId) :
    keptAlive h (keptAlive h l) = keptAlive h l := by
  induction l with
  | nil => rfl
  | cons n later ih =>
    by_cases hn : isDead h n || later.contains n
    · rw [keptAlive, if_pos hn, ih]
    · have hn' := hn
      simp only [Bool.or_eq_true, List.contains_eq_mem, decide_eq_true_eq, not_or] at hn'
      have hout : n ∉ keptAlive h later := fun hmem => hn'.2 (mem_keptAlive.mp hmem).1
      rw [keptAlive, if_neg hn, keptAlive, if_neg, ih]
      simp [hn'.1, hout]

/-- Dropping stale keep-alives changes the stop node only. -/
theorem dropKeepAlives_frame (hm : d.graph.Mirrored) {k : Nat}
    (h : dropKeepAlives d = .ok (d', k)) {n : NodeId} (hn : n ≠ Anchor.stop) :
    d'.graph.shape? n = d.graph.shape? n := by
  obtain ⟨cut, hcut, hother, -⟩ := dropKeepAlives_eq_ok hm h
  rw [hcut.shape]
  cases d.graph.shape? n with
  | none => rfl
  | some y => rw [Option.map_some, hother n hn]

theorem dropKeepAlives_sweep (ho : Orderly A d.graph) {k : Nat}
    (h : dropKeepAlives d = .ok (d', k)) :
    Sweep A d.graph d'.graph ∧ Descends d.graph d'.graph ∧
      (∀ n, d'.graph.isRetired n = d.graph.isRetired n) ∧
      (∀ n, n ≠ Anchor.stop → d'.graph.shape? n = d.graph.shape? n) ∧
      keptAlive d'.graph (d'.graph.operands Anchor.stop) = d'.graph.operands Anchor.stop := by
  obtain ⟨cut, hcut, hother, hstop⟩ := dropKeepAlives_eq_ok ho.mirrored h
  refine ⟨.dropKeepAlives hcut hother, hcut.descends, hcut.isRetired,
    fun _ => dropKeepAlives_frame ho.mirrored h, ?_⟩
  obtain ⟨y, hy, -⟩ := ho.anchor Anchor.stop _ rfl
  rw [Graph.operands_eq_of_shape (hcut.some hy), hstop y hy,
    keptAlive_congr (h := d.graph) fun n _ => isDead_congr (hcut.isRetired n),
    keptAlive_keptAlive]

/-! ### The half as a whole -/

/-- What the first half of a round does to a graph. -/
structure Swept (h₀ h₁ : Graph) : Prop where
  descends : Descends h₀ h₁
  used : ∀ n y, h₀.shape? n = some y → y.op ≠ .phi → h₁.isRetired n = h₀.isRetired n
  block : ∀ b y, h₀.Live b → h₀.shape? b = some y → y.op = .block →
    h₁.operands b = y.operands.filter fun p => !isDead h₀ p
  phi : ∀ n b y z, h₀.Live n → h₀.shape? n = some y → y.block = some b → h₀.Live b →
    h₀.shape? b = some z → z.op = .block →
    Relation.ReflTransGen h₁.Flows Anchor.startBlock b → (h₁.operands b).length = 1 →
    Combines h₁ n
  keepAlive : keptAlive h₁ (h₁.operands Anchor.stop) = h₁.operands Anchor.stop

theorem Survey.follows_iff (hs : Survey h blocks members) {s t : NodeId} :
    h.Follows blocks s t ↔ h.Flows s t := by
  rw [Graph.Follows, hs.mem_blocks, Graph.Flows, Graph.FlowsAmong, and_assoc]

theorem used_of_descends (hd : Descends h h') {n : NodeId} (hn : n < h.size)
    (hused : h'.isRetired n = false) : h.isRetired n = false := by
  obtain ⟨x, hx⟩ := Graph.exists_node_of_lt hn
  refine Graph.isRetired_eq_false.mpr ⟨x, hx, fun hop => ?_⟩
  exact Graph.not_removed hused (hd.removed ⟨_, Graph.shape?_eq hx, hop⟩)

theorem blockOf_of_descends (hd : Descends h h') {n : NodeId} (hn : n < h.size) :
    h'.blockOf n = h.blockOf n := by
  obtain ⟨x, hx⟩ := Graph.exists_node_of_lt hn
  obtain ⟨z, hz, hkeep⟩ := hd n _ (Graph.shape?_eq hx)
  rw [Graph.blockOf_of_shape hz, Graph.blockOf_of_shape (Graph.shape?_eq hx), hkeep.block]

/-- A block of what a round made was a block when it began, if it was in the arena. -/
theorem block_of_descends (hd : Descends h h') {b : NodeId} {x : Shape} (hb : b < h.size)
    (hx : h'.shape? b = some x) (hop : x.op = .block) :
    ∃ y, h.shape? b = some y ∧ y.op = .block := by
  obtain ⟨y, hy⟩ := Graph.exists_node_of_lt hb
  obtain ⟨z, hz, hkeep⟩ := hd b _ (Graph.shape?_eq hy)
  rw [hx] at hz
  cases hz
  rcases hkeep.op with heq | heq
  · exact ⟨_, Graph.shape?_eq hy, heq.symm.trans hop⟩
  · cases hop.symm.trans heq

/-- The first half of a round. -/
theorem removeDeadEdges_sweeps (ho : Orderly d.graph.Live d.graph) {c : Counts}
    (h : removeDeadEdges d = .ok c d') :
    Relation.ReflTransGen (Sweep d.graph.Live) d.graph d'.graph ∧ Swept d.graph d'.graph := by
  obtain ⟨blocks, members, d₁, reachable, d₂, hs, hedges, hreachable, hphis, hkeep⟩ :=
    exists_of_removeDeadEdges h
  obtain ⟨hsteps₁, ⟨cut, hcut⟩, hops, -, -⟩ := dropAllDeadEdges_eq_ok hs ho.mirrored hedges
  have ho₁ := ho.sweeps hsteps₁
  have hslot : ∀ b ∈ blocks, ∃ y, d₁.graph.shape? b = some y ∧ y.op = .block := by
    intro b hmem
    obtain ⟨-, y, hy, hyop⟩ := (hs.mem_blocks b).mp hmem
    exact ⟨_, hcut.some hy, hyop⟩
  have hreach (b : NodeId) (hb : reachable.contains b = true) :
      Relation.ReflTransGen (d₁.graph.FlowsAmong d.graph.Live) Anchor.startBlock b := by
    refine Relation.ReflTransGen.mono (fun s t hlast => ?_) _ _
      ((Graph.contains_reachableBlocks hreachable b).mp hb)
    exact ⟨((hs.mem_blocks t).mp hlast.1).1, hslot t hlast.1, hlast.2⟩
  obtain ⟨hm, hcomb⟩ := mergeAllPhis_eq_ok hs ho₁ hcut.descends hreach hslot hphis
  obtain ⟨hstep, hdesc, hused, hsame, halive⟩ := dropKeepAlives_sweep hm.orderly hkeep
  have ho₃ := hm.orderly.sweep hstep
  have hdesc₁ : Descends d₁.graph d'.graph := hm.descends.trans hdesc
  have hdesc₀ : Descends d.graph d'.graph := hcut.descends.trans hdesc₁
  have hblock : ∀ b ∈ blocks, d'.graph.operands b = d₁.graph.operands b := by
    intro b hmem
    obtain ⟨y, hy, hyop⟩ := hslot b hmem
    have hb₂ := hm.block b y ((hs.mem_blocks b).mp hmem).1 hy hyop
    have hbused : d₂.graph.isRetired b = false := by
      rw [hm.used b y hy (by simp [hyop])]
      exact Graph.isRetired_eq_false_iff.mpr ⟨y, hy, by simp [hyop]⟩
    obtain ⟨z, hz, hzop⟩ := Graph.exists_shape (by rw [hused, hbused] : d'.graph.isRetired b = false)
    obtain ⟨w, hw, hkeepb⟩ := hdesc₁ b y hy
    rw [hz] at hw
    cases hw
    have hzblock := (hkeepb.op.resolve_right hzop).trans hyop
    rw [Graph.operands_of_shape?, hsame b (ho₃.ne_stop hz (by simp [hzblock]) hzop),
      ← Graph.operands_of_shape?, hb₂]
  have hflows : ∀ s t, d'.graph.Flows s t → d₁.graph.Follows blocks s t := by
    rintro s t ⟨htlive, ⟨x, hx, hop⟩, p, hp, hbad, hpused, hps⟩
    have htlive₀ := ho₃.confined.live htlive
    obtain ⟨y, hy, hyop⟩ := block_of_descends hdesc₀ (ho.lt_size htlive₀) hx hop
    have hmem : t ∈ blocks := (hs.mem_blocks t).mpr ⟨htlive₀, y, hy, hyop⟩
    rw [hblock t hmem] at hp
    have hlt := ho₁.mirrored.lt_size hp
    exact ⟨hmem, p, hp, hbad, used_of_descends hdesc₁ hlt hpused,
      (blockOf_of_descends hdesc₁ hlt).symm.trans hps⟩
  refine ⟨(hsteps₁.trans hm.sweeps).tail hstep, hdesc₀, fun n y hy hyop => ?_,
    fun b y hlive hy hyop => ?_,
    fun n b y w hlive hy hyb hblive hw hwop hreach hone z hz hzop => ?_, halive⟩
  · rw [hused, hm.used n _ (hcut.some hy) hyop, hcut.isRetired]
  · have hmem : b ∈ blocks := (hs.mem_blocks b).mpr ⟨hlive, y, hy, hyop⟩
    rw [hblock b hmem, hops b hmem b (.inl rfl), openPositions, pick_findIdxs,
      Graph.operands_eq_of_shape hy]
  · have hbmem : b ∈ blocks := (hs.mem_blocks b).mpr ⟨hblive, w, hw, hwop⟩
    have hcontains := (Graph.contains_reachableBlocks hreachable b).mpr
      (Relation.ReflTransGen.mono hflows _ _ hreach)
    rw [hblock b hbmem] at hone
    have hn := hcomb b hbmem hcontains hone n ((hs.mem_members n b).mpr ⟨hlive, y, hy, hyb⟩)
    rw [hsame n (ho₃.ne_stop hz (by simp [hzop]) (by simp [hzop]))] at hz
    exact hn z hz hzop

end Cleanup

end SeaOfNodes
