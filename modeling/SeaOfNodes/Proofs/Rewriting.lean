import SeaOfNodes.Proofs.Support
import SeaOfNodes.Proofs.Verified

/-!
What folding keeps of a graph.

A block *persists* if it is reachable and taken edges lead from it to a block that is held: the exit
block, a block kept alive, or one with a node kept alive that is never exchanged. `Faithful` relates
a graph `h` to the graph `g` it was made from and to the facts `r` about `g`: persisting blocks are
still there with all their taken edges, in their order, and the nodes in them have the operands they
had, up to stand-ins. A stand-in is a constant, or what is left of a phi with one taken predecessor
or of a memory state that a division handed on.

Passes change a graph by retiring nodes and pointing edges elsewhere (`Contracts`), and by removing
operands; `Faithful.contract` is the rule for the first.
-/

namespace SeaOfNodes

namespace Graph

theorem isRetired_eq_false_iff {g : Graph} {n : NodeId} :
    g.isRetired n = false ↔ ∃ y, g.shape? n = some y ∧ y.op ≠ .retired := by
  rw [isRetired_eq_false]
  constructor
  · rintro ⟨x, hx, hop⟩
    exact ⟨x.shape, shape?_eq hx, hop⟩
  · rintro ⟨y, hy, hop⟩
    obtain ⟨x, hx, rfl⟩ := Option.map_eq_some_iff.mp hy
    exact ⟨x, hx, hop⟩

theorem operands_eq_of_shape {g : Graph} {n : NodeId} {y : Shape} (h : g.shape? n = some y) :
    g.operands n = y.operands := by
  rw [operands_of_shape?, h]
  rfl

theorem mem_operands_of_shape {g : Graph} {n m : NodeId} (h : m ∈ g.operands n) :
    ∃ y, g.shape? n = some y ∧ m ∈ y.operands := by
  cases hy : g.shape? n with
  | none =>
    rw [operands_of_shape?, hy] at h
    cases h
  | some y => exact ⟨y, rfl, by rwa [operands_eq_of_shape hy] at h⟩

theorem isRetired_congr {g h : Graph} {n : NodeId} (hn : h.shape? n = g.shape? n) :
    h.isRetired n = g.isRetired n := by
  rw [Bool.eq_iff_iff, ← not_iff_not, Bool.not_eq_true, Bool.not_eq_true, isRetired_eq_false_iff,
    isRetired_eq_false_iff, hn]

/-- `n` is a constant of the start block that carries `v`. -/
def IsConstant (g : Graph) (n : NodeId) (v : Literal) : Prop :=
  ∃ y, g.shape? n = some y ∧ y.op = .const v ∧ y.block = some Anchor.startBlock

theorem IsConstant.inUse {g : Graph} {n : NodeId} {v : Literal} (h : g.IsConstant n v) :
    g.isRetired n = false := by
  obtain ⟨y, hy, hop, -⟩ := h
  exact isRetired_eq_false_iff.mpr ⟨y, hy, by simp [hop]⟩

/-- The node in slot `n` was removed. -/
def Removed (g : Graph) (n : NodeId) : Prop := ∃ y, g.shape? n = some y ∧ y.op = .retired

theorem Removed.isRetired {g : Graph} {n : NodeId} (h : g.Removed n) : g.isRetired n = true := by
  cases hret : g.isRetired n with
  | true => rfl
  | false =>
    obtain ⟨y, hy, hop⟩ := h
    obtain ⟨z, hz, hused⟩ := isRetired_eq_false_iff.mp hret
    rw [hy] at hz
    cases hz
    exact absurd hop hused

theorem not_removed {g : Graph} {n : NodeId} (h : g.isRetired n = false) : ¬ g.Removed n := by
  intro hn
  rw [hn.isRetired] at h
  cases h

end Graph

/-- The kinds of nodes that are exchanged. -/
def Substitution.isReplaced : Op → Bool
  | .phi | .binary _ | .cmp _ | .minus | .not | .conv | .proj .memory | .proj .result
  | .proj (.arm _) => true
  | _ => false

namespace Rewriting

open Substitution (isReplaced)

variable (g : Graph) (r : Solution)

/-- What is assumed of a graph and of the facts about it. -/
structure Premises : Prop where
  built : g.Built
  verified : g.Verified
  describes : r.Describes g
  /-- Blocks stand in no block. -/
  block : ∀ b x, g.Live b → g.nodes[b]? = some x → x.op = .block → x.block = none
  /-- The arms of branches hang off branches. -/
  arm : ∀ n x side, g.Live n → g.nodes[n]? = some x → x.op = .proj (.arm side) →
    ∃ t y, x.operands.head? = some t ∧ g.nodes[t]? = some y ∧ y.op = .cond

/-! ### Blocks that persist -/

/-- `c` is the exit block, or is kept alive, or holds a node kept alive that is of no kind that is
exchanged. -/
def Held (c : NodeId) : Prop :=
  c = Anchor.endBlock ∨ c ∈ g.operands Anchor.stop ∨
    ∃ n ∈ g.operands Anchor.stop, n ≠ Anchor.bad ∧
      ∃ x, g.nodes[n]? = some x ∧ isReplaced x.op = false ∧ x.block = some c

/-- `b` is reachable, and taken edges lead from it to a block that is held. -/
def Persists (b : NodeId) : Prop :=
  r.assignment.reachable b = true ∧
    ∃ c, Held g c ∧ Relation.ReflTransGen (r.assignment.Leads g) b c

/-- `n` is kept alive and nothing takes its place: it is a block that persists, or stands in one
and is of no kind that is exchanged. -/
def Stays (n : NodeId) : Prop :=
  n ∈ g.operands Anchor.stop ∧
    (Persists g r n ∨ n ≠ Anchor.bad ∧ ∃ x b, g.nodes[n]? = some x ∧ isReplaced x.op = false ∧
      x.block = some b ∧ Persists g r b)

/-! ### Nodes whose operands are tracked -/

/-- `n` is live and stands in a block that persists, and it is not an end of control flow. -/
structure Standing (n : NodeId) (x : Node) : Prop where
  live : g.Live n
  slot : g.nodes[n]? = some x
  block : ∃ b, x.block = some b ∧ Persists g r b ∧ (x.op = .phi → b ≠ Anchor.startBlock)
  kind : x.op ≠ .block ∧ x.op ≠ .stop ∧ ∀ side, x.op ≠ .proj (.arm side)

/-- The nodes whose operands are followed through the passes. A projection must hang off such a
node, and what the facts say about it must be what folding makes of it. -/
inductive Tracked : NodeId → Prop where
  | node {n : NodeId} {x : Node} : Standing g r n x → x.op ≠ .proj .memory →
    x.op ≠ .proj .result → Tracked n
  | projection {p t : NodeId} {x y : Node} : Standing g r p x →
    x.op = .proj .memory ∨ x.op = .proj .result → x.operands = [t] → g.nodes[t]? = some y →
    y.op ≠ .proj .memory → Tracked t →
    (x.op = .proj .result → y.op.isDivision = true → ∀ v, r.constant? t = some v →
      r.constant? p = some ((v.convert? x.mode).getD v)) → Tracked p

variable {g r} in
theorem Tracked.standing {n : NodeId} (h : Tracked g r n) : ∃ x, Standing g r n x := by
  cases h with
  | node hs => exact ⟨_, hs⟩
  | projection hs => exact ⟨_, hs⟩

/-- The nodes whose operands are followed through the passes: those that are tracked, and the arms
of branches. -/
def Reads (n : NodeId) : Prop :=
  Tracked g r n ∨ ∃ x b side, g.Live n ∧ g.nodes[n]? = some x ∧ x.op = .proj (.arm side) ∧
    x.block = some b ∧ Persists g r b

variable {g r} in
theorem Reads.live {n : NodeId} (h : Reads g r n) : g.Live n := by
  rcases h with h | ⟨x, b, side, hlive, -⟩
  · obtain ⟨x, hx⟩ := h.standing
    exact hx.live
  · exact hlive

variable {g r} in
theorem Reads.kind {n : NodeId} {x : Node} (h : Reads g r n) (hx : g.nodes[n]? = some x) :
    x.op ≠ .block ∧ x.op ≠ .stop := by
  rcases h with h | ⟨y, b, side, -, hy, hop, -⟩
  · obtain ⟨y, hy⟩ := h.standing
    rw [hy.slot] at hx
    cases hx
    exact ⟨hy.kind.1, hy.kind.2.1⟩
  · rw [hy] at hx
    cases hx
    simp [hop]

/-! ### Stand-ins -/

/-- The memory state `p` of a division with a constant result is the state `m` it consumed. -/
def Splices (p m : NodeId) : Prop :=
  ∃ x t y v, g.nodes[p]? = some x ∧ x.op = .proj .memory ∧ x.operands = [t] ∧
    g.nodes[t]? = some y ∧ y.op.isDivision = true ∧ r.constant? t = some v ∧
    y.operands.head? = some m

/-- The edge `e` enters `b` at position `k`, and it is taken. -/
def Enters (b : NodeId) (k : Nat) (e : NodeId) : Prop :=
  (g.operands b)[k]? = some e ∧ r.assignment.taken e = true

/-- Position `k` is the only one at which a taken edge enters `b`. -/
def SoleEntry (b : NodeId) (k : Nat) : Prop :=
  (∃ e, Enters g r b k e) ∧ ∀ j e, Enters g r b j e → j = k

/-- The phi `n` has `o` at the only position at which control enters its block. -/
def Merges (n o : NodeId) : Prop :=
  ∃ x b k, g.nodes[n]? = some x ∧ x.op = .phi ∧ x.block = some b ∧ SoleEntry g r b k ∧
    x.operands[k]? = some o

/-- What may be put in the place of a node; phis are merged only after facts were substituted. -/
def Yields (merged : Prop) (n o : NodeId) : Prop := Splices g r n o ∨ merged ∧ Merges g r n o

/-- `m` is `o` itself or a constant that carries its value. No constant takes the place of a
division: its result and its memory state are replaced apart. -/
def Present (h : Graph) (o m : NodeId) : Prop :=
  h.isRetired m = false ∧ (m = o ∨ (∀ x, g.nodes[o]? = some x → x.op.isDivision = false) ∧
    ∃ v, r.constant? o = some v ∧ h.IsConstant m v)

/-- `m` may stand in `h` where `o` stood. Nothing is said if `o` leads to a node that is not
tracked. -/
def StandIn (merged : Prop) (h : Graph) (o m : NodeId) : Prop :=
  ∃ o', Relation.ReflTransGen (Yields g r merged) o o' ∧ (Tracked g r o' → Present g r h o' m)

/-- The edge `e` is still there as `e'`: itself, or a jump from its block. -/
def Continues (h : Graph) (e e' : NodeId) : Prop :=
  h.isRetired e' = false ∧ e' ≠ Anchor.bad ∧
    (e' = e ∨ g.size ≤ e' ∧ h.Removed e ∧
      ∃ y, h.shape? e' = some y ∧ y.op = .jump ∧ y.block = g.blockOf e)

/-- `m` may be an operand of `n` in `h`: `n` depended on it all along, or it is a constant, dead
control, or a jump from a block that `n` depended on. -/
def Rests (h : Graph) (n m : NodeId) : Prop :=
  Relation.TransGen g.Needs n m ∨ (∃ v, h.IsConstant m v) ∨ m = Anchor.bad ∨
    ∃ y b, g.size ≤ m ∧ h.shape? m = some y ∧ y.op = .jump ∧ y.block = some b ∧
      Relation.TransGen g.Needs n b

/-! ### The relation -/

/-- What `h` has kept of `g`. The predecessors that a persisting block `b` still has are those at
the positions `kept b`; the phis that satisfy `aligned` have their operands at the same ones. -/
structure Faithful (merged : Prop) (aligned : NodeId → Prop) (kept : NodeId → List Nat)
    (h : Graph) : Prop where
  mirrored : h.Mirrored
  slot : ∀ n x, g.shape? n = some x → ∃ y, h.shape? n = some y ∧ x.Keeps y
  fresh : ∀ n y, g.size ≤ n → h.shape? n = some y → y.operands = [] ∧
    (y.op = .retired ∨ (∃ v, y.op = .const v ∧ y.block = some Anchor.startBlock) ∨ y.op = .jump)
  ascending : ∀ b, Persists g r b → (kept b).Pairwise (· < ·)
  covers : ∀ b, Persists g r b → ∀ k e, Enters g r b k e → k ∈ kept b
  block : ∀ b, Persists g r b → ∃ y, h.shape? b = some y ∧ y.op = .block ∧
    y.operands.length = (kept b).length ∧
    ∀ (i k : Nat) e, (kept b)[i]? = some k → Enters g r b k e →
      ∃ e', y.operands[i]? = some e' ∧ Continues g h e e'
  phi : ∀ n x b y, Tracked g r n → g.nodes[n]? = some x → x.op = .phi → x.block = some b →
    h.shape? n = some y → y.op ≠ .retired → aligned n →
    y.operands.length = (kept b).length ∧
    ∀ (i k : Nat) e o, (kept b)[i]? = some k → Enters g r b k e → x.operands[k]? = some o →
      ∃ m, y.operands[i]? = some m ∧ StandIn g r merged h o m
  node : ∀ n x y, Reads g r n → g.nodes[n]? = some x → x.op ≠ .phi → h.shape? n = some y →
    y.op ≠ .retired → List.Forall₂ (StandIn g r merged h) x.operands y.operands
  keepAlive : ∀ n, Stays g r n → n ∈ h.operands Anchor.stop ∧ h.isRetired n = false
  rests : ∀ n m, g.Live n → h.isRetired n = false → m ∈ h.operands n → Rests g h n m

/-- An arm of a branch on a constant, the one that is chosen. -/
def Selected (x : Node) : Prop :=
  ∃ side t v, x.op = .proj (.arm side) ∧ x.operands.head? = some t ∧ r.constant? t = some v ∧
    v.toBool? = some side

/-- Every jump made on the way took the place of an arm that was chosen. -/
def Jumps (kept : NodeId → List Nat) (h : Graph) : Prop :=
  ∀ j y, g.size ≤ j → h.shape? j = some y → y.op = .jump →
    ∃ e x, g.Live e ∧ g.nodes[e]? = some x ∧ Selected r x ∧ h.Removed e ∧ x.block = y.block ∧
      ∀ b k, Persists g r b → Enters g r b k e →
        ∃ i : Nat, (kept b)[i]? = some k ∧ (h.operands b)[i]? = some j

/-- The jump `m` was made in the place of the arm `e`, which is always chosen. -/
def Supplants (h : Graph) (e m : NodeId) : Prop :=
  g.size ≤ m ∧ ∃ x y, g.nodes[e]? = some x ∧ Selected r x ∧ h.shape? m = some y ∧
    y.op = .jump ∧ y.block = x.block

/-- The predecessors that blocks have left were theirs before, or jumps in the place of these, and
none of them comes more often. -/
def Edges (h : Graph) : Prop :=
  ∀ c x, g.Live c → g.nodes[c]? = some x → x.op = .block → ∀ m ∈ h.operands c,
    m ≠ Anchor.bad → h.isRetired m = false →
    ∃ e ∈ x.operands, (h.operands c).count m ≤ x.operands.count e ∧
      (m = e ∨ Supplants g r h e m)

/-- All predecessors of a block. -/
def allPositions (b : NodeId) : List Nat := List.range (g.operands b).length

variable {g r}

theorem getElem?_allPositions {b : NodeId} {i k : Nat} :
    (allPositions g b)[i]? = some k ↔ i < (g.operands b).length ∧ i = k := by
  unfold allPositions
  rw [List.getElem?_eq_some_iff]
  simp

/-! ### Persisting blocks -/

theorem live_of_keepAlive (hr : r.Describes g) {n : NodeId} (hn : n ∈ g.operands Anchor.stop) :
    g.Live n := by
  obtain ⟨y, hy, hmem⟩ := Graph.mem_operands_of_shape hn
  obtain ⟨x, hx, rfl⟩ := Option.map_eq_some_iff.mp hy
  exact hr.operands_live ⟨Anchor.stop, by simp, .refl⟩ hx n hmem

theorem Persists.live (hg : g.Built) (hr : r.Describes g) {b : NodeId} (hb : Persists g r b) :
    g.Live b := by
  obtain ⟨-, c, hc, hpath⟩ := hb
  have hstop : g.Live Anchor.stop := ⟨Anchor.stop, by simp, .refl⟩
  obtain ⟨s, hs, hkeep⟩ := hg.keeps_anchor (i := Anchor.stop) rfl
  obtain ⟨x, hx, rfl⟩ := Option.map_eq_some_iff.mp hs
  have hlast : g.Live c := by
    rcases hc with rfl | hc | ⟨n, hn, -, y, hy, -, hblock⟩
    · exact hr.block_live hstop hx hkeep.block
    · exact live_of_keepAlive hr hc
    · exact hr.block_live (live_of_keepAlive hr hn) hy hblock
  rcases hpath.cases_head with rfl | ⟨t, hlead, -⟩
  · exact hlast
  · obtain ⟨y, hy, -⟩ := hlead.block
    obtain ⟨e, he, -, hblock⟩ := hlead.edge
    rw [Graph.operands_eq hy] at he
    have hlive := hr.operands_live hlead.live hy e he
    cases hz : g.nodes[e]? with
    | none =>
      rw [Graph.blockOf, hz] at hblock
      cases hblock
    | some z =>
      rw [Graph.blockOf_eq hz] at hblock
      exact hr.block_live hlive hz hblock

theorem Persists.isBlock (hg : g.Built) (hr : r.Describes g) {b : NodeId}
    (hb : Persists g r b) : ∃ x, g.nodes[b]? = some x ∧ x.op = .block := by
  cases hr.reached (hb.live hg hr) hb.1 with
  | refl => exact (hg.entry_live hr.inUse).2
  | tail _ hlast => exact hlast.block

/-- What leads to a persisting block persists. -/
theorem Persists.of_leads (hr : r.Describes g) {s t : NodeId}
    (hlead : r.assignment.Leads g s t) (ht : Persists g r t) : Persists g r s := by
  obtain ⟨y, hy, -⟩ := hlead.block
  obtain ⟨e, he, htaken, hblock⟩ := hlead.edge
  rw [Graph.operands_eq hy] at he
  obtain ⟨s', ⟨z, hz, hzs, -⟩, hreach⟩ := hr.passes (hr.operands_live hlead.live hy e he) htaken
  rw [Graph.blockOf_eq hz, hzs] at hblock
  cases hblock
  obtain ⟨-, c, hc, hpath⟩ := ht
  exact ⟨hreach.reachable hr.solves, c, hc, hpath.head hlead⟩

/-- A taken edge into a persisting block leaves a persisting block. -/
theorem Enters.source (hg : g.Built) (hr : r.Describes g) {b e : NodeId} {k : Nat}
    (hb : Persists g r b) (he : Enters g r b k e) :
    g.Live e ∧ ∃ s, r.assignment.Passes g e s ∧ Persists g r s := by
  obtain ⟨x, hx, hop⟩ := hb.isBlock hg hr
  have hmem : e ∈ g.operands b := List.mem_of_getElem? he.1
  have hlive : g.Live e :=
    hr.operands_live (hb.live hg hr) hx e (by rwa [Graph.operands_eq hx] at hmem)
  obtain ⟨s, hpass, hreach⟩ := hr.passes hlive he.2
  refine ⟨hlive, s, hpass, ?_⟩
  obtain ⟨y, hy, hys, -⟩ := hpass
  exact .of_leads hr ⟨hb.live hg hr, ⟨x, hx, hop⟩, e, hmem, he.2, by rw [Graph.blockOf_eq hy, hys]⟩
    hb

theorem Rests.trans {h : Graph} {n o m : NodeId} (hdep : Relation.TransGen g.Needs n o)
    (hrest : Rests g h o m) : Rests g h n m := by
  rcases hrest with hrest | hconst | hbad | ⟨y, b, hsize, hy, hop, hblock, hrest⟩
  · exact .inl (hdep.trans hrest)
  · exact .inr (.inl hconst)
  · exact .inr (.inr (.inl hbad))
  · exact .inr (.inr (.inr ⟨y, b, hsize, hy, hop, hblock, hdep.trans hrest⟩))

/-- A slot still has what it had, or was emptied. -/
theorem Faithful.keeps {merged : Prop} {aligned : NodeId → Prop} {kept : NodeId → List Nat}
    {h : Graph} (hf : Faithful g r merged aligned kept h) {n : NodeId} {x y : Shape}
    (hx : g.shape? n = some x) (hy : h.shape? n = some y) : x.Keeps y := by
  obtain ⟨z, hz, hkeep⟩ := hf.slot n x hx
  rw [hy] at hz
  cases hz
  exact hkeep

/-- The slot of an anchor never holds anything else. -/
theorem Faithful.anchor {merged : Prop} {aligned : NodeId → Prop} {kept : NodeId → List Nat}
    {h : Graph} (hf : Faithful g r merged aligned kept h) (hp : Premises g r) {n : NodeId}
    {x y : Shape} (hx : (Graph.new "" 0).shape? n = some x) (hy : h.shape? n = some y) :
    x.Keeps y := by
  obtain ⟨z, hz, hkeep⟩ := hp.built.keeps_anchor hx
  exact hkeep.trans (hf.keeps hz hy)

/-- Whatever continues a taken edge is an exit of the same block. -/
theorem Continues.exit (hg : g.Built) (hr : r.Describes g) {merged : Prop}
    {aligned : NodeId → Prop} {kept : NodeId → List Nat} {h : Graph}
    (hf : Faithful g r merged aligned kept h) {b e e' : NodeId} {k : Nat}
    (hb : Persists g r b) (he : Enters g r b k e) (hcont : Continues g h e e') :
    ∃ y s, h.shape? e' = some y ∧ y.block = some s ∧ g.blockOf e = some s ∧ Persists g r s ∧
      (y.op = .jump ∨ y.op = .ret ∨ ∃ side, y.op = .proj (.arm side)) := by
  obtain ⟨-, s, ⟨x, hx, hxs, hkind⟩, hs⟩ := he.source hg hr hb
  have hes : g.blockOf e = some s := by rw [Graph.blockOf_eq hx, hxs]
  obtain ⟨hret, -, rfl | ⟨-, -, y, hy, hop, hblock⟩⟩ := hcont
  · obtain ⟨y, hy, hused⟩ := Graph.isRetired_eq_false_iff.mp hret
    have hkeep := hf.keeps (Graph.shape?_eq hx) hy
    have hop : y.op = x.op := hkeep.op.resolve_right hused
    refine ⟨y, s, hy, hkeep.block.trans hxs, hes, hs, ?_⟩
    rw [hop]
    exact hkind.imp_right (Or.imp_right fun ⟨side, hside, _⟩ => ⟨side, hside⟩)
  · exact ⟨y, s, hy, hblock.trans hes, hes, hs, .inl hop⟩

/-- A node still in use has its kind, mode and block. -/
theorem Faithful.same {merged : Prop} {aligned : NodeId → Prop} {kept : NodeId → List Nat}
    {h : Graph} (hf : Faithful g r merged aligned kept h) {n : NodeId} {x y : Node}
    (hx : g.nodes[n]? = some x) (hy : h.nodes[n]? = some y) (hop : y.op ≠ .retired) :
    y.op = x.op ∧ y.mode = x.mode ∧ y.block = x.block := by
  have hkeep := hf.keeps (Graph.shape?_eq hx) (Graph.shape?_eq hy)
  exact ⟨hkeep.op.resolve_right hop, hkeep.mode, hkeep.block⟩

theorem Faithful.size_le {merged : Prop} {aligned : NodeId → Prop} {kept : NodeId → List Nat}
    {h : Graph} (hf : Faithful g r merged aligned kept h) : g.size ≤ h.size := by
  rcases Nat.lt_or_ge h.size g.size with hlt | hge
  · obtain ⟨x, hx⟩ := Graph.exists_node_of_lt hlt
    obtain ⟨y, hy, -⟩ := hf.slot _ _ (Graph.shape?_eq hx)
    rw [Graph.shape?, Graph.getElem?_eq_none_of_size_le (Nat.le_refl _)] at hy
    cases hy
  · exact hge

/-- At first nothing has changed. -/
theorem Faithful.start (hp : Premises g r) :
    Faithful g r False (fun _ => True) (allPositions g) g where
  mirrored := hp.built.mirrored
  slot n x hx := ⟨x, hx, .refl x⟩
  fresh n y hn hy := by
    rw [Graph.shape?, Graph.getElem?_eq_none_of_size_le hn] at hy
    cases hy
  ascending b _ := List.pairwise_lt_range
  covers b _ k e hk := List.mem_range.mpr (List.getElem?_eq_some_iff.mp hk.1).1
  block b hb := by
    obtain ⟨x, hx, hop⟩ := hb.isBlock hp.built hp.describes
    have hops := Graph.operands_eq hx
    refine ⟨x.shape, Graph.shape?_eq hx, hop, by simp [allPositions, hops, Node.shape],
      fun i k e hi hk => ⟨e, ?_, ?_⟩⟩
    · rw [(getElem?_allPositions.mp hi).2, Node.shape, ← hops]
      exact hk.1
    · obtain ⟨hlive, s, ⟨y, hy, -, hkind⟩, -⟩ := hk.source hp.built hp.describes hb
      refine ⟨hp.describes.used e hlive, ?_, .inl rfl⟩
      rintro rfl
      obtain ⟨z, hz, hkeep⟩ := hp.built.keeps_anchor (i := Anchor.bad) rfl
      rw [Graph.shape?_eq hy] at hz
      cases hz
      rcases hkeep.op with hop | hop
      · rw [show y.op = .bad from hop] at hkind
        simp at hkind
      · rw [show y.op = .retired from hop] at hkind
        simp at hkind
  phi n x b y ht hx hop hb hy hused _ := by
    rw [Graph.shape?_eq hx] at hy
    cases hy
    obtain ⟨z, hz⟩ := ht.standing
    obtain ⟨b', w, hb', hw, -, hlen⟩ := hp.verified.phi n x hz.live hx hop
    rw [hb] at hb'
    cases hb'
    have hops := Graph.operands_eq hw
    refine ⟨by simp [allPositions, hops, Node.shape, hlen], fun i k e o hi hk ho => ?_⟩
    refine ⟨o, (getElem?_allPositions.mp hi).2 ▸ ho, o, .refl, fun _ => ⟨?_, .inl rfl⟩⟩
    exact hp.describes.used o
      (hp.describes.operands_live hz.live hx o (List.mem_of_getElem? ho))
  node n x y ht hx hop hy hused := by
    rw [Graph.shape?_eq hx] at hy
    cases hy
    refine List.forall₂_same.mpr fun o ho => ⟨o, .refl, fun _ => ⟨?_, .inl rfl⟩⟩
    exact hp.describes.used o (hp.describes.operands_live ht.live hx o ho)
  keepAlive n hn := ⟨hn.1, hp.describes.used n (live_of_keepAlive hp.describes hn.1)⟩
  rests n m hn _ hm := by
    obtain ⟨x, hx, -⟩ := Graph.isRetired_eq_false.mp (hp.describes.used n hn)
    rw [Graph.operands_eq hx] at hm
    have hin : m ∈ g.inputs n := by
      rw [Graph.inputs_eq hx]
      exact List.mem_append_right _ hm
    exact .inl (.single ⟨hin, hp.describes.inUse n m hn hin⟩)

theorem Jumps.start {kept : NodeId → List Nat} : Jumps g r kept g := by
  intro j y hj hy
  rw [Graph.shape?, Graph.getElem?_eq_none_of_size_le hj] at hy
  cases hy

/-! ### Retiring nodes and moving edges -/

/-- `h'` is `h` after the nodes `gone` were retired and the edges to each of them were pointed to
where `move` says. -/
structure Contracts (h h' : Graph) (gone : NodeId → Prop) (move : NodeId → NodeId) : Prop where
  mirrored : h'.Mirrored
  retires : ∀ i, gone i → h'.shape? i = (h.shape? i).map Shape.retire
  moves : ∀ i, ¬ gone i →
    h'.shape? i = (h.shape? i).map fun y => { y with operands := y.operands.map move }
  stays : ∀ m, ¬ gone m → move m = m

section contracts

variable {h h' : Graph} {gone : NodeId → Prop} {move : NodeId → NodeId}

theorem Contracts.shape (hc : Contracts h h' gone move) {n : NodeId} {y : Shape} (hn : ¬ gone n)
    (hy : h.shape? n = some y) :
    h'.shape? n = some { y with operands := y.operands.map move } := by
  rw [hc.moves n hn, hy]
  rfl

theorem Contracts.keeps (hc : Contracts h h' gone move) {n : NodeId} {y : Shape}
    (hy : h.shape? n = some y) : ∃ z, h'.shape? n = some z ∧ y.Keeps z := by
  by_cases hn : gone n
  · exact ⟨y.retire, by rw [hc.retires n hn, hy]; rfl, .inr rfl, rfl, rfl⟩
  · exact ⟨_, hc.shape hn hy, .inl rfl, rfl, rfl⟩

/-- What is left was there before. -/
theorem Contracts.back (hc : Contracts h h' gone move) {n : NodeId} {z : Shape}
    (hz : h'.shape? n = some z) (hop : z.op ≠ .retired) :
    ¬ gone n ∧ ∃ y, h.shape? n = some y ∧ z = { y with operands := y.operands.map move } := by
  by_cases hn : gone n
  · rw [hc.retires n hn] at hz
    obtain ⟨y, -, rfl⟩ := Option.map_eq_some_iff.mp hz
    exact absurd rfl hop
  · rw [hc.moves n hn] at hz
    obtain ⟨y, hy, rfl⟩ := Option.map_eq_some_iff.mp hz
    exact ⟨hn, y, hy, rfl⟩

theorem Contracts.used_before (hc : Contracts h h' gone move) {n : NodeId}
    (hn : h'.isRetired n = false) : ¬ gone n ∧ h.isRetired n = false := by
  obtain ⟨z, hz, hop⟩ := Graph.isRetired_eq_false_iff.mp hn
  obtain ⟨hgone, y, hy, rfl⟩ := hc.back hz hop
  exact ⟨hgone, Graph.isRetired_eq_false_iff.mpr ⟨y, hy, hop⟩⟩

/-- A slot was there before, whether its node is left or not. -/
theorem Contracts.exists_before (hc : Contracts h h' gone move) {n : NodeId} {z : Shape}
    (hz : h'.shape? n = some z) : ∃ y, h.shape? n = some y ∧ y.Keeps z := by
  by_cases hn : gone n
  · rw [hc.retires n hn] at hz
    obtain ⟨y, hy, rfl⟩ := Option.map_eq_some_iff.mp hz
    exact ⟨y, hy, .inr rfl, rfl, rfl⟩
  · rw [hc.moves n hn] at hz
    obtain ⟨y, hy, rfl⟩ := Option.map_eq_some_iff.mp hz
    exact ⟨y, hy, .inl rfl, rfl, rfl⟩

theorem Contracts.operands_map (hc : Contracts h h' gone move) {n : NodeId} (hn : ¬ gone n) :
    h'.operands n = (h.operands n).map move := by
  rw [Graph.operands_of_shape?, Graph.operands_of_shape?, hc.moves n hn]
  cases h.shape? n <;> rfl

theorem Contracts.operands_nil (hc : Contracts h h' gone move) {n : NodeId} (hn : gone n) :
    h'.operands n = [] := by
  rw [Graph.operands_of_shape?, hc.retires n hn]
  cases h.shape? n <;> rfl

/-- What still has operands was not retired. -/
theorem Contracts.operands_eq (hc : Contracts h h' gone move) {n : NodeId}
    (hn : h'.operands n ≠ []) : h'.operands n = (h.operands n).map move :=
  hc.operands_map fun hgone => hn (hc.operands_nil hgone)

/-- An operand that is left was one before, or took the place of one. -/
theorem Contracts.mem_operands (hc : Contracts h h' gone move) {n m : NodeId}
    (hm : m ∈ h'.operands n) : ¬ gone n ∧ ∃ k ∈ h.operands n, move k = m := by
  have hn : ¬ gone n := by
    intro hgone
    rw [hc.operands_nil hgone] at hm
    cases hm
  rw [hc.operands_map hn] at hm
  exact ⟨hn, List.mem_map.mp hm⟩

/-- A node comes as often as the one in whose place it is came before. -/
theorem Contracts.count_operands (hc : Contracts h h' gone move) {n k m : NodeId}
    (hn : ¬ gone n) (hmove : ∀ l ∈ h.operands n, move l = m ↔ l = k) :
    (h'.operands n).count m = (h.operands n).count k := by
  rw [hc.operands_map hn]
  show ((h.operands n).map move).countP (· == m) = (h.operands n).countP (· == k)
  rw [List.countP_map]
  refine List.countP_congr fun l hl => ?_
  simp only [Function.comp_apply, beq_iff_eq]
  exact hmove l hl

theorem Contracts.isRetired (hc : Contracts h h' gone move) {n : NodeId} (hn : ¬ gone n) :
    h'.isRetired n = h.isRetired n := by
  cases hret : h.isRetired n with
  | false =>
    obtain ⟨y, hy, hop⟩ := Graph.isRetired_eq_false_iff.mp hret
    exact Graph.isRetired_eq_false_iff.mpr ⟨_, hc.shape hn hy, hop⟩
  | true =>
    cases hret' : h'.isRetired n with
    | true => rfl
    | false =>
      rw [(hc.used_before hret').2] at hret
      cases hret

theorem Contracts.removed (hc : Contracts h h' gone move) {n : NodeId} (hn : h.Removed n) :
    h'.Removed n := by
  obtain ⟨y, hy, hop⟩ := hn
  obtain ⟨z, hz, hkeep⟩ := hc.keeps hy
  exact ⟨z, hz, hkeep.op.elim (fun heq => heq.trans hop) id⟩

theorem Contracts.removed_before (hc : Contracts h h' gone move) {n : NodeId} (hn : ¬ gone n)
    (hret : h'.Removed n) : h.Removed n := by
  obtain ⟨z, hz, hop⟩ := hret
  rw [hc.moves n hn] at hz
  obtain ⟨y, hy, rfl⟩ := Option.map_eq_some_iff.mp hz
  exact ⟨y, hy, hop⟩

theorem Contracts.isConstant (hc : Contracts h h' gone move) {n : NodeId} {v : Literal}
    (hn : ¬ gone n) (hv : h.IsConstant n v) : h'.IsConstant n v := by
  obtain ⟨y, hy, hop, hblock⟩ := hv
  exact ⟨_, hc.shape hn hy, hop, hblock⟩

theorem Contracts.present (hc : Contracts h h' gone move) {o m : NodeId} (hm : ¬ gone m)
    (hp : Present g r h o m) : Present g r h' o m := by
  refine ⟨by rw [hc.isRetired hm, hp.1], hp.2.imp id ?_⟩
  rintro ⟨hdiv, v, hv, hconst⟩
  exact ⟨hdiv, v, hv, hc.isConstant hm hconst⟩

theorem Contracts.continues (hc : Contracts h h' gone move) {e e' : NodeId} (he : ¬ gone e')
    (hcont : Continues g h e e') : Continues g h' e e' := by
  obtain ⟨hret, hbad, hcase⟩ := hcont
  refine ⟨by rw [hc.isRetired he, hret], hbad, hcase.imp id ?_⟩
  rintro ⟨hsize, hold, y, hy, hop, hblock⟩
  exact ⟨hsize, hc.removed hold, _, hc.shape he hy, hop, hblock⟩

theorem Contracts.rests (hc : Contracts h h' gone move) {n m : NodeId} (hm : ¬ gone m)
    (hrest : Rests g h n m) : Rests g h' n m := by
  rcases hrest with hdep | ⟨v, hv⟩ | hbad | ⟨y, b, hsize, hy, hop, hblock, hdep⟩
  · exact .inl hdep
  · exact .inr (.inl ⟨v, hc.isConstant hm hv⟩)
  · exact .inr (.inr (.inl hbad))
  · exact .inr (.inr (.inr ⟨_, b, hsize, hc.shape hm hy, hop, hblock, hdep⟩))

variable {merged : Prop} {aligned : NodeId → Prop} {kept : NodeId → List Nat}

theorem StandIn.trans {o o₁ m : NodeId} (hpath : Relation.ReflTransGen (Yields g r merged) o o₁)
    (hs : StandIn g r merged h o₁ m) : StandIn g r merged h o m := by
  obtain ⟨o₂, hpath', hend⟩ := hs
  exact ⟨o₂, hpath.trans hpath', hend⟩

/-- A stand-in moves along, if what was retired is itself stood in for. -/
theorem Contracts.standIn (hc : Contracts h h' gone move) {o m : NodeId}
    (hgone : gone m → ∀ o', Tracked g r o' → Present g r h o' m →
      StandIn g r merged h' o' (move m))
    (hs : StandIn g r merged h o m) : StandIn g r merged h' o (move m) := by
  obtain ⟨o', hpath, hend⟩ := hs
  by_cases ht : Tracked g r o'
  · by_cases hm : gone m
    · exact (hgone hm o' ht (hend ht)).trans hpath
    · refine ⟨o', hpath, fun _ => ?_⟩
      rw [hc.stays m hm]
      exact hc.present hm (hend ht)
  · exact ⟨o', hpath, fun h => absurd h ht⟩

/-- Retiring nodes and moving edges keeps what is tracked, if no block that persists and nothing
that stays is retired and the operands of what is left that were retired are replaced by
stand-ins. -/
theorem Faithful.contract (hf : Faithful g r merged aligned kept h)
    (hc : Contracts h h' gone move) (hblock : ∀ b, Persists g r b → ¬ gone b)
    (hstays : ∀ n, Stays g r n → ¬ gone n) (hstop : ¬ gone Anchor.stop)
    (hstand : ∀ n m, h.isRetired n = false → ¬ gone n → m ∈ h.operands n → gone m →
      ∀ o', Tracked g r o' → Present g r h o' m → StandIn g r merged h' o' (move m))
    (hedge : ∀ b e e', Persists g r b → e' ∈ h.operands b → gone e' →
      r.assignment.taken e = true → e ∈ g.operands b → Continues g h e e' →
      Continues g h' e (move e'))
    (hrests : ∀ n m, g.Live n → h.isRetired n = false → ¬ gone n → m ∈ h.operands n → gone m →
      Rests g h n m → Rests g h' n (move m)) :
    Faithful g r merged aligned kept h' where
  mirrored := hc.mirrored
  slot n x hx := by
    obtain ⟨y, hy, hkeep⟩ := hf.slot n x hx
    obtain ⟨z, hz, hkeep'⟩ := hc.keeps hy
    exact ⟨z, hz, hkeep.trans hkeep'⟩
  fresh n z hn hz := by
    by_cases hgone : gone n
    · rw [hc.retires n hgone] at hz
      obtain ⟨y, -, rfl⟩ := Option.map_eq_some_iff.mp hz
      exact ⟨rfl, .inl rfl⟩
    · rw [hc.moves n hgone] at hz
      obtain ⟨y, hy, rfl⟩ := Option.map_eq_some_iff.mp hz
      obtain ⟨hnil, hkind⟩ := hf.fresh n y hn hy
      exact ⟨by simp [hnil], hkind⟩
  ascending := hf.ascending
  covers := hf.covers
  block b hb := by
    obtain ⟨y, hy, hop, hlen, hpos⟩ := hf.block b hb
    refine ⟨_, hc.shape (hblock b hb) hy, hop, by simpa using hlen, fun i k e hi hk => ?_⟩
    obtain ⟨e', he', hcont⟩ := hpos i k e hi hk
    refine ⟨move e', by simp [he'], ?_⟩
    by_cases hgone : gone e'
    · refine hedge b e e' hb ?_ hgone hk.2 (List.mem_of_getElem? hk.1) hcont
      rw [Graph.operands_eq_of_shape hy]
      exact List.mem_of_getElem? he'
    · rw [hc.stays e' hgone]
      exact hc.continues hgone hcont
  phi n x b z ht hx hop hb hz hused halign := by
    obtain ⟨hn, y, hy, rfl⟩ := hc.back hz hused
    obtain ⟨hlen, hpos⟩ := hf.phi n x b y ht hx hop hb hy hused halign
    refine ⟨by simpa using hlen, fun i k e o hi hk ho => ?_⟩
    obtain ⟨m, hm, hs⟩ := hpos i k e o hi hk ho
    refine ⟨move m, by simp [hm], hc.standIn (fun hgone => ?_) hs⟩
    refine hstand n m (Graph.isRetired_eq_false_iff.mpr ⟨y, hy, hused⟩) hn ?_ hgone
    rw [Graph.operands_eq_of_shape hy]
    exact List.mem_of_getElem? hm
  node n x z ht hx hop hz hused := by
    obtain ⟨hn, y, hy, rfl⟩ := hc.back hz hused
    obtain ⟨hlen, hall⟩ := List.forall₂_iff_zip.mp (hf.node n x y ht hx hop hy hused)
    show List.Forall₂ _ x.operands (y.operands.map move)
    rw [List.forall₂_map_right_iff]
    refine List.forall₂_iff_zip.mpr ⟨hlen, fun {o m} hmem => ?_⟩
    refine hc.standIn (fun hgone => ?_) (hall hmem)
    refine hstand n m (Graph.isRetired_eq_false_iff.mpr ⟨y, hy, hused⟩) hn ?_ hgone
    rw [Graph.operands_eq_of_shape hy]
    exact (List.of_mem_zip hmem).2
  keepAlive n hn := by
    obtain ⟨hmem, hused⟩ := hf.keepAlive n hn
    have hgone := hstays n hn
    rw [hc.operands_map hstop, hc.isRetired hgone]
    exact ⟨List.mem_map.mpr ⟨n, hmem, hc.stays n hgone⟩, hused⟩
  rests n m hn hused hm := by
    obtain ⟨hgone, hold⟩ := hc.used_before hused
    rw [hc.operands_map hgone] at hm
    obtain ⟨m', hmem, rfl⟩ := List.mem_map.mp hm
    have hrest := hf.rests n m' hn hold hmem
    by_cases hgone' : gone m'
    · exact hrests n m' hn hold hgone hmem hgone' hrest
    · rw [hc.stays m' hgone']
      exact hc.rests hgone' hrest

/-- Jumps stay where they are. -/
theorem Jumps.contract (hj : Jumps g r kept h) (hc : Contracts h h' gone move)
    (hblock : ∀ b, Persists g r b → ¬ gone b) : Jumps g r kept h' := by
  intro j z hsize hz hop
  obtain ⟨hgone, y, hy, rfl⟩ := hc.back hz (by rw [hop]; decide)
  obtain ⟨e, x, he, hx, hsel, hret, hxb, hplace⟩ := hj j y hsize hy hop
  refine ⟨e, x, he, hx, hsel, hc.removed hret, hxb, fun b k hb hk => ?_⟩
  obtain ⟨i, hi, hat⟩ := hplace b k hb hk
  refine ⟨i, hi, ?_⟩
  rw [hc.operands_map (hblock b hb), List.getElem?_map, hat, Option.map_some, hc.stays j hgone]

/-- What blocks have left does not change, if of what is retired nothing but dead control takes the
place. -/
theorem Edges.contract (he : Edges g r h) (hc : Contracts h h' gone move)
    (hmove : ∀ c x m, g.Live c → g.nodes[c]? = some x → x.op = .block → m ∈ h.operands c →
      gone m → move m = Anchor.bad ∨ h'.isRetired (move m) = true) : Edges g r h' := by
  intro c x hc' hx hop m' hm' hbad hused
  obtain ⟨hstay, k, hk, hkm⟩ := hc.mem_operands hm'
  -- Nothing that was retired ends up as a predecessor in use.
  have hback : ∀ k ∈ h.operands c, move k = m' → k = m' ∧ ¬ gone k := by
    rintro k hk rfl
    have hgone : ¬ gone k := by
      intro hgone
      rcases hmove c x k hc' hx hop hk hgone with hdead | hdead
      · exact hbad hdead
      · rw [hused] at hdead
        cases hdead
    exact ⟨(hc.stays k hgone).symm, hgone⟩
  obtain ⟨rfl, hgone⟩ := hback k hk hkm
  obtain ⟨e, hex, hcount, horigin⟩ :=
    he c x hc' hx hop k hk hbad (by rw [← hc.isRetired hgone, hused])
  refine ⟨e, hex, ?_, horigin.imp id ?_⟩
  · rw [hc.count_operands hstay fun l hl => ⟨fun hlk => (hback l hl hlk).1, ?_⟩]
    · exact hcount
    · rintro rfl
      exact hc.stays l hgone
  · rintro ⟨hsize, u, w, hu, hsel, hw, hjump⟩
    exact ⟨hsize, u, _, hu, hsel, hc.shape hgone hw, hjump⟩

theorem Contracts.of_exchange {old new : NodeId} (hm : h.Mirrored) (hne : old ≠ new)
    (hx : h.exchange old new = .ok h') :
    Contracts h h' (· = old) fun m => if m = old then new else m where
  mirrored := hm.exchange hx
  retires i hi := by rw [Graph.shape?_exchange hm hne hx, if_pos hi]
  moves i hi := by
    rw [Graph.shape?_exchange hm hne hx, if_neg hi]
    rfl
  stays m hm := if_neg hm

theorem Contracts.of_kill {n : NodeId} (hm : h.Mirrored) (hk : h.kill n = .ok h') :
    Contracts h h' (· = n) id where
  mirrored := hm.kill hk
  retires i hi := by rw [(Graph.kill_eq_ok hk).2.2.1, if_pos hi]
  moves i hi := by
    rw [(Graph.kill_eq_ok hk).2.2.1, if_neg hi]
    simp
  stays _ _ := rfl

theorem Contracts.refl (hm : h.Mirrored) {gone : NodeId → Prop} (hgone : ∀ n, ¬ gone n) :
    Contracts h h gone id where
  mirrored := hm
  retires i hi := absurd hi (hgone i)
  moves i _ := by simp
  stays _ _ := rfl

theorem Contracts.congr (hc : Contracts h h' gone move) {gone' : NodeId → Prop}
    {move' : NodeId → NodeId} (hgone : ∀ n, gone' n ↔ gone n) (hmove : ∀ n, move' n = move n) :
    Contracts h h' gone' move' := by
  obtain rfl : gone' = gone := funext fun n => propext (hgone n)
  obtain rfl : move' = move := funext hmove
  exact hc

/-- Two steps of retiring nodes and moving edges are one. -/
theorem Contracts.trans {h'' : Graph} {gone' : NodeId → Prop} {move' : NodeId → NodeId}
    (hc : Contracts h h' gone move) (hc' : Contracts h' h'' gone' move') :
    Contracts h h'' (fun n => gone n ∨ gone' n) fun n => move' (move n) where
  mirrored := hc'.mirrored
  retires i hi := by
    by_cases hgone : gone i <;> by_cases hgone' : gone' i
    · rw [hc'.retires i hgone', hc.retires i hgone, Option.map_map]
      rfl
    · rw [hc'.moves i hgone', hc.retires i hgone, Option.map_map]
      rfl
    · rw [hc'.retires i hgone', hc.moves i hgone, Option.map_map]
      rfl
    · exact (hi.elim hgone hgone').elim
  moves i hi := by
    rw [not_or] at hi
    rw [hc'.moves i hi.2, hc.moves i hi.1, Option.map_map]
    congr 1
    funext y
    simp
  stays m hm := by
    rw [not_or] at hm
    rw [hc.stays m hm.1, hc'.stays m hm.2]

end contracts

/-! ### One exchange -/

variable {merged : Prop} {aligned : NodeId → Prop} {kept : NodeId → List Nat} {h h' : Graph}

/-- Exchanging a node keeps what is tracked, if its stand-in may take its place. -/
theorem Faithful.exchange {old new : NodeId} (hf : Faithful g r merged aligned kept h)
    (hx : h.exchange old new = .ok h') (hblock : ¬ Persists g r old) (hstays : ¬ Stays g r old)
    (hstop : old ≠ Anchor.stop) (hconst : ∀ v, ¬ h.IsConstant old v)
    (hstand : Tracked g r old → StandIn g r merged h old new)
    (hedge : ∀ b e, Persists g r b → e ∈ g.operands b → r.assignment.taken e = true →
      old ≠ new → Continues g h e old → Continues g h' e new)
    (hrests : ∀ n, g.Live n → Rests g h n old → Rests g h n new) :
    Faithful g r merged aligned kept h' := by
  by_cases hne : old = new
  · rw [Graph.exchange, if_pos hne] at hx
    cases hx
    exact hf
  have hc := Contracts.of_exchange hf.mirrored hne hx
  have hnew : ¬ new = old := fun heq => hne heq.symm
  refine hf.contract hc (fun b hb => ?_) (fun n hn => ?_) (fun heq => hstop heq.symm) ?_ ?_ ?_
  · rintro rfl
    exact hblock hb
  · rintro rfl
    exact hstays hn
  · rintro n m - - - rfl o' ht hp
    rw [if_pos rfl]
    rcases hp.2 with rfl | ⟨-, v, -, hv⟩
    · have := hc.standIn (fun hgone => absurd hgone hnew) (hstand ht)
      rwa [if_neg hnew] at this
    · exact absurd hv (hconst v)
  · rintro b e e' hb - rfl htaken he hcont
    rw [if_pos rfl]
    exact hedge b e hb he htaken hne hcont
  · rintro n m hn - - - rfl hrest
    rw [if_pos rfl]
    exact hc.rests hnew (hrests n hn hrest)

theorem Jumps.exchange {old new : NodeId} (hj : Jumps g r kept h) (hm : h.Mirrored)
    (hx : h.exchange old new = .ok h') (hblock : ¬ Persists g r old) : Jumps g r kept h' := by
  by_cases hne : old = new
  · rw [Graph.exchange, if_pos hne] at hx
    cases hx
    exact hj
  · refine hj.contract (Contracts.of_exchange hm hne hx) fun b hb => ?_
    rintro rfl
    exact hblock hb

/-- Retiring a node without users keeps what is tracked. -/
theorem Faithful.kill {n : NodeId} (hf : Faithful g r merged aligned kept h)
    (hk : h.kill n = .ok h') (hblock : ¬ Persists g r n) (hstop : n ≠ Anchor.stop)
    (husers : h.users n = []) : Faithful g r merged aligned kept h' := by
  have hunused : ∀ u, n ∉ h.operands u := by
    intro u hu
    have := hf.mirrored.mem_users.mpr hu
    rw [husers] at this
    cases this
  refine hf.contract (.of_kill hf.mirrored hk) (fun b hb => ?_) (fun m hm => ?_)
    (fun heq => hstop heq.symm) ?_ ?_ ?_
  · rintro rfl
    exact hblock hb
  · rintro rfl
    exact hunused Anchor.stop (hf.keepAlive m hm).1
  · rintro u m - - hu rfl
    exact absurd hu (hunused u)
  · rintro b e e' - hu rfl
    exact absurd hu (hunused b)
  · rintro u m - - - hu rfl
    exact absurd hu (hunused u)

theorem Jumps.kill {n : NodeId} (hj : Jumps g r kept h) (hm : h.Mirrored)
    (hk : h.kill n = .ok h') (hblock : ¬ Persists g r n) : Jumps g r kept h' := by
  refine hj.contract (.of_kill hm hk) fun b hb => ?_
  rintro rfl
  exact hblock hb

theorem Edges.start : Edges g r g := by
  intro c x _ hx _ m hm _ _
  rw [Graph.operands_eq hx] at hm ⊢
  exact ⟨m, hm, Nat.le_refl _, .inl rfl⟩

theorem exit_of_entersBlock {b : NodeId} {op : Op} (h : Graph.entersBlock b op = true) :
    op = .jump ∨ op = .ret ∨ ∃ side, op = .proj (.arm side) := by
  cases op with
  | jump => exact .inl rfl
  | ret => exact .inr (.inl rfl)
  | proj k =>
    cases k with
    | arm side => exact .inr (.inr ⟨side, rfl⟩)
    | _ => cases h
  | _ => cases h

/-- The predecessors in use are control edges. -/
theorem Edges.exit (he : Edges g r h) (hp : Premises g r)
    (hf : Faithful g r merged aligned kept h) {c m : NodeId} {x : Node} (hc : g.Live c)
    (hx : g.nodes[c]? = some x) (hop : x.op = .block) (hm : m ∈ h.operands c)
    (hbad : m ≠ Anchor.bad) (hused : h.isRetired m = false) :
    ∃ y, h.shape? m = some y ∧
      (y.op = .jump ∨ y.op = .ret ∨ ∃ side, y.op = .proj (.arm side)) := by
  obtain ⟨e, hex, -, rfl | ⟨-, u, w, hu, hsel, hw, hjump, -⟩⟩ := he c x hc hx hop m hm hbad hused
  · obtain ⟨-, z, hz, henters⟩ := hp.verified.predecessor c x hc hx hop m hex
    obtain ⟨y, hy, hyop⟩ := Graph.isRetired_eq_false_iff.mp hused
    have hop' : y.op = z.op := (hf.keeps (Graph.shape?_eq hz) hy).op.resolve_right hyop
    rw [← hop'] at henters
    exact ⟨y, hy, exit_of_entersBlock henters⟩
  · exact ⟨w, hw, .inl hjump⟩

/-- Exchanging what is no control edge, or with dead control. -/
theorem Edges.exchange (he : Edges g r h) (hp : Premises g r)
    (hf : Faithful g r merged aligned kept h) {old new : NodeId} {y : Shape}
    (hx : h.exchange old new = .ok h') (hy : h.shape? old = some y)
    (hkind : new = Anchor.bad ∨ y.op ≠ .retired ∧ y.op ≠ .jump ∧ y.op ≠ .ret ∧
      (∀ side, y.op ≠ .proj (.arm side)) ∧ y.op ≠ .bad) : Edges g r h' := by
  by_cases hne : old = new
  · rw [Graph.exchange, if_pos hne] at hx
    cases hx
    exact he
  refine he.contract (.of_exchange hf.mirrored hne hx) ?_
  rintro c x m hc hcx hop hm rfl
  rw [if_pos rfl]
  rcases hkind with rfl | ⟨hused, hjump, hret, harm, hdead⟩
  · exact .inl rfl
  · have hbad : m ≠ Anchor.bad := by
      rintro rfl
      exact (hf.anchor hp rfl hy).op.elim hdead hused
    obtain ⟨z, hz, hexit⟩ := he.exit hp hf hc hcx hop hm hbad
      (Graph.isRetired_eq_false_iff.mpr ⟨y, hy, hused⟩)
    rw [hy] at hz
    cases hz
    rcases hexit with hexit | hexit | ⟨side, hexit⟩
    · exact absurd hexit hjump
    · exact absurd hexit hret
    · exact absurd hexit (harm side)

theorem Edges.kill (he : Edges g r h) (hm : h.Mirrored) {n : NodeId} (hk : h.kill n = .ok h') :
    Edges g r h' := by
  have hc := Contracts.of_kill hm hk
  refine he.contract hc ?_
  rintro c x m - - - - rfl
  refine .inr ?_
  cases hret : h'.isRetired m with
  | true => exact hret
  | false => exact absurd rfl (hc.used_before hret).1

/-! ### New nodes -/

/-- Every node of `h` is in `h'` as it was. -/
def Extends (h h' : Graph) : Prop := ∀ n y, h.shape? n = some y → h'.shape? n = some y

theorem Extends.of_addNode {op : Op} {mode : Mode} {block : Option NodeId} {n : NodeId}
    (hadd : h.addNode op mode block [] = .ok (n, h')) : Extends h h' := by
  intro i y hy
  rw [Graph.shape?_addNode_of_ne hadd (Graph.ne_of_addNode hadd hy), hy]

theorem isConstant_of_addNode {v : Literal} {mode : Mode} {n : NodeId}
    (hadd : h.addNode (.const v) mode (some Anchor.startBlock) [] = .ok (n, h')) :
    h'.IsConstant n v :=
  ⟨_, Graph.shape?_addNode_self hadd, rfl, rfl⟩

theorem Extends.operands (he : Extends h h') {n m : NodeId} (hm : m ∈ h.operands n) :
    h'.operands n = h.operands n := by
  obtain ⟨y, hy, -⟩ := Graph.mem_operands_of_shape hm
  rw [Graph.operands_eq_of_shape hy, Graph.operands_eq_of_shape (he n y hy)]

theorem Extends.inUse (he : Extends h h') {n : NodeId} (hn : h.isRetired n = false) :
    h'.isRetired n = false := by
  obtain ⟨y, hy, hop⟩ := Graph.isRetired_eq_false_iff.mp hn
  exact Graph.isRetired_eq_false_iff.mpr ⟨y, he n y hy, hop⟩

theorem Extends.removed (he : Extends h h') {n : NodeId} (hn : h.Removed n) : h'.Removed n := by
  obtain ⟨y, hy, hop⟩ := hn
  exact ⟨y, he n y hy, hop⟩

theorem Extends.isConstant (he : Extends h h') {n : NodeId} {v : Literal}
    (hn : h.IsConstant n v) : h'.IsConstant n v := by
  obtain ⟨y, hy, hv⟩ := hn
  exact ⟨y, he n y hy, hv⟩

theorem Extends.standIn (he : Extends h h') {o m : NodeId} (hs : StandIn g r merged h o m) :
    StandIn g r merged h' o m := by
  obtain ⟨o', hpath, hend⟩ := hs
  refine ⟨o', hpath, fun ht => ⟨he.inUse (hend ht).1, (hend ht).2.imp id ?_⟩⟩
  rintro ⟨hdiv, v, hv, hconst⟩
  exact ⟨hdiv, v, hv, he.isConstant hconst⟩

theorem Extends.continues (he : Extends h h') {e e' : NodeId} (hc : Continues g h e e') :
    Continues g h' e e' := by
  obtain ⟨hret, hbad, hcase⟩ := hc
  refine ⟨he.inUse hret, hbad, hcase.imp id ?_⟩
  rintro ⟨hsize, hgone, y, hy, hjump⟩
  exact ⟨hsize, he.removed hgone, y, he e' y hy, hjump⟩

theorem Extends.rests (he : Extends h h') {n m : NodeId} (hrest : Rests g h n m) :
    Rests g h' n m := by
  rcases hrest with hdep | ⟨v, hv⟩ | hbad | ⟨y, b, hsize, hy, hjump⟩
  · exact .inl hdep
  · exact .inr (.inl ⟨v, he.isConstant hv⟩)
  · exact .inr (.inr (.inl hbad))
  · exact .inr (.inr (.inr ⟨y, b, hsize, he m y hy, hjump⟩))

/-- A node without operands that nothing uses yet changes nothing that is tracked. -/
theorem Faithful.addNode (hf : Faithful g r merged aligned kept h) {op : Op} {mode : Mode}
    {block : Option NodeId} {n : NodeId} (hadd : h.addNode op mode block [] = .ok (n, h'))
    (hop : (∃ v, op = .const v ∧ block = some Anchor.startBlock) ∨ op = .jump) :
    Faithful g r merged aligned kept h' := by
  have he := Extends.of_addNode hadd
  have hback : ∀ i y, i ≠ n → h'.shape? i = some y → h.shape? i = some y := by
    intro i y hi hy
    rwa [Graph.shape?_addNode_of_ne hadd hi] at hy
  have hslot : ∀ i x, g.nodes[i]? = some x → i ≠ n := by
    intro i x hx
    obtain ⟨y, hy, -⟩ := hf.slot i _ (Graph.shape?_eq hx)
    exact Graph.ne_of_addNode hadd hy
  refine
    { mirrored := hf.mirrored.addNode hadd
      slot := fun i x hx => ?_
      fresh := fun i y hi hy => ?_
      ascending := hf.ascending
      covers := hf.covers
      block := fun b hb => ?_
      phi := fun i x b y ht hx hphi hb hy hu ha => ?_
      node := fun i x y ht hx hphi hy hu => ?_
      keepAlive := fun i hi => ?_
      rests := fun i m hi hu hm => ?_ }
  · obtain ⟨y, hy, hkeep⟩ := hf.slot i x hx
    exact ⟨y, he i y hy, hkeep⟩
  · by_cases hnew : i = n
    · rw [hnew, Graph.shape?_addNode_self hadd] at hy
      cases hy
      exact ⟨rfl, .inr hop⟩
    · exact hf.fresh i y hi (hback i y hnew hy)
  · obtain ⟨y, hy, hblock, hlen, hpos⟩ := hf.block b hb
    refine ⟨y, he b y hy, hblock, hlen, fun i k e hi hk => ?_⟩
    obtain ⟨e', he', hcont⟩ := hpos i k e hi hk
    exact ⟨e', he', he.continues hcont⟩
  · obtain ⟨hlen, hpos⟩ := hf.phi i x b y ht hx hphi hb (hback i y (hslot i x hx) hy) hu ha
    refine ⟨hlen, fun j k e o hj hk ho => ?_⟩
    obtain ⟨m, hm, hs⟩ := hpos j k e o hj hk ho
    exact ⟨m, hm, he.standIn hs⟩
  · exact (hf.node i x y ht hx hphi (hback i y (hslot i x hx) hy) hu).imp fun _ _ => he.standIn
  · obtain ⟨hold, hused⟩ := hf.keepAlive i hi
    exact ⟨by rwa [he.operands hold], he.inUse hused⟩
  · rw [Graph.operands_addNode hadd] at hm
    rw [Graph.isRetired_congr (Graph.shape?_addNode_of_ne hadd ?_)] at hu
    · exact he.rests (hf.rests i m hi hu hm)
    · obtain ⟨y, hy, -⟩ := Graph.mem_operands_of_shape hm
      exact Graph.ne_of_addNode hadd hy

/-- A new node without users is no predecessor. -/
theorem Edges.addNode (hd : Edges g r h) (hm : h.Mirrored) {op : Op} {mode : Mode}
    {block : Option NodeId} {n : NodeId} (hadd : h.addNode op mode block [] = .ok (n, h')) :
    Edges g r h' := by
  have he := Extends.of_addNode hadd
  intro c x hc hx hop m hmem hbad hused
  rw [Graph.operands_addNode hadd] at hmem ⊢
  have hold : m ≠ n := (Graph.addNode_eq_ok hadd).1 ▸ Nat.ne_of_lt (hm.lt_size hmem)
  rw [Graph.isRetired_congr (Graph.shape?_addNode_of_ne hadd hold)] at hused
  obtain ⟨e, hex, hcount, horigin⟩ := hd c x hc hx hop m hmem hbad hused
  refine ⟨e, hex, hcount, horigin.imp id ?_⟩
  rintro ⟨hge, u, w, hu, hsel, hw, hjump⟩
  exact ⟨hge, u, w, hu, hsel, he m w hw, hjump⟩

/-- A new constant is no jump. -/
theorem Jumps.addConstant (hj : Jumps g r kept h) {v : Literal} {mode : Mode}
    {block : Option NodeId} {n : NodeId}
    (hadd : h.addNode (.const v) mode block [] = .ok (n, h')) : Jumps g r kept h' := by
  have he := Extends.of_addNode hadd
  intro j y hj' hy hop
  by_cases hnew : j = n
  · rw [hnew, Graph.shape?_addNode_self hadd] at hy
    cases hy
    cases hop
  · rw [Graph.shape?_addNode_of_ne hadd hnew] at hy
    obtain ⟨e, x, hlive, hx, hsel, hgone, hblock, hplace⟩ := hj j y hj' hy hop
    refine ⟨e, x, hlive, hx, hsel, he.removed hgone, hblock, fun b k hb hk => ?_⟩
    obtain ⟨i, hi, hat⟩ := hplace b k hb hk
    exact ⟨i, hi, by rwa [he.operands (List.mem_of_getElem? hat)]⟩

/-! ### Jumps in the place of arms -/

/-- The arm `n`, which is always chosen, gives way to the new jump `j`: `h₁` is `h` with the jump,
and `h'` has it in the place of the arm. -/
structure Supplanting (g : Graph) (r : Solution) (h h₁ h' : Graph) (n j b : NodeId) (x : Node) :
    Prop where
  slot : g.nodes[n]? = some x
  selected : Selected r x
  inUse : h.isRetired n = false
  block : x.block = some b
  addNode : h.addNode .jump .control (some b) [] = .ok (j, h₁)
  exchange : h₁.exchange n j = .ok h'

section supplanting

variable {h₁ : Graph} {n j b : NodeId} {x : Node}

theorem Supplanting.shape (hs : Supplanting g r h h₁ h' n j b x) :
    h₁.shape? j = some ⟨.jump, .control, some b, []⟩ :=
  Graph.shape?_addNode_self hs.addNode

theorem Supplanting.size_le (hs : Supplanting g r h h₁ h' n j b x)
    (hf : Faithful g r merged aligned kept h) : g.size ≤ j :=
  (Graph.addNode_eq_ok hs.addNode).1 ▸ hf.size_le

theorem Supplanting.ne (hs : Supplanting g r h h₁ h' n j b x)
    (hf : Faithful g r merged aligned kept h) : n ≠ j := by
  rintro rfl
  exact absurd (hs.size_le hf) (Nat.not_le_of_lt (Graph.lt_size_of_getElem? hs.slot))

theorem Supplanting.contracts (hs : Supplanting g r h h₁ h' n j b x)
    (hf : Faithful g r merged aligned kept h) :
    Contracts h₁ h' (· = n) fun m => if m = n then j else m :=
  .of_exchange (hf.mirrored.addNode hs.addNode) (hs.ne hf) hs.exchange

theorem Supplanting.shape_after (hs : Supplanting g r h h₁ h' n j b x)
    (hf : Faithful g r merged aligned kept h) :
    h'.shape? j = some ⟨.jump, .control, some b, []⟩ :=
  (hs.contracts hf).shape (hs.ne hf).symm hs.shape

theorem Supplanting.removed (hs : Supplanting g r h h₁ h' n j b x)
    (hf : Faithful g r merged aligned kept h) : h'.Removed n := by
  obtain ⟨y, hy, -⟩ :=
    Graph.isRetired_eq_false_iff.mp ((Extends.of_addNode hs.addNode).inUse hs.inUse)
  exact ⟨_, by rw [(hs.contracts hf).retires n rfl, hy]; rfl, rfl⟩

/-- Nothing uses the jump before the arm gives way. -/
theorem Supplanting.unused (hs : Supplanting g r h h₁ h' n j b x)
    (hf : Faithful g r merged aligned kept h) (c : NodeId) : j ∉ h₁.operands c := by
  intro hmem
  rw [Graph.operands_addNode hs.addNode] at hmem
  exact absurd (hf.mirrored.lt_size hmem) ((Graph.addNode_eq_ok hs.addNode).1 ▸ Nat.lt_irrefl _)

/-- The jump comes as often as the arm did, and the others as often as before. -/
theorem Supplanting.edges (hs : Supplanting g r h h₁ h' n j b x)
    (hf : Faithful g r merged aligned kept h) (he : Edges g r h) (hbad : n ≠ Anchor.bad) :
    Edges g r h' := by
  have he := he.addNode hf.mirrored hs.addNode
  have hc := hs.contracts hf
  intro c u hlive hu hop m' hm' hdead hused
  obtain ⟨hstay, k, hk, hkm⟩ := hc.mem_operands hm'
  have hcount : (h'.operands c).count m' = (h₁.operands c).count k := by
    refine hc.count_operands hstay fun l hl => ?_
    have hkj : k ≠ j := fun heq => hs.unused hf c (heq ▸ hk)
    have hlj : l ≠ j := fun heq => hs.unused hf c (heq ▸ hl)
    grind
  by_cases hkn : k = n
  · subst hkn
    rw [if_pos rfl] at hkm
    obtain ⟨e, heu, hle, horigin⟩ :=
      he c u hlive hu hop k hk hbad ((Extends.of_addNode hs.addNode).inUse hs.inUse)
    obtain rfl : k = e := by
      rcases horigin with heq | ⟨hsize, -⟩
      · exact heq
      · exact absurd hsize (Nat.not_le_of_lt (Graph.lt_size_of_getElem? hs.slot))
    rw [← hcount] at hle
    rw [← hkm] at hle ⊢
    exact ⟨k, heu, hle, .inr ⟨hs.size_le hf, x, _, hs.slot, hs.selected, hs.shape_after hf, rfl,
      hs.block.symm⟩⟩
  · rw [if_neg hkn] at hkm
    subst hkm
    obtain ⟨e, heu, hle, horigin⟩ := he c u hlive hu hop k hk hdead
      (by rw [← hc.isRetired hkn, hused])
    refine ⟨e, heu, by rwa [hcount], horigin.imp id ?_⟩
    rintro ⟨hsize, a, w, ha, hselect, hw, hkind⟩
    exact ⟨hsize, a, _, ha, hselect, hc.shape hkn hw, hkind⟩

/-- The jump is where the arm was. -/
theorem Supplanting.at_arm (hs : Supplanting g r h h₁ h' n j b x)
    (hf : Faithful g r merged aligned kept h) (hn : ¬ Persists g r n) {c : NodeId} {k : Nat}
    (hc : Persists g r c) (hk : Enters g r c k n) :
    ∃ i : Nat, (kept c)[i]? = some k ∧ (h'.operands c)[i]? = some j := by
  have he := Extends.of_addNode hs.addNode
  have hstay : ¬ c = n := by
    rintro rfl
    exact hn hc
  obtain ⟨i, hi⟩ := List.mem_iff_getElem?.mp (hf.covers c hc k n hk)
  obtain ⟨w, hw, -, -, hpos⟩ := hf.block c hc
  obtain ⟨e, hat, -, -, hcase⟩ := hpos i k n hi hk
  obtain rfl : e = n := by
    rcases hcase with heq | ⟨-, hremoved, -⟩
    · exact heq
    · exact absurd hremoved (Graph.not_removed hs.inUse)
  refine ⟨i, hi, ?_⟩
  rw [(hs.contracts hf).operands_map hstay, Graph.operands_eq_of_shape (he c w hw),
    List.getElem?_map, hat, Option.map_some, if_pos rfl]

/-- The jumps there were stay where they are. -/
theorem Supplanting.jumps (hs : Supplanting g r h h₁ h' n j b x)
    (hf : Faithful g r merged aligned kept h) (hj : Jumps g r kept h) (hlive : g.Live n)
    (hn : ¬ Persists g r n) : Jumps g r kept h' := by
  have he := Extends.of_addNode hs.addNode
  have hc := hs.contracts hf
  intro i z hi hz hop
  by_cases hij : i = j
  · subst hij
    rw [hs.shape_after hf] at hz
    cases hz
    exact ⟨n, x, hlive, hs.slot, hs.selected, hs.removed hf, hs.block,
      fun c k => hs.at_arm hf hn⟩
  · obtain ⟨hin, w, hw, rfl⟩ := hc.back hz (by rw [hop]; decide)
    rw [Graph.shape?_addNode_of_ne hs.addNode hij] at hw
    obtain ⟨e, u, hlive, hu, hsel, hold, hblock, hplace⟩ := hj i w hi hw hop
    refine ⟨e, u, hlive, hu, hsel, hc.removed (he.removed hold), hblock, fun c k hcp hk => ?_⟩
    obtain ⟨l, hl, hat⟩ := hplace c k hcp hk
    have hstay : ¬ c = n := by
      rintro rfl
      exact hn hcp
    refine ⟨l, hl, ?_⟩
    rw [hc.operands_map hstay, he.operands (List.mem_of_getElem? hat), List.getElem?_map, hat,
      Option.map_some, if_neg hin]

/-- The jump goes on where the arm did. -/
theorem Supplanting.continues (hs : Supplanting g r h h₁ h' n j b x)
    (hf : Faithful g r merged aligned kept h) (hg : g.Built) {e : NodeId}
    (he : Continues g h₁ e n) : Continues g h' e j := by
  have hge := hs.size_le hf
  have hshape := hs.shape_after hf
  obtain ⟨-, -, rfl | ⟨hsize, -⟩⟩ := he
  · refine ⟨Graph.isRetired_eq_false_iff.mpr ⟨_, hshape, by simp⟩, ?_,
      .inr ⟨hge, hs.removed hf, _, hshape, rfl, ?_⟩⟩
    · rintro rfl
      obtain ⟨z, hz, -⟩ := hg.keeps_anchor (i := Anchor.bad) rfl
      obtain ⟨w, hw, -⟩ := Option.map_eq_some_iff.mp hz
      exact absurd hge (Nat.not_le_of_lt (Graph.lt_size_of_getElem? hw))
    · rw [Graph.blockOf_eq hs.slot, hs.block]
  · exact absurd hsize (Nat.not_le_of_lt (Graph.lt_size_of_getElem? hs.slot))

end supplanting

end Rewriting

end SeaOfNodes
