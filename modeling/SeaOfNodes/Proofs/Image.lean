import SeaOfNodes.Proofs.Cleaning
import SeaOfNodes.Substitution

/-!
What folding leaves of a structured graph.

`Image` relates a graph `h` to the graph `g` it was made from, through a renaming `σ` that says
which node of `h` stands where a node of `g` stood. A node of `g` that is left has its operands
renamed, at the positions that are kept; one that was replaced was replaced for one of a few
reasons (`Gives`), and the renaming follows each of them. Whatever a pass does is one of four
steps: retiring nodes and moving edges (`Image.contract`), adding a node (`Image.addNode`),
removing operands (`Image.trim`), and looking at fewer nodes (`Image.restrict`).
-/

namespace SeaOfNodes

/-! ### Elements at positions -/

/-- The elements at the positions `ks`. -/
def pick {α : Type} (l : List α) (ks : List Nat) : List α := ks.filterMap fun k => l[k]?

section pick

variable {α : Type} {l : List α} {ks : List Nat}

theorem mem_pick {a : α} : a ∈ pick l ks ↔ ∃ k ∈ ks, l[k]? = some a := by
  simp [pick]

theorem pick_range (l : List α) : pick l (List.range l.length) = l := by
  induction l with
  | nil => rfl
  | cons a l ih =>
    rw [pick, List.length_cons, List.range_succ_eq_map, List.filterMap_cons, List.filterMap_map]
    exact congrArg (a :: ·) ih

theorem pick_cons {k : Nat} (hk : k < l.length) (ks : List Nat) :
    pick l (k :: ks) = l[k] :: pick l ks := by
  simp [pick, hk]

theorem length_pick (h : ∀ k ∈ ks, k < l.length) : (pick l ks).length = ks.length := by
  induction ks with
  | nil => rfl
  | cons k ks ih =>
    rw [pick_cons (h k List.mem_cons_self), List.length_cons, List.length_cons,
      ih fun j hj => h j (List.mem_cons_of_mem k hj)]

theorem getElem?_pick (h : ∀ k ∈ ks, k < l.length) (i : Nat) :
    (pick l ks)[i]? = ks[i]?.bind fun k => l[k]? := by
  induction ks generalizing i with
  | nil => rfl
  | cons k ks ih =>
    have hk := h k List.mem_cons_self
    rw [pick_cons hk]
    cases i with
    | zero => simp [hk]
    | succ i =>
      simp only [List.getElem?_cons_succ]
      exact ih (fun j hj => h j (List.mem_cons_of_mem k hj)) i

theorem pick_eraseIdx (h : ∀ k ∈ ks, k < l.length) (i : Nat) :
    pick l (ks.eraseIdx i) = (pick l ks).eraseIdx i := by
  induction ks generalizing i with
  | nil => rfl
  | cons k ks ih =>
    have hk := h k List.mem_cons_self
    rw [pick_cons hk]
    cases i with
    | zero => rfl
    | succ i =>
      simp only [List.eraseIdx_cons_succ]
      rw [pick_cons hk, ih fun j hj => h j (List.mem_cons_of_mem k hj)]

end pick

/-! ### Structured graphs -/

namespace Graph

/-- The structural conditions on a graph: its anchors are in use, its edges are recorded on both
sides, and its live nodes stand in blocks whose predecessors and phis match. -/
structure Structured (g : Graph) : Prop where
  anchor : ∀ n ∈ Anchor.all, g.isRetired n = false
  leaf : ∀ n x, g.shape? n = some x → (∃ v, x.op = .const v) ∨ x.op = .bad → x.operands = []
  mirrored : g.Mirrored
  inUse : ∀ n m, g.Live n → m ∈ g.inputs n → g.isRetired m = false
  placed : ∀ n x, g.Live n → g.shape? n = some x → x.op ≠ .block →
    ∃ b y, x.block = some b ∧ g.shape? b = some y ∧ y.op = .block
  outermost : ∀ b x, g.Live b → g.shape? b = some x → x.op = .block → x.block = none
  predecessor : ∀ b x, g.Live b → g.shape? b = some x → x.op = .block → ∀ p ∈ x.operands,
    p = Anchor.bad ∨ ∃ y, g.shape? p = some y ∧ entersBlock b y.op = true
  phi : ∀ n x b, g.Live n → g.shape? n = some x → x.op = .phi → x.block = some b →
    x.operands.length = (g.operands b).length

theorem Structured.used {g : Graph} (hs : g.Structured) {n : NodeId} (hn : g.Live n) :
    g.isRetired n = false := by
  obtain ⟨root, hroot, hpath⟩ := hn
  cases hpath with
  | refl =>
    refine hs.anchor n ?_
    simp only [List.mem_cons, List.not_mem_nil, or_false] at hroot
    rcases hroot with rfl | rfl | rfl <;> decide
  | tail _ hlast => exact hlast.2

/-- The anchors of a graph are live, if they are in use and stand in their blocks. -/
theorem anchor_live {g : Graph} (hused : ∀ n ∈ Anchor.all, g.isRetired n = false)
    (hstart : g.blockOf Anchor.start = some Anchor.startBlock)
    (hstop : g.blockOf Anchor.stop = some Anchor.endBlock) : ∀ n ∈ Anchor.all, g.Live n := by
  have hroot {n b : NodeId} (hn : n ∈ [Anchor.stop, Anchor.start, Anchor.bad])
      (hb : g.blockOf n = some b) (hret : g.isRetired b = false) : g.Live b := by
    refine Live.needs ⟨n, hn, .refl⟩ ⟨?_, hret⟩
    obtain ⟨x, hx, hxb⟩ := Option.bind_eq_some_iff.mp hb
    rw [inputs_eq hx, Node.inputs, hxb]
    exact List.mem_append_left _ (List.mem_singleton_self b)
  intro n hn
  simp only [Anchor.all, List.mem_cons, List.not_mem_nil, or_false] at hn
  rcases hn with rfl | rfl | rfl | rfl | rfl
  · exact hroot (by simp) hstart (hused _ (by decide))
  · exact hroot (by simp) hstop (hused _ (by decide))
  · exact ⟨_, by simp, .refl⟩
  · exact ⟨_, by simp, .refl⟩
  · exact ⟨_, by simp, .refl⟩

end Graph

/-- The kinds whose value is exchanged with a constant. -/
def Op.isFolded : Op → Bool
  | .phi | .binary _ | .cmp _ | .minus | .not | .conv => true
  | _ => false

namespace Image

variable (g : Graph) (r : Solution)

/-- What is assumed of a graph and of the facts about it. -/
structure Basis : Prop where
  built : g.Built
  structured : g.Structured
  describes : r.Describes g
  /-- The arms of branches hang off branches. -/
  arm : ∀ n x side, g.Live n → g.shape? n = some x → x.op = .proj (.arm side) →
    ∃ t y, x.operands.head? = some t ∧ g.shape? t = some y ∧ y.op = .cond

/-- Divisions are used by their memory states and results only. -/
def Projected : Prop :=
  ∀ d x u y, g.shape? d = some x → x.op.isDivision = true → g.shape? u = some y →
    d ∈ y.operands → y.op = .proj .memory ∨ y.op = .proj .result

/-- No division consumes a division itself in the place of a memory state. -/
def Apart : Prop :=
  ∀ d x m y, g.Live d → g.shape? d = some x → x.op.isDivision = true →
    x.operands.head? = some m → g.shape? m = some y → y.op.isDivision = false

variable {g} in
theorem Projected.apart (h : Projected g) : Apart g := by
  intro d x m y _ hx hdiv hm hy
  cases hop : y.op.isDivision with
  | false => rfl
  | true =>
    rcases h m y d x hy hop hx (List.mem_of_mem_head? hm) with hkind | hkind <;>
      · rw [hkind] at hdiv
        cases hdiv

/-- Something is known of every branch with an arm in a reachable block. -/
def Decided (a : Assignment) : Prop :=
  ∀ n x side, g.Live n → g.nodes[n]? = some x → x.op = .proj (.arm side) →
    a.enters x = true → a.operand x 0 ≠ .unknown

/-! ### Why a node is replaced -/

/-- `c` is a constant of the start block that carries `v`, or was one until it was retired. -/
structure Carries (h : Graph) (c : NodeId) (v : Literal) : Prop where
  origin : g.size ≤ c ∨ g.IsConstant c v
  now : ∃ y, h.shape? c = some y ∧ y.block = some Anchor.startBlock ∧
    (y.op = .const v ∨ y.op = .retired)

/-- `j` is a jump that was added to the block `b`. -/
def Jump (h : Graph) (j b : NodeId) : Prop :=
  g.size ≤ j ∧ ∃ y, h.shape? j = some y ∧ y.block = some b ∧ (y.op = .jump ∨ y.op = .retired)

/-- `d` is a live division whose result is `v`. -/
def Quotient (d : NodeId) (v : Literal) : Prop :=
  g.Live d ∧ (∃ y, g.shape? d = some y ∧ y.op.isDivision = true) ∧ r.constant? d = some v

/-- `m` may be put in the place of `n`. -/
inductive Gives (h : Graph) : NodeId → NodeId → Prop where
  /-- The value of the node is known. -/
  | fold {n c : NodeId} {x : Shape} {v : Literal} : g.Live n → g.shape? n = some x →
    x.op.isFolded = true → x.mode.isFoldable = true → r.constant? n = some v →
    Carries g h c v → Gives h n c
  /-- The result of a division is known. -/
  | quotient {p d c : NodeId} {x : Shape} {v : Literal} : g.Live p → g.shape? p = some x →
    x.op = .proj .result → Quotient g r d v → (Apart g → d ∈ x.operands) →
    Carries g h c ((v.convert? x.mode).getD v) → Gives h p c
  /-- A division hands on the memory state it consumed. -/
  | splice {p d m : NodeId} {x : Shape} {v : Literal} : g.Live p → g.shape? p = some x →
    x.op = .proj .memory → Quotient g r d v → (Apart g → d ∈ x.operands) →
    (g.operands d).head? = some m → Gives h p m
  /-- The arm is the one that is always chosen. -/
  | jump {n t b j : NodeId} {x : Shape} {side : Bool} {v : Literal} : g.Live n →
    g.shape? n = some x → x.op = .proj (.arm side) → x.operands.head? = some t →
    r.constant? t = some v → v.toBool? = some side → x.block = some b → Jump g h j b → Gives h n j
  /-- The arm is never chosen. -/
  | dead {n t : NodeId} {x : Shape} {side other : Bool} {v : Literal} : g.Live n →
    g.shape? n = some x → x.op = .proj (.arm side) → x.operands.head? = some t →
    r.constant? t = some v → v.toBool? = some other → other ≠ side → Gives h n Anchor.bad
  /-- Control enters the block of the phi at one position at most, and comes to the block if
  something is known of every branch. -/
  | merge {n b o : NodeId} {x : Shape} {k : Nat} : g.Live n → g.shape? n = some x →
    x.op = .phi → x.block = some b →
    (∀ j p, (g.operands b)[j]? = some p → r.assignment.taken p = true → j = k) →
    x.operands[k]? = some o → (Decided g r.assignment → r.assignment.reachable b = true) →
    Gives h n o
  /-- The node stands in a block that control never enters. -/
  | bury {n b : NodeId} {x : Shape} : g.Live n → g.shape? n = some x → x.op ≠ .block →
    x.block = some b → r.assignment.reachable b = false → Gives h n Anchor.bad
  | buryJump {j b : NodeId} : Jump g h j b → r.assignment.reachable b = false →
    Gives h j Anchor.bad
  | block {b : NodeId} {x : Shape} : g.Live b → g.shape? b = some x → x.op = .block →
    r.assignment.reachable b = false → Gives h b Anchor.bad

/-- `m` may be put in the place of `n`, and the same node stands in for both. -/
def Yields (σ : NodeId → NodeId) (h : Graph) (n m : NodeId) : Prop := Gives g r h n m ∧ σ n = σ m

end Image

/-! ### The relation -/

open Image in
/-- What `h` has kept of `g`, as far as the nodes `A` go. -/
structure Image (g : Graph) (r : Solution) (σ : NodeId → NodeId) (K : NodeId → List Nat)
    (A : NodeId → Prop) (h : Graph) : Prop where
  mirrored : h.Mirrored
  slot : ∀ n x, g.shape? n = some x → ∃ y, h.shape? n = some y ∧ x.Keeps y
  leaf : ∀ n x, g.shape? n = some x → (∃ v, x.op = .const v) ∨ x.op = .bad → h.operands n = []
  fresh : ∀ n y, g.size ≤ n → h.shape? n = some y → y.operands = [] ∧
    (y.op = .retired ∨ (∃ v, y.op = .const v) ∧ y.block = some Anchor.startBlock ∨
      y.op = .jump ∧ ∃ b x, y.block = some b ∧ g.Live b ∧ g.shape? b = some x ∧ x.op = .block)
  anchor : ∀ n ∈ Anchor.all, A n ∧ h.isRetired n = false
  scope : ∀ n, A n → g.Live n ∨ g.size ≤ n ∨ ∃ v, g.IsConstant n v
  /-- What the nodes in use depend on is in use. -/
  closed : ∀ n m, A n → h.isRetired n = false → m ∈ h.inputs n → A m ∧ h.isRetired m = false
  self : ∀ n, ¬ h.Removed n → σ n = n
  /-- Constants of the start block are never replaced. -/
  constant : ∀ c v, Carries g h c v → σ c = c
  operands : ∀ n, n ≠ Anchor.stop → A n → g.Live n → h.isRetired n = false →
    h.operands n = (pick (g.operands n) (K n)).map σ
  stop : ∀ m ∈ h.operands Anchor.stop, ∃ o ∈ g.operands Anchor.stop, m = σ o
  positions : ∀ n, (K n).Sublist (List.range (g.operands n).length)
  /-- Only blocks and phis lose operands. -/
  whole : ∀ n x, g.shape? n = some x → x.op ≠ .block → x.op ≠ .phi →
    K n = List.range (g.operands n).length
  aligned : ∀ n x b, A n → g.shape? n = some x → x.op = .phi → x.block = some b →
    h.isRetired n = false → K n = K b
  /-- Edges that control passes are kept. -/
  kept : ∀ b x, A b → g.shape? b = some x → x.op = .block → h.isRetired b = false →
    ∀ k p, x.operands[k]? = some p → r.assignment.taken p = true → k ∈ K b
  /-- What stands in for a node does so for reasons that the renaming follows. -/
  trail : ∀ n, g.Live n → Relation.ReflTransGen (Yields g r σ h) n (σ n)

namespace Image

open Rewriting

variable {g : Graph} {r : Solution} {σ : NodeId → NodeId} {K : NodeId → List Nat}
  {A : NodeId → Prop} {h h' : Graph}

/-! ### Reasons hold on -/

theorem Carries.descend {c : NodeId} {v : Literal} (hc : Carries g h c v) (hd : Descends h h') :
    Carries g h' c v := by
  obtain ⟨y, hy, hblock, hop⟩ := hc.now
  obtain ⟨z, hz, hkeep⟩ := hd c y hy
  refine ⟨hc.origin, z, hz, hkeep.block.trans hblock, ?_⟩
  rcases hkeep.op with heq | heq
  · rw [heq]
    exact hop
  · exact .inr heq

theorem Jump.descend {j b : NodeId} (hj : Jump g h j b) (hd : Descends h h') : Jump g h' j b := by
  obtain ⟨hsize, y, hy, hblock, hop⟩ := hj
  obtain ⟨z, hz, hkeep⟩ := hd j y hy
  refine ⟨hsize, z, hz, hkeep.block.trans hblock, ?_⟩
  rcases hkeep.op with heq | heq
  · rw [heq]
    exact hop
  · exact .inr heq

theorem Gives.descend {n m : NodeId} (hg : Gives g r h n m) (hd : Descends h h') :
    Gives g r h' n m := by
  cases hg with
  | fold hn hx hop hmode hv hc => exact .fold hn hx hop hmode hv (hc.descend hd)
  | quotient hn hx hop hq hd' hc => exact .quotient hn hx hop hq hd' (hc.descend hd)
  | splice hn hx hop hq hd' hm => exact .splice hn hx hop hq hd' hm
  | jump hn hx hop ht hv hb hblock hj => exact .jump hn hx hop ht hv hb hblock (hj.descend hd)
  | dead hn hx hop ht hv hb hne => exact .dead hn hx hop ht hv hb hne
  | merge hn hx hop hb hk ho hreach => exact .merge hn hx hop hb hk ho hreach
  | bury hn hx hop hb hr => exact .bury hn hx hop hb hr
  | buryJump hj hr => exact .buryJump (hj.descend hd) hr
  | block hb hx hop hr => exact .block hb hx hop hr

theorem trail_descend {n m : NodeId} (hp : Relation.ReflTransGen (Yields g r σ h) n m)
    (hd : Descends h h') : Relation.ReflTransGen (Yields g r σ h') n m :=
  Relation.ReflTransGen.mono (fun _ _ hg => ⟨hg.1.descend hd, hg.2⟩) n m hp

/-- The same node stands in for all nodes of a trail. -/
theorem eq_of_trail {n m : NodeId} (hp : Relation.ReflTransGen (Yields g r σ h) n m) :
    σ n = σ m := by
  induction hp with
  | refl => rfl
  | tail _ hlast ih => exact ih.trans hlast.2

theorem path (hi : Image g r σ K A h) (n : NodeId) (hn : g.Live n) :
    Relation.ReflTransGen (Gives g r h) n (σ n) :=
  Relation.ReflTransGen.mono (fun _ _ hg => hg.1) n (σ n) (hi.trail n hn)

/-- A node stands for itself, or another stands in its place. -/
theorem fate (hi : Image g r σ K A h) (n : NodeId) (hn : g.Live n) :
    σ n = n ∨ ∃ m, Gives g r h n m ∧ σ n = σ m := by
  rcases (hi.trail n hn).cases_head with heq | ⟨m, hfirst, -⟩
  · exact .inl heq.symm
  · exact .inr ⟨m, hfirst⟩

/-- A property that reasons carry over holds of what stands in for a node. -/
theorem path_induction {P : NodeId → Prop} (hP : ∀ n m, P n → Gives g r h n m → P m)
    {n m : NodeId} (hp : Relation.ReflTransGen (Gives g r h) n m) (hn : P n) : P m := by
  induction hp with
  | refl => exact hn
  | tail _ hlast ih => exact hP _ _ ih hlast

/-- The nodes that folding deals with. -/
def Scope (g : Graph) (n : NodeId) : Prop := g.Live n ∨ g.size ≤ n ∨ ∃ v, g.IsConstant n v

theorem Scope.live {n : NodeId} {x : Shape} (hn : Scope g n) (hx : g.shape? n = some x)
    (hop : ∀ v, x.op ≠ .const v) : g.Live n := by
  rcases hn with hn | hn | ⟨v, y, hy, hv, -⟩
  · exact hn
  · exact absurd (Graph.lt_size_of_shape? hx) (Nat.not_lt_of_le hn)
  · rw [hx] at hy
    cases hy
    exact absurd hv (hop v)

theorem Gives.scope (hb : Basis g r) {n m : NodeId} (hg : Gives g r h n m) : Scope g m := by
  have hbad : Scope g Anchor.bad := .inl ⟨Anchor.bad, by simp, .refl⟩
  have hoperand {u : NodeId} {o : NodeId} (hu : g.Live u) (ho : o ∈ g.operands u) : Scope g o := by
    obtain ⟨x, hx, hmem⟩ := Graph.mem_operands_of_shape ho
    obtain ⟨y, hy, rfl⟩ := Option.map_eq_some_iff.mp hx
    exact .inl (hb.describes.operands_live hu hy o hmem)
  have hcarries {c : NodeId} {v : Literal} (hc : Carries g h c v) : Scope g c :=
    .inr (hc.origin.imp id fun hv => ⟨v, hv⟩)
  cases hg with
  | fold hn hx hop hmode hv hc => exact hcarries hc
  | quotient hn hx hop hq hd hc => exact hcarries hc
  | splice hn hx hop hq hd hm => exact hoperand hq.1 (List.mem_of_mem_head? hm)
  | jump hn hx hop ht hv hb hblock hj => exact .inr (.inl hj.1)
  | dead => exact hbad
  | merge hn hx hop hb hk ho =>
    refine hoperand hn ?_
    rw [Graph.operands_eq_of_shape hx]
    exact List.mem_of_getElem? ho
  | bury => exact hbad
  | buryJump => exact hbad
  | block => exact hbad

/-- Nothing may be put in the place of a constant of the start block. -/
theorem Carries.not_gives (hb : Basis g r) {c m : NodeId} {v : Literal} (hc : Carries g h c v) :
    ¬ Gives g r h c m := by
  have hentry : r.assignment.reachable Anchor.startBlock = true := hb.describes.solves.entry
  -- In `g` the slot is a constant of the start block, if it is there at all.
  have hslot {x : Shape} (hx : g.shape? c = some x) :
      x.op = .const v ∧ x.block = some Anchor.startBlock := by
    rcases hc.origin with hsize | ⟨y, hy, hop, hblock⟩
    · exact absurd (Graph.lt_size_of_shape? hx) (Nat.not_lt_of_le hsize)
    · rw [hx] at hy
      cases hy
      exact ⟨hop, hblock⟩
  intro hg
  cases hg with
  | bury _ hx _ hblock hunreached =>
    obtain rfl := Option.some.inj ((hslot hx).2.symm.trans hblock)
    rw [hentry] at hunreached
    cases hunreached
  | buryJump hj hunreached =>
    obtain ⟨-, z, hz, hzb, -⟩ := hj
    obtain ⟨y, hy, hyb, -⟩ := hc.now
    rw [hy] at hz
    cases hz
    obtain rfl := Option.some.inj (hyb.symm.trans hzb)
    rw [hentry] at hunreached
    cases hunreached
  | fold _ hx hop => simp [(hslot hx).1, Op.isFolded] at hop
  | quotient _ hx hop => simp [(hslot hx).1] at hop
  | splice _ hx hop => simp [(hslot hx).1] at hop
  | jump _ hx hop => simp [(hslot hx).1] at hop
  | dead _ hx hop => simp [(hslot hx).1] at hop
  | merge _ hx hop => simp [(hslot hx).1] at hop
  | block _ hx hop => simp [(hslot hx).1] at hop

/-- What stands in for a live node is a node that folding deals with. -/
theorem scope_of_live (hb : Basis g r) (hi : Image g r σ K A h) {n : NodeId} (hn : g.Live n) :
    Scope g (σ n) :=
  path_induction (P := Scope g) (fun _ _ _ hg => hg.scope hb) (hi.path n hn) (.inl hn)

/-! ### The slots of `g` -/

theorem size_le (hi : Image g r σ K A h) : g.size ≤ h.size := by
  by_contra hlt
  obtain ⟨x, hx⟩ := Graph.exists_node_of_lt (Nat.lt_of_not_le hlt)
  obtain ⟨y, hy, -⟩ := hi.slot h.size _ (Graph.shape?_eq hx)
  exact Nat.lt_irrefl _ (Graph.lt_size_of_shape? hy)

/-- A node of `g` in use is what it was. -/
theorem same (hi : Image g r σ K A h) {n : NodeId} {x y : Shape} (hx : g.shape? n = some x)
    (hy : h.shape? n = some y) (hop : y.op ≠ .retired) :
    y.op = x.op ∧ y.mode = x.mode ∧ y.block = x.block := by
  obtain ⟨z, hz, hkeep⟩ := hi.slot n x hx
  rw [hy] at hz
  cases hz
  exact ⟨hkeep.op.resolve_right hop, hkeep.mode, hkeep.block⟩

/-- A node in use with the shape it has in `g`, up to its operands. -/
theorem exists_same (hi : Image g r σ K A h) {n : NodeId} {x : Shape} (hx : g.shape? n = some x)
    (hn : h.isRetired n = false) :
    ∃ y, h.shape? n = some y ∧ y.op = x.op ∧ y.mode = x.mode ∧ y.block = x.block := by
  obtain ⟨y, hy, hop⟩ := Graph.exists_shape hn
  exact ⟨y, hy, hi.same hx hy hop⟩

/-- A node in use that is no constant or jump has been there from the beginning. -/
theorem origin (hi : Image g r σ K A h) {n : NodeId} {y : Shape} (hy : h.shape? n = some y)
    (hret : y.op ≠ .retired) (hconst : ∀ v, y.op ≠ .const v) (hjump : y.op ≠ .jump) :
    ∃ x, g.shape? n = some x ∧ y.op = x.op ∧ y.mode = x.mode ∧ y.block = x.block := by
  by_cases hn : n < g.size
  · obtain ⟨x, hx⟩ := Graph.exists_node_of_lt hn
    exact ⟨x.shape, Graph.shape?_eq hx, hi.same (Graph.shape?_eq hx) hy hret⟩
  · obtain ⟨-, hop | ⟨⟨v, hop⟩, -⟩ | ⟨hop, -⟩⟩ := hi.fresh n y (Nat.le_of_not_lt hn) hy
    · exact absurd hop hret
    · exact absurd hop (hconst v)
    · exact absurd hop hjump

theorem valid (hi : Image g r σ K A h) {n : NodeId} : ∀ k ∈ K n, k < (g.operands n).length :=
  fun _ hk => List.mem_range.mp ((hi.positions n).subset hk)

theorem length_operands (hi : Image g r σ K A h) {n : NodeId} (hstop : n ≠ Anchor.stop) (hA : A n)
    (hn : g.Live n) (hused : h.isRetired n = false) : (h.operands n).length = (K n).length := by
  rw [hi.operands n hstop hA hn hused, List.length_map, length_pick hi.valid]

theorem operand_of_constant {x : Node} {i : Nat} {t : NodeId} {v : Literal}
    (ht : x.operands[i]? = some t) (hv : r.constant? t = some v) :
    r.assignment.operand x i = .constant v := by
  obtain ⟨a, ha, hav⟩ := Option.bind_eq_some_iff.mp hv
  unfold Assignment.operand
  rw [ht]
  show (r.value? t).getD .varying = _
  rw [ha]
  cases a with
  | constant c =>
    cases hav
    rfl
  | unknown => cases hav
  | varying => cases hav

/-! ### The beginning -/

/-- What is known of the slot of an anchor. -/
theorem Basis.anchor (hb : Basis g r) {n : NodeId} {x : Shape}
    (hx : (Graph.new "" 0).shape? n = some x) (hn : n ∈ Anchor.all) :
    ∃ y, g.shape? n = some y ∧ y.op = x.op ∧ y.block = x.block := by
  obtain ⟨y, hy, hkeep⟩ := hb.built.keeps_anchor hx
  obtain ⟨z, hz, hused⟩ := Graph.exists_shape (hb.structured.anchor n hn)
  rw [hy] at hz
  cases hz
  exact ⟨y, hy, hkeep.op.resolve_right hused, hkeep.block⟩

theorem Basis.anchor_kind (hb : Basis g r) {n : NodeId} {x : Shape} (hn : n ∈ Anchor.all)
    (hx : g.shape? n = some x) :
    x.op = .block ∨ x.op = .start ∨ x.op = .stop ∨ x.op = .bad := by
  have hop {y : Shape} (hy : (Graph.new "" 0).shape? n = some y) : x.op = y.op := by
    obtain ⟨z, hz, hop, -⟩ := hb.anchor hy hn
    rw [hx] at hz
    cases hz
    exact hop
  simp only [Anchor.all, List.mem_cons, List.not_mem_nil, or_false] at hn
  rcases hn with rfl | rfl | rfl | rfl | rfl
  · exact .inl (hop rfl)
  · exact .inl (hop rfl)
  · exact .inr (.inl (hop rfl))
  · exact .inr (.inr (.inl (hop rfl)))
  · exact .inr (.inr (.inr (hop rfl)))

/-- Nothing of another kind stands in the slot of the stop node. -/
theorem Basis.ne_stop (hb : Basis g r) {n : NodeId} {x : Shape} (hx : g.shape? n = some x)
    (hop : x.op ≠ .stop) : n ≠ Anchor.stop := by
  rintro rfl
  obtain ⟨y, hy, hstop, -⟩ := hb.anchor (n := Anchor.stop) rfl (by decide)
  rw [hx] at hy
  cases hy
  exact hop hstop

theorem Basis.anchor_live (hb : Basis g r) : ∀ n ∈ Anchor.all, g.Live n := by
  obtain ⟨x, hx, -, hstart⟩ := hb.anchor (n := Anchor.start) rfl (by decide)
  obtain ⟨y, hy, -, hstop⟩ := hb.anchor (n := Anchor.stop) rfl (by decide)
  exact Graph.anchor_live hb.structured.anchor ((Graph.blockOf_of_shape hx).trans hstart)
    ((Graph.blockOf_of_shape hy).trans hstop)

theorem start (hb : Basis g r) : Image g r id (allPositions g) (Scope g) g where
  mirrored := hb.built.mirrored
  slot n x hx := ⟨x, hx, .refl x⟩
  leaf n x hx hop := by
    rw [Graph.operands_eq_of_shape hx]
    exact hb.structured.leaf n x hx hop
  fresh n y hn hy := absurd (Graph.lt_size_of_shape? hy) (Nat.not_lt_of_le hn)
  anchor n hn := by
    exact ⟨.inl (hb.anchor_live n hn), hb.structured.anchor n hn⟩
  scope n hn := hn
  closed n m hn hused hm := by
    rcases hn with hn | hn | ⟨v, x, hx, hop, hblock⟩
    · have hm' := hb.describes.inUse n m hn hm
      exact ⟨.inl (hn.needs ⟨hm, hm'⟩), hm'⟩
    · obtain ⟨x, hx, -⟩ := Graph.exists_shape hused
      exact absurd (Graph.lt_size_of_shape? hx) (Nat.not_lt_of_le hn)
    · obtain ⟨y, hy, hm⟩ := Graph.mem_inputs.mp hm
      rw [hx] at hy
      cases hy
      rw [hb.structured.leaf n x hx (.inl ⟨v, hop⟩), hblock] at hm
      obtain rfl : Anchor.startBlock = m := by simpa using hm
      exact ⟨.inl (hb.anchor_live _ (by decide)), hb.structured.anchor _ (by decide)⟩
  self n _ := rfl
  constant c v _ := rfl
  operands n _ _ _ _ := by rw [allPositions, pick_range, List.map_id]
  stop m hm := ⟨m, hm, rfl⟩
  positions n := List.Sublist.refl _
  whole n x _ _ _ := rfl
  aligned n x b hn hx hop hblock _ := by
    have hlive : g.Live n := hn.live hx (by simp [hop])
    rw [allPositions, allPositions, Graph.operands_eq_of_shape hx,
      hb.structured.phi n x b hlive hx hop hblock]
  kept b x hb' hx hop hused k p hp htaken := by
    rw [allPositions, Graph.operands_eq_of_shape hx]
    exact List.mem_range.mpr (List.getElem?_eq_some_iff.mp hp).1
  trail n _ := .refl

/-- What a node in use stands in is a live block of `g`. -/
theorem block_of_used (hb : Basis g r) (hi : Image g r σ K A h) {n b : NodeId} {y : Shape}
    (hA : A n) (hy : h.shape? n = some y) (hop : y.op ≠ .retired) (hyb : y.block = some b) :
    g.Live b ∧ ∃ x, g.shape? b = some x ∧ x.op = .block := by
  have hentry : g.Live Anchor.startBlock ∧ ∃ x, g.shape? Anchor.startBlock = some x ∧
      x.op = .block := by
    obtain ⟨x, hx, hxop, -⟩ := hb.anchor (n := Anchor.startBlock) rfl (by decide)
    exact ⟨hb.anchor_live _ (by decide), x, hx, hxop⟩
  rcases hi.scope n hA with hn | hn | ⟨v, x, hx, -, hblock⟩
  · obtain ⟨x, hx, hxop⟩ := Graph.exists_shape (hb.describes.used n hn)
    obtain ⟨hsame, -, hblock⟩ := hi.same hx hy hop
    rw [hyb] at hblock
    have hne : x.op ≠ .block := by
      intro hxb
      rw [hb.structured.outermost n x hn hx hxb] at hblock
      cases hblock
    obtain ⟨b', z, hxb, hz, hzop⟩ := hb.structured.placed n x hn hx hne
    rw [hxb] at hblock
    cases hblock
    obtain ⟨x', hx', rfl⟩ := Option.map_eq_some_iff.mp hx
    exact ⟨hb.describes.block_live hn hx' hxb, z, hz, hzop⟩
  · obtain ⟨-, hret | ⟨-, hblock⟩ | ⟨-, b', x, hblock, hlive, hx, hxop⟩⟩ := hi.fresh n y hn hy
    · exact absurd hret hop
    · obtain rfl := Option.some.inj (hyb.symm.trans hblock)
      exact hentry
    · obtain rfl := Option.some.inj (hyb.symm.trans hblock)
      exact ⟨hlive, x, hx, hxop⟩
  · obtain ⟨-, -, hsame⟩ := hi.same hx hy hop
    obtain rfl := Option.some.inj (hyb.symm.trans (hsame.trans hblock))
    exact hentry

/-- If divisions are used by their memory states and results only, none of them takes the place of
another node. -/
theorem eq_of_division (hb : Basis g r) (hproj : Projected g) {n d : NodeId} {x : Shape}
    (hp : Relation.ReflTransGen (Gives g r h) n d) (hx : g.shape? d = some x)
    (hdiv : x.op.isDivision = true) : n = d := by
  rcases hp.cases_tail with heq | ⟨m, -, hg⟩
  · exact heq.symm
  exfalso
  have hcarries {c : NodeId} {v : Literal} (hc : Carries g h c v) (hx : g.shape? c = some x) :
      False := by
    rcases hc.origin with hsize | ⟨y, hy, hop, -⟩
    · exact absurd (Graph.lt_size_of_shape? hx) (Nat.not_lt_of_le hsize)
    · rw [hx] at hy
      cases hy
      rw [hop] at hdiv
      cases hdiv
  have hbad (hx : g.shape? Anchor.bad = some x) : False := by
    obtain ⟨y, hy, hop, -⟩ := hb.anchor (n := Anchor.bad) rfl (by decide)
    rw [hx] at hy
    cases hy
    rw [hop] at hdiv
    cases hdiv
  have huser {u : NodeId} (hu : d ∈ g.operands u) :
      ∃ y, g.shape? u = some y ∧ (y.op = .proj .memory ∨ y.op = .proj .result) := by
    obtain ⟨y, hy, hmem⟩ := Graph.mem_operands_of_shape hu
    exact ⟨y, hy, hproj d x u y hx hdiv hy hmem⟩
  cases hg with
  | fold _ _ _ _ _ hc => exact hcarries hc hx
  | quotient _ _ _ _ _ hc => exact hcarries hc hx
  | splice _ _ _ hq _ hm =>
    obtain ⟨y, hy, hop⟩ := huser (List.mem_of_mem_head? hm)
    obtain ⟨-, ⟨z, hz, hzdiv⟩, -⟩ := hq
    rw [hy] at hz
    cases hz
    rcases hop with hop | hop <;>
      · rw [hop] at hzdiv
        cases hzdiv
  | jump _ _ _ _ _ _ _ hj => exact absurd (Graph.lt_size_of_shape? hx) (Nat.not_lt_of_le hj.1)
  | merge _ hz hphi _ _ ho =>
    obtain ⟨y, hy, hop⟩ := huser (by
      rw [Graph.operands_eq_of_shape hz]
      exact List.mem_of_getElem? ho)
    rw [hz] at hy
    cases hy
    rw [hphi] at hop
    rcases hop with hop | hop <;> cases hop
  | dead => exact hbad hx
  | bury => exact hbad hx
  | buryJump => exact hbad hx
  | block => exact hbad hx

/-! ### Retiring nodes and moving edges -/

section contract

variable {gone : NodeId → Prop} {move : NodeId → NodeId}

/-- What is left depends on nodes in use, if what was retired and is still needed has moved to
such. -/
theorem contract_closed (hi : Image g r σ K A h) (hc : Contracts h h' gone move)
    (hblock : ∀ n y b, A n → ¬ gone n → h.shape? n = some y → y.op ≠ .retired →
      y.block = some b → ¬ gone b)
    (hoperand : ∀ n m, A n → ¬ gone n → h.isRetired n = false → m ∈ h.operands n → gone m →
      A (move m) ∧ ¬ gone (move m) ∧ h.isRetired (move m) = false) {n m : NodeId} (hA : A n)
    (hn : h'.isRetired n = false) (hm : m ∈ h'.inputs n) : A m ∧ h'.isRetired m = false := by
  obtain ⟨z, hz, hzop⟩ := Graph.exists_shape hn
  obtain ⟨hgone, y, hy, rfl⟩ := hc.back hz hzop
  have hused : h.isRetired n = false := Graph.isRetired_eq_false_iff.mpr ⟨y, hy, hzop⟩
  obtain ⟨z', hz', hm⟩ := Graph.mem_inputs.mp hm
  rw [hz] at hz'
  cases hz'
  rcases hm with hm | hm
  · obtain ⟨hAm, hmused⟩ := hi.closed n m hA hused (Graph.mem_inputs.mpr ⟨y, hy, .inl hm⟩)
    exact ⟨hAm, by rw [hc.isRetired (hblock n y m hA hgone hy hzop hm), hmused]⟩
  obtain ⟨o, ho, rfl⟩ := List.mem_map.mp hm
  by_cases hogone : gone o
  · have hmem : o ∈ h.operands n := by rwa [Graph.operands_eq_of_shape hy]
    obtain ⟨hAm, hstay, hmused⟩ := hoperand n o hA hgone hused hmem hogone
    exact ⟨hAm, by rw [hc.isRetired hstay, hmused]⟩
  · obtain ⟨hAm, hmused⟩ := hi.closed n o hA hused (Graph.mem_inputs.mpr ⟨y, hy, .inr ho⟩)
    rw [hc.stays o hogone]
    exact ⟨hAm, by rw [hc.isRetired hogone, hmused]⟩

/-- A constant of the start block stays for itself, as there is no reason to move it. -/
theorem contract_constant (hb : Basis g r) (hi : Image g r σ K A h)
    (hc : Contracts h h' gone move)
    (htrail : ∀ n, gone n → move n ≠ n → σ n = n → Scope g n →
      Relation.ReflTransGen (Yields g r (fun m => move (σ m)) h) n (move n)) {c : NodeId}
    {v : Literal} (hcarries : Carries g h' c v) : move (σ c) = c := by
  have hself : σ c = c := by
    obtain ⟨z, hz, hzb, -⟩ := hcarries.now
    obtain ⟨y, hy, hkeep⟩ := hc.exists_before hz
    by_cases hret : y.op = .retired
    · exact hi.constant c v ⟨hcarries.origin, y, hy, hkeep.block.symm.trans hzb, .inr hret⟩
    · exact hi.self c (Graph.not_removed (Graph.isRetired_eq_false_iff.mpr ⟨y, hy, hret⟩))
  rw [hself]
  by_cases hgone : gone c
  · by_contra hmove
    have hscope : Scope g c := .inr (hcarries.origin.imp id fun hv => ⟨v, hv⟩)
    rcases (htrail c hgone hmove hself hscope).cases_head with heq | ⟨m, hfirst, -⟩
    · exact hmove heq.symm
    · exact hcarries.not_gives hb (hfirst.1.descend hc.descends)
  · exact hc.stays c hgone

/-- The trail to what stood in for a node goes on to where that has moved. -/
theorem contract_trail (hb : Basis g r) (hi : Image g r σ K A h) (hc : Contracts h h' gone move)
    (htrail : ∀ n, gone n → move n ≠ n → σ n = n → Scope g n →
      Relation.ReflTransGen (Yields g r (fun m => move (σ m)) h) n (move n)) {n : NodeId}
    (hn : g.Live n) :
    Relation.ReflTransGen (Yields g r (fun m => move (σ m)) h') n (move (σ n)) := by
  have hold : Relation.ReflTransGen (Yields g r (fun m => move (σ m)) h) n (σ n) :=
    Relation.ReflTransGen.mono (fun _ _ hg => ⟨hg.1, congrArg move hg.2⟩) n (σ n) (hi.trail n hn)
  by_cases hmove : move (σ n) = σ n
  · rw [hmove]
    exact trail_descend hold hc.descends
  · have hgone : gone (σ n) := by
      by_contra hstay
      exact hmove (hc.stays _ hstay)
    have hself : σ (σ n) = σ n := (eq_of_trail (hi.trail n hn)).symm
    exact trail_descend (hold.trans (htrail _ hgone hmove hself (hi.scope_of_live hb hn)))
      hc.descends

/-- Retiring nodes and moving the edges to them keeps the image, if what is left depends on nodes
in use, and nodes are moved for a reason. -/
theorem contract (hb : Basis g r) (hi : Image g r σ K A h) (hc : Contracts h h' gone move)
    (hgone : ∀ n, gone n → n < h.size) (hanchor : ∀ n ∈ Anchor.all, ¬ gone n)
    (hblock : ∀ n y b, A n → ¬ gone n → h.shape? n = some y → y.op ≠ .retired →
      y.block = some b → ¬ gone b)
    (hoperand : ∀ n m, A n → ¬ gone n → h.isRetired n = false → m ∈ h.operands n → gone m →
      A (move m) ∧ ¬ gone (move m) ∧ h.isRetired (move m) = false)
    (htrail : ∀ n, gone n → move n ≠ n → σ n = n → Scope g n →
      Relation.ReflTransGen (Yields g r (fun m => move (σ m)) h) n (move n)) :
    Image g r (fun n => move (σ n)) K A h' where
  mirrored := hc.mirrored
  slot n x hx := by
    obtain ⟨y, hy, hkeep⟩ := hi.slot n x hx
    obtain ⟨z, hz, hkeep'⟩ := hc.keeps hy
    exact ⟨z, hz, hkeep.trans hkeep'⟩
  leaf n x hx hop := by
    by_cases hn : gone n
    · exact hc.operands_nil hn
    · rw [hc.operands_map hn, hi.leaf n x hx hop]
      rfl
  fresh n z hn hz := by
    by_cases hgone : gone n
    · rw [hc.retires n hgone] at hz
      obtain ⟨y, -, rfl⟩ := Option.map_eq_some_iff.mp hz
      exact ⟨rfl, .inl rfl⟩
    · rw [hc.moves n hgone] at hz
      obtain ⟨y, hy, rfl⟩ := Option.map_eq_some_iff.mp hz
      obtain ⟨hnil, hkind⟩ := hi.fresh n y hn hy
      exact ⟨by simp [hnil], hkind⟩
  anchor n hn := by
    obtain ⟨hA, hused⟩ := hi.anchor n hn
    exact ⟨hA, by rw [hc.isRetired (hanchor n hn), hused]⟩
  scope := hi.scope
  closed n m hA hn hm := hi.contract_closed hc hblock hoperand hA hn hm
  self n hn := by
    have hstay : ¬ gone n := by
      intro hn'
      obtain ⟨x, hx⟩ := Graph.exists_node_of_lt (hgone n hn')
      exact hn ⟨_, by rw [hc.retires n hn', Graph.shape?_eq hx]; rfl, rfl⟩
    rw [hi.self n fun hold => hn (hc.removed hold), hc.stays n hstay]
  constant c v hcarries := hi.contract_constant hb hc htrail hcarries
  operands n hstop hA hlive hn := by
    obtain ⟨hstay, hused⟩ := hc.used_before hn
    rw [hc.operands_map hstay, hi.operands n hstop hA hlive hused, List.map_map]
    rfl
  stop m hm := by
    rw [hc.operands_map (hanchor Anchor.stop (by simp [Anchor.all]))] at hm
    obtain ⟨m', hm', rfl⟩ := List.mem_map.mp hm
    obtain ⟨o, ho, rfl⟩ := hi.stop m' hm'
    exact ⟨o, ho, rfl⟩
  positions := hi.positions
  whole := hi.whole
  aligned n x b hA hx hop hxb hn := hi.aligned n x b hA hx hop hxb (hc.used_before hn).2
  kept b x hA hx hop hn := hi.kept b x hA hx hop (hc.used_before hn).2
  trail n hn := hi.contract_trail hb hc htrail hn

end contract

/-- Exchanging a node for a reason keeps the image. -/
theorem exchange (hb : Basis g r) (hi : Image g r σ K A h) {old new : NodeId}
    (hex : h.exchange old new = .ok h') (hne : old ≠ new) (hanchor : old ∉ Anchor.all)
    (hblock : ∀ n y, A n → n ≠ old → h.shape? n = some y → y.op ≠ .retired →
      y.block ≠ some old)
    (hnew : A new) (hused : h.isRetired new = false)
    (hreason : Scope g old → ∃ m, Gives g r h old m ∧ σ m = new ∧
      Relation.ReflTransGen (Yields g r σ h) m new) :
    Image g r (fun n => if σ n = old then new else σ n) K A h' := by
  have hmoved : ∀ n, (if n = old then new else n) ≠ n → n = old := by
    intro n hn
    by_contra hne
    exact hn (if_neg hne)
  refine hi.contract hb (.of_exchange hi.mirrored hne hex) ?_ ?_ ?_ ?_ ?_
  · rintro n rfl
    obtain ⟨moved, hkill, hsize, -⟩ := Graph.exchange_eq_ok hi.mirrored hne hex
    rw [← hsize]
    exact (Graph.kill_eq_ok hkill).1
  · rintro n hn rfl
    exact hanchor hn
  · rintro n y b hA hn hy hop hyb rfl
    exact hblock n y hA hn hy hop hyb
  · rintro n m - - - - rfl
    rw [if_pos rfl]
    exact ⟨hnew, Ne.symm hne, hused⟩
  · intro n hn hmove hself hscope
    obtain rfl := hmoved n hmove
    obtain ⟨m, hgives, hm, htrail⟩ := hreason hscope
    rw [if_pos rfl]
    refine .head ⟨hgives, ?_⟩
      (Relation.ReflTransGen.mono (fun _ _ hg => ⟨hg.1, ?_⟩) m new htrail)
    · simp only [hself, hm, if_true, if_neg (Ne.symm hne)]
    · simp only [hg.2]

/-- Retiring nodes that nothing depends on keeps the image. -/
theorem remove (hb : Basis g r) (hi : Image g r σ K A h) {gone : NodeId → Prop}
    (hc : Contracts h h' gone id) (hgone : ∀ n, gone n → n < h.size)
    (hanchor : ∀ n ∈ Anchor.all, ¬ gone n)
    (hunused : ∀ n m, A n → ¬ gone n → h.isRetired n = false → m ∈ h.inputs n → ¬ gone m) :
    Image g r σ K A h' := by
  show Image g r (fun n => id (σ n)) K A h'
  refine hi.contract hb hc hgone hanchor ?_ ?_ ?_
  · intro n y b hA hn hy hop hyb
    exact hunused n b hA hn (Graph.isRetired_eq_false_iff.mpr ⟨y, hy, hop⟩)
      (Graph.mem_inputs.mpr ⟨y, hy, .inl hyb⟩)
  · intro n m hA hn hused hm hgone
    obtain ⟨y, hy, hmem⟩ := Graph.mem_operands_of_shape hm
    exact absurd hgone (hunused n m hA hn hused (Graph.mem_inputs.mpr ⟨y, hy, .inr hmem⟩))
  · intro n _ hmove
    exact absurd rfl hmove

/-! ### Adding a node -/

/-- A constant of the start block or a jump may be added. -/
theorem addNode (hb : Basis g r) (hi : Image g r σ K A h) {op : Op} {mode : Mode} {b n : NodeId}
    {x : Shape} (hadd : h.addNode op mode (some b) [] = .ok (n, h')) (hA : A b)
    (hused : h.isRetired b = false) (hlive : g.Live b) (hx : g.shape? b = some x)
    (hblock : x.op = .block)
    (hop : (∃ v, op = .const v) ∧ b = Anchor.startBlock ∨ op = .jump) :
    Image g r σ K A h' := by
  have he := Extends.of_addNode hadd
  have hd : Descends h h' := fun i y hy => ⟨y, he i y hy, .refl y⟩
  have hback {i : NodeId} (hne : i ≠ n) : h'.shape? i = h.shape? i :=
    Graph.shape?_addNode_of_ne hadd hne
  have hused' {i : NodeId} (hne : i ≠ n) (hret : h'.isRetired i = false) :
      h.isRetired i = false := Graph.isRetired_congr (hback hne) ▸ hret
  have hold {i : NodeId} {x : Shape} (hx : g.shape? i = some x) : i ≠ n := by
    obtain ⟨y, hy, -⟩ := hi.slot i x hx
    exact Graph.ne_of_addNode hadd hy
  refine
    { mirrored := hi.mirrored.addNode hadd
      slot := fun i x hx => ?_
      leaf := fun i x hx hop => by rw [Graph.operands_addNode hadd]; exact hi.leaf i x hx hop
      fresh := fun i y hsize hy => ?_
      anchor := fun i hn => ⟨(hi.anchor i hn).1, he.inUse (hi.anchor i hn).2⟩
      scope := hi.scope
      closed := fun i m hAi hret hm => ?_
      self := fun i hret => hi.self i fun hold => hret (he.removed hold)
      constant := fun c v hcarries => ?_
      operands := fun i hstop hAi hlive hret => ?_
      stop := fun m hm => hi.stop m (by rwa [Graph.operands_addNode hadd] at hm)
      positions := hi.positions
      whole := hi.whole
      aligned := fun i y c hAi hy hphi hc hret =>
        hi.aligned i y c hAi hy hphi hc (hused' (hold hy) hret)
      kept := fun i y hAi hy hblock hret =>
        hi.kept i y hAi hy hblock (hused' (hold hy) hret)
      trail := fun i hlive => trail_descend (hi.trail i hlive) hd }
  · obtain ⟨y, hy, hkeep⟩ := hi.slot i x hx
    exact ⟨y, he i y hy, hkeep⟩
  · by_cases hne : i = n
    · rw [hne, Graph.shape?_addNode_self hadd] at hy
      cases hy
      refine ⟨rfl, .inr ?_⟩
      rcases hop with ⟨hv, rfl⟩ | hjump
      · exact .inl ⟨hv, rfl⟩
      · exact .inr ⟨hjump, b, x, rfl, hlive, hx, hblock⟩
    · exact hi.fresh i y hsize (by rwa [← hback hne])
  · obtain ⟨y, hy, hm⟩ := Graph.mem_inputs.mp hm
    by_cases hne : i = n
    · rw [hne, Graph.shape?_addNode_self hadd] at hy
      cases hy
      obtain rfl : b = m := by simpa using hm
      exact ⟨hA, he.inUse hused⟩
    · rw [hback hne] at hy
      obtain ⟨hAm, hm'⟩ := hi.closed i m hAi (hused' hne hret) (Graph.mem_inputs.mpr ⟨y, hy, hm⟩)
      exact ⟨hAm, he.inUse hm'⟩
  · obtain ⟨y, hy, hyb, hyop⟩ := hcarries.now
    by_cases hne : c = n
    · refine hi.self c ?_
      rintro ⟨z, hz, -⟩
      exact Graph.ne_of_addNode hadd hz hne
    · rw [hback hne] at hy
      exact hi.constant c v ⟨hcarries.origin, y, hy, hyb, hyop⟩
  · obtain ⟨x, hx, -⟩ := Graph.exists_shape (hb.describes.used i hlive)
    rw [Graph.operands_addNode hadd]
    exact hi.operands i hstop hAi hlive (hused' (hold hx) hret)

/-! ### Removing operands -/

/-- Blocks and phis may lose operands at the same positions, if control passes none of them. -/
theorem trim (hi : Image g r σ K A h) {cut : NodeId → List NodeId → List NodeId}
    {K' : NodeId → List Nat} (hc : Trims h h' cut) (hpos : ∀ n, (K' n).Sublist (K n))
    (hcut : ∀ n, n ≠ Anchor.stop → A n → g.Live n → h.isRetired n = false →
      cut n (h.operands n) = (pick (g.operands n) (K' n)).map σ)
    (hwhole : ∀ n x, g.shape? n = some x → x.op ≠ .block → x.op ≠ .phi → K' n = K n)
    (haligned : ∀ n x b, A n → g.shape? n = some x → x.op = .phi → x.block = some b →
      h.isRetired n = false → K' n = K' b)
    (hkept : ∀ b x, A b → g.shape? b = some x → x.op = .block → h.isRetired b = false →
      ∀ k p, x.operands[k]? = some p → r.assignment.taken p = true → k ∈ K' b) :
    Image g r σ K' A h' := by
  have hd : Descends h h' := fun n y hy => ⟨_, hc.some hy, .inl rfl, rfl, rfl⟩
  have hnil : ∀ n, h.operands n = [] → h'.operands n = [] := by
    intro n hn
    refine List.eq_nil_iff_forall_not_mem.mpr fun m hm => ?_
    have := hc.operands hm
    rw [hn] at this
    cases this
  have hinputs : ∀ n m, m ∈ h'.inputs n → m ∈ h.inputs n := by
    intro n m hm
    obtain ⟨z, hz, hm⟩ := Graph.mem_inputs.mp hm
    rw [hc.shape n] at hz
    obtain ⟨y, hy, rfl⟩ := Option.map_eq_some_iff.mp hz
    exact Graph.mem_inputs.mpr ⟨y, hy, hm.imp id fun hm => (hc.sublist n _).subset hm⟩
  refine
    { mirrored := hc.mirrored
      slot := fun n x hx => ?_
      leaf := fun n x hx hop => hnil n (hi.leaf n x hx hop)
      fresh := fun n z hn hz => ?_
      anchor := fun n hn => ⟨(hi.anchor n hn).1, by rw [hc.isRetired, (hi.anchor n hn).2]⟩
      scope := hi.scope
      closed := fun n m hA hn hm => ?_
      self := fun n hn => hi.self n fun hold => hn (hc.removed hold)
      constant := fun c v hcarries => ?_
      operands := fun n hstop hA hlive hn => ?_
      stop := fun m hm => hi.stop m (hc.operands hm)
      positions := fun n => (hpos n).trans (hi.positions n)
      whole := fun n x hx hblock hphi => (hwhole n x hx hblock hphi).trans (hi.whole n x hx hblock hphi)
      aligned := fun n x b hA hx hop hb hn => haligned n x b hA hx hop hb (by rwa [← hc.isRetired])
      kept := fun b x hA hx hop hn => hkept b x hA hx hop (by rwa [← hc.isRetired])
      trail := fun n hn => trail_descend (hi.trail n hn) hd }
  · obtain ⟨y, hy, hkeep⟩ := hi.slot n x hx
    exact ⟨_, hc.some hy, hkeep.op, hkeep.mode, hkeep.block⟩
  · rw [hc.shape n] at hz
    obtain ⟨y, hy, rfl⟩ := Option.map_eq_some_iff.mp hz
    obtain ⟨hempty, hkind⟩ := hi.fresh n y hn hy
    refine ⟨?_, hkind⟩
    have := (hc.sublist n y.operands)
    rw [hempty] at this
    simpa [hempty] using List.sublist_nil.mp this
  · obtain ⟨hAm, hused⟩ := hi.closed n m hA (by rwa [← hc.isRetired]) (hinputs n m hm)
    exact ⟨hAm, by rw [hc.isRetired, hused]⟩
  · obtain ⟨z, hz, hzb, hzop⟩ := hcarries.now
    rw [hc.shape c] at hz
    obtain ⟨y, hy, rfl⟩ := Option.map_eq_some_iff.mp hz
    exact hi.constant c v ⟨hcarries.origin, y, hy, hzb, hzop⟩
  · have hn' : h.isRetired n = false := by rwa [← hc.isRetired]
    obtain ⟨y, hy, -⟩ := Graph.exists_shape hn'
    rw [← hcut n hstop hA hlive hn', Graph.operands_eq_of_shape (hc.some hy),
      Graph.operands_eq_of_shape hy]

/-! ### Looking at fewer nodes -/

theorem restrict (hi : Image g r σ K A h) {B : NodeId → Prop} (hsub : ∀ n, B n → A n)
    (hanchor : ∀ n ∈ Anchor.all, B n)
    (hclosed : ∀ n m, B n → h.isRetired n = false → m ∈ h.inputs n → h.isRetired m = false → B m) :
    Image g r σ K B h :=
  { hi with
    anchor := fun n hn => ⟨hanchor n hn, (hi.anchor n hn).2⟩
    scope := fun n hn => hi.scope n (hsub n hn)
    closed := fun n m hB hn hm =>
      have hused := (hi.closed n m (hsub n hB) hn hm).2
      ⟨hclosed n m hB hn hm hused, hused⟩
    operands := fun n hstop hB => hi.operands n hstop (hsub n hB)
    aligned := fun n x b hB => hi.aligned n x b (hsub n hB)
    kept := fun b x hB => hi.kept b x (hsub b hB) }

/-- Everything live is among the nodes looked at, and in use. -/
theorem of_live (hi : Image g r σ K A h) {n : NodeId} (hn : h.Live n) :
    A n ∧ h.isRetired n = false := by
  obtain ⟨root, hroot, hpath⟩ := hn
  induction hpath with
  | refl =>
    refine hi.anchor root ?_
    simp only [List.mem_cons, List.not_mem_nil, or_false] at hroot
    rcases hroot with rfl | rfl | rfl <;> decide
  | tail _ hlast ih => exact hi.closed _ _ ih.1 ih.2 hlast.1

theorem anchor_live (hb : Basis g r) (hi : Image g r σ K A h) : ∀ n ∈ Anchor.all, h.Live n := by
  have hblock {n : NodeId} {x : Shape} (hx : (Graph.new "" 0).shape? n = some x)
      (hn : n ∈ Anchor.all) : h.blockOf n = x.block := by
    obtain ⟨y, hy, -, hyb⟩ := hb.anchor hx hn
    obtain ⟨z, hz, -, -, hzb⟩ := hi.exists_same hy (hi.anchor n hn).2
    rw [Graph.blockOf_of_shape hz, hzb, hyb]
  exact Graph.anchor_live (fun n hn => (hi.anchor n hn).2)
    (hblock (n := Anchor.start) rfl (by decide)) (hblock (n := Anchor.stop) rfl (by decide))

theorem restrict_live (hb : Basis g r) (hi : Image g r σ K A h) : Image g r σ K h.Live h :=
  hi.restrict (fun _ hn => (hi.of_live hn).1) (hi.anchor_live hb)
    fun _ _ hn _ hm hused => hn.needs ⟨hm, hused⟩

/-! ### Control edges -/

/-- A control edge is replaced by a jump from its block, or by dead control if it is not taken. -/
theorem Gives.of_edge (hb : Basis g r) {e m : NodeId} {x : Shape} (hx : g.shape? e = some x)
    (hkind : x.op = .jump ∨ x.op = .ret ∨ ∃ side, x.op = .proj (.arm side))
    (hg : Gives g r h e m) :
    (∃ b, x.block = some b ∧ Jump g h m b) ∨ m = Anchor.bad ∧ r.assignment.taken e = false := by
  have hshape {y : Shape} (hy : g.shape? e = some y) : y = x := by
    rw [hx] at hy
    exact (Option.some.inj hy).symm
  cases hg with
  | jump _ hy _ _ _ _ hblock hj =>
    cases hshape hy
    exact .inl ⟨_, hblock, hj⟩
  | dead he hy hop ht hv hside hne =>
    refine .inr ⟨rfl, Bool.eq_false_iff.mpr fun htaken => ?_⟩
    cases hshape hy
    obtain ⟨s, ⟨z, hz, -, hpass⟩, -⟩ := hb.describes.passes he htaken
    rw [Graph.shape?_eq hz] at hx
    cases hx
    rcases hpass with hop' | hop' | ⟨side', hop', hadmits⟩
    · cases hop.symm.trans hop'
    · cases hop.symm.trans hop'
    · obtain rfl : _ = side' := by simpa using hop.symm.trans hop'
      rw [operand_of_constant (List.head?_eq_getElem? ▸ ht) hv] at hadmits
      rcases hadmits with hnone | hsome
      · rw [hside] at hnone
        cases hnone
      · rw [hside] at hsome
        exact absurd (Option.some.inj hsome) hne
  | bury he hy _ hblock hunreached =>
    refine .inr ⟨rfl, Bool.eq_false_iff.mpr fun htaken => ?_⟩
    cases hshape hy
    obtain ⟨s, ⟨z, hz, hzs, -⟩, hreach⟩ := hb.describes.passes he htaken
    rw [Graph.shape?_eq hz] at hx
    cases hx
    obtain rfl : s = _ := Option.some.inj (hzs.symm.trans hblock)
    rw [hreach.reachable hb.describes.solves] at hunreached
    cases hunreached
  | buryJump hj => exact absurd (Graph.lt_size_of_shape? hx) (Nat.not_lt_of_le hj.1)
  | fold _ hy hop =>
    cases hshape hy
    rcases hkind with hop' | hop' | ⟨side, hop'⟩ <;> simp [hop', Op.isFolded] at hop
  | quotient _ hy hop =>
    cases hshape hy
    rcases hkind with hop' | hop' | ⟨side, hop'⟩ <;> simp [hop'] at hop
  | splice _ hy hop =>
    cases hshape hy
    rcases hkind with hop' | hop' | ⟨side, hop'⟩ <;> simp [hop'] at hop
  | merge _ hy hop =>
    cases hshape hy
    rcases hkind with hop' | hop' | ⟨side, hop'⟩ <;> simp [hop'] at hop
  | block _ hy hop =>
    cases hshape hy
    rcases hkind with hop' | hop' | ⟨side, hop'⟩ <;> simp [hop'] at hop

/-- A jump added to a reachable block is not replaced. -/
theorem Gives.of_jump {j b m : NodeId} (hj : Jump g h j b)
    (hb : r.assignment.reachable b = true) : ¬ Gives g r h j m := by
  intro hg
  have hnone {x : Shape} (hx : g.shape? j = some x) : False :=
    absurd (Graph.lt_size_of_shape? hx) (Nat.not_lt_of_le hj.1)
  cases hg with
  | buryJump hj' hunreached =>
    obtain ⟨-, y, hy, hyb, -⟩ := hj
    obtain ⟨-, z, hz, hzb, -⟩ := hj'
    rw [hy] at hz
    cases hz
    rw [hyb] at hzb
    cases hzb
    rw [hb] at hunreached
    cases hunreached
  | fold _ hx => exact hnone hx
  | quotient _ hx => exact hnone hx
  | splice _ hx => exact hnone hx
  | jump _ hx => exact hnone hx
  | dead _ hx => exact hnone hx
  | merge _ hx => exact hnone hx
  | bury _ hx => exact hnone hx
  | block _ hx => exact hnone hx

/-- Only dead control takes the place of a jump that was added. -/
theorem Gives.bad_of_jump {j b m : NodeId} (hj : Jump g h j b) (hg : Gives g r h j m) :
    m = Anchor.bad := by
  have hnone {x : Shape} (hx : g.shape? j = some x) : False :=
    absurd (Graph.lt_size_of_shape? hx) (Nat.not_lt_of_le hj.1)
  cases hg with
  | buryJump => rfl
  | bury => rfl
  | dead => rfl
  | block => rfl
  | fold _ hx => exact (hnone hx).elim
  | quotient _ hx => exact (hnone hx).elim
  | splice _ hx => exact (hnone hx).elim
  | jump _ hx => exact (hnone hx).elim
  | merge _ hx => exact (hnone hx).elim

/-- Nothing takes the place of dead control. -/
theorem Gives.not_bad (hb : Basis g r) {m : NodeId} : ¬ Gives g r h Anchor.bad m := by
  obtain ⟨x, hx, hbad, hxb⟩ := hb.anchor (n := Anchor.bad) rfl (by decide)
  have hshape {y : Shape} (hy : g.shape? Anchor.bad = some y) : y = x := by
    rw [hx] at hy
    exact (Option.some.inj hy).symm
  intro hg
  cases hg with
  | bury _ hy _ hblock hunreached =>
    cases hshape hy
    obtain rfl : Anchor.startBlock = _ := Option.some.inj (hxb.symm.trans hblock)
    rw [hb.describes.solves.entry] at hunreached
    cases hunreached
  | buryJump hj => exact absurd (Graph.lt_size_of_shape? hx) (Nat.not_lt_of_le hj.1)
  | fold _ hy hop =>
    cases hshape hy
    rw [show x.op = .bad from hbad] at hop
    cases hop
  | quotient _ hy hop => cases hshape hy; cases hbad.symm.trans hop
  | splice _ hy hop => cases hshape hy; cases hbad.symm.trans hop
  | jump _ hy hop => cases hshape hy; cases hbad.symm.trans hop
  | dead _ hy hop => cases hshape hy; cases hbad.symm.trans hop
  | merge _ hy hop => cases hshape hy; cases hbad.symm.trans hop
  | block _ hy hop => cases hshape hy; cases hbad.symm.trans hop

/-- What stands in for a control edge is itself, a jump from its block, or dead control. -/
theorem edge_stands (hb : Basis g r) (hi : Image g r σ K A h) {e : NodeId} {x : Shape}
    (he : g.Live e) (hx : g.shape? e = some x)
    (hkind : x.op = .jump ∨ x.op = .ret ∨ ∃ side, x.op = .proj (.arm side)) :
    σ e = e ∨ (∃ b, x.block = some b ∧ Jump g h (σ e) b) ∨ σ e = Anchor.bad := by
  refine path_induction
    (P := fun m => m = e ∨ (∃ b, x.block = some b ∧ Jump g h m b) ∨ m = Anchor.bad)
    (fun n m hn hg => ?_) (hi.path e he) (.inl rfl)
  rcases hn with rfl | ⟨b, -, hj⟩ | rfl
  · exact .inr ((hg.of_edge hb hx hkind).imp id And.left)
  · exact .inr (.inr (hg.bad_of_jump hj))
  · exact absurd hg (Gives.not_bad hb)

/-- An edge that control passes is still there: itself, or a jump from its block. -/
theorem taken_stands (hb : Basis g r) (hi : Image g r σ K A h) {e : NodeId} (he : g.Live e)
    (htaken : r.assignment.taken e = true) :
    σ e ≠ Anchor.bad ∧ (σ e = e ∨ ∃ b, g.blockOf e = some b ∧ Jump g h (σ e) b) := by
  obtain ⟨s, ⟨z, hz, hzs, hpass⟩, hreach⟩ := hb.describes.passes he htaken
  have hs : r.assignment.reachable s = true := hreach.reachable hb.describes.solves
  have hkind : z.shape.op = .jump ∨ z.shape.op = .ret ∨ ∃ side, z.shape.op = .proj (.arm side) :=
    hpass.imp id (.imp id fun ⟨side, hop, _⟩ => ⟨side, hop⟩)
  have hstands : σ e = e ∨ ∃ b, g.blockOf e = some b ∧ Jump g h (σ e) b := by
    refine path_induction (P := fun m => m = e ∨ ∃ b, g.blockOf e = some b ∧ Jump g h m b)
      (fun n m hn hg => ?_) (hi.path e he) (.inl rfl)
    rcases hn with rfl | ⟨b, hb', hj⟩
    · rcases hg.of_edge hb (Graph.shape?_eq hz) hkind with ⟨b, hzb, hj⟩ | ⟨-, hnot⟩
      · exact .inr ⟨b, (Graph.blockOf_eq hz).trans hzb, hj⟩
      · rw [htaken] at hnot
        cases hnot
    · rw [Graph.blockOf_eq hz, hzs] at hb'
      cases hb'
      exact absurd hg (Gives.of_jump hj hs)
  refine ⟨?_, hstands⟩
  obtain ⟨y, hy, hbad, -⟩ := hb.anchor (n := Anchor.bad) rfl (by decide)
  rcases hstands with heq | ⟨b, -, hj⟩
  · rw [heq]
    rintro rfl
    rw [Graph.shape?_eq hz] at hy
    cases hy
    rcases hkind with hop | hop | ⟨side, hop⟩ <;> cases hbad.symm.trans hop
  · intro heq
    exact absurd (Graph.lt_size_of_shape? hy) (Nat.not_lt_of_le (heq ▸ hj.1))

/-- A block in use was a live block of `g`. -/
theorem block_live (hi : Image g r σ K A h) {b : NodeId} {y : Shape} (hA : A b)
    (hy : h.shape? b = some y) (hop : y.op = .block) :
    g.Live b ∧ ∃ x, g.shape? b = some x ∧ x.op = .block := by
  obtain ⟨x, hx, hxop, -⟩ := hi.origin hy (by simp [hop]) (by simp [hop]) (by simp [hop])
  have hxop := hxop.symm.trans hop
  exact ⟨Scope.live (hi.scope b hA) hx (by simp [hxop]), x, hx, hxop⟩

/-- The predecessors of a block in use are control edges or dead control. -/
theorem predecessor (hb : Basis g r) (hi : Image g r σ K A h) {b p : NodeId} {y : Shape}
    (hA : A b) (hy : h.shape? b = some y) (hop : y.op = .block) (hp : p ∈ y.operands) :
    p = Anchor.bad ∨ ∃ z, h.shape? p = some z ∧ Graph.entersBlock b z.op = true := by
  obtain ⟨hlive, x, hx, hxop⟩ := hi.block_live hA hy hop
  have hused : h.isRetired b = false := Graph.isRetired_eq_false_iff.mpr ⟨y, hy, by simp [hop]⟩
  have hstop : b ≠ Anchor.stop := hb.ne_stop hx (by simp [hxop])
  have hpused := (hi.closed b p hA hused (Graph.mem_inputs.mpr ⟨y, hy, .inr hp⟩)).2
  rw [← Graph.operands_eq_of_shape hy, hi.operands b hstop hA hlive hused] at hp
  obtain ⟨e, he, rfl⟩ := List.mem_map.mp hp
  obtain ⟨k, -, hk⟩ := mem_pick.mp he
  have hmem : e ∈ x.operands := by
    rw [← Graph.operands_eq_of_shape hx]
    exact List.mem_of_getElem? hk
  obtain ⟨x', hx', rfl⟩ := Option.map_eq_some_iff.mp hx
  have helive := hb.describes.operands_live hlive hx' e hmem
  rcases hb.structured.predecessor b _ hlive hx hxop e hmem with rfl | ⟨z, hz, henters⟩
  · exact .inl (hi.self _ (Graph.not_removed (hi.anchor _ (by decide)).2))
  · rcases hi.edge_stands hb helive hz (exit_of_entersBlock henters) with heq | ⟨c, -, hj⟩ | heq
    · rw [heq] at hpused ⊢
      obtain ⟨w, hw, hwop, -⟩ := hi.exists_same hz hpused
      exact .inr ⟨w, hw, by rwa [hwop]⟩
    · obtain ⟨-, w, hw, -, hwop⟩ := hj
      obtain ⟨w', hw', hne⟩ := Graph.exists_shape hpused
      rw [hw] at hw'
      cases hw'
      refine .inr ⟨w, hw, ?_⟩
      rw [hwop.resolve_right hne]
      rfl
    · exact .inl heq

end Image

end SeaOfNodes
