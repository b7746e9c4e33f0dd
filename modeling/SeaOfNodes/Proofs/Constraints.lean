import SeaOfNodes.Proofs.Flow
import SeaOfNodes.Proofs.Liveness
import SeaOfNodes.Propagation

/-!
The constraints that constant propagation solves.

An assignment gives a fact to every node and says which control edges are taken and which blocks
are reachable. `Assignment.Solves` lists what the three must satisfy together at the live nodes of
a graph; nothing in it speaks about worklists or the order of visits. Every right-hand side is
monotone, so that assignments below a solution stay below it (`transfer_le`, `Admits.mono`).
-/

namespace SeaOfNodes

/-! ### The order of facts -/

namespace Fact

theorem le_iff {a b : Fact} : a.le b = true ↔ a = .unknown ∨ a = b ∨ b = .varying := by
  cases a with
  | unknown => simp [le, meet]
  | constant c =>
    cases b with
    | unknown => simp [le, meet]
    | constant d =>
      by_cases h : c = d
      · simp [le, meet, h]
      · simp [le, meet, h]
    | varying => simp [le, meet]
  | varying => cases b <;> simp [le, meet]

theorem le_refl (a : Fact) : a.le a = true := le_iff.mpr (.inr (.inl rfl))

theorem unknown_le (a : Fact) : unknown.le a = true := le_iff.mpr (.inl rfl)

theorem le_varying (a : Fact) : a.le varying = true := le_iff.mpr (.inr (.inr rfl))

theorem varying_le {a : Fact} : varying.le a = true ↔ a = .varying := by
  cases a <;> simp [le, meet]

theorem le_trans {a b c : Fact} (hab : a.le b = true) (hbc : b.le c = true) : a.le c = true := by
  rcases le_iff.mp hab with rfl | rfl | rfl
  · exact unknown_le c
  · exact hbc
  · rcases le_iff.mp hbc with h | rfl | rfl
    · cases h
    · exact le_varying a
    · exact le_varying a

/-- Combined evidence adds nothing to `c` if neither part does. -/
theorem meet_le {a b c : Fact} : (a.meet b).le c = true ↔ a.le c = true ∧ b.le c = true := by
  constructor
  · intro h
    cases a with
    | unknown => exact ⟨unknown_le c, h⟩
    | varying =>
      have h : varying.le c = true := by cases b <;> exact h
      obtain rfl := varying_le.mp h
      exact ⟨le_refl _, le_varying b⟩
    | constant x =>
      cases b with
      | unknown => exact ⟨h, unknown_le c⟩
      | varying =>
        obtain rfl := varying_le.mp h
        exact ⟨le_varying _, le_refl _⟩
      | constant y =>
        by_cases hxy : x = y
        · subst hxy
          have h : (constant x).le c = true := by simpa [meet] using h
          exact ⟨h, h⟩
        · rw [meet, if_neg hxy] at h
          obtain rfl := varying_le.mp h
          exact ⟨le_varying _, le_varying _⟩
  · rintro ⟨ha, hb⟩
    rcases le_iff.mp ha with rfl | rfl | rfl
    · exact hb
    · rcases le_iff.mp hb with rfl | rfl | rfl
      · cases a <;> exact le_refl _
      · cases b <;> simp [meet, le_refl]
      · exact le_varying _
    · exact le_varying _

theorem foldl_meet_le {l : List Fact} {a c : Fact} :
    (l.foldl meet a).le c = true ↔ a.le c = true ∧ ∀ b ∈ l, b.le c = true := by
  induction l generalizing a with
  | nil => simp
  | cons b l ih =>
    rw [List.foldl_cons, ih, meet_le, and_assoc]
    simp

theorem map_mono (f : Literal → Option Literal) {a b : Fact} (h : a.le b = true) :
    (a.map f).le (b.map f) = true := by
  rcases le_iff.mp h with rfl | rfl | rfl
  · exact unknown_le _
  · exact le_refl _
  · exact le_varying _

theorem combine_mono (f : Literal → Literal → Option Literal) {a a' b b' : Fact}
    (ha : a.le a' = true) (hb : b.le b' = true) :
    (a.combine f b).le (a'.combine f b') = true := by
  rcases le_iff.mp hb with rfl | rfl | rfl
  · rcases le_iff.mp ha with rfl | rfl | rfl
    · exact unknown_le _
    · cases a <;> simp [combine, le_iff]
    · exact le_varying _
  · rcases le_iff.mp ha with rfl | rfl | rfl
    · cases b with
      | unknown => exact unknown_le _
      | constant d => exact unknown_le _
      | varying => cases a' <;> exact le_varying _
    · exact le_refl _
    · exact le_varying _
  · cases a' <;> exact le_varying _

end Fact

/-! ### Assignments -/

/-- A fact for every node, and what is said about control. -/
structure Assignment where
  value : NodeId → Fact
  taken : NodeId → Bool
  reachable : NodeId → Bool

/-- Whether the fact about a node of a graph is computed from other facts: the arithmetic kinds
and branches, phis of a mode that literals have, and the results of divisions. -/
def Graph.computes (g : Graph) (x : Node) : Bool :=
  match x.op with
  | .binary _ | .cmp _ | .minus | .not | .conv | .cond | .div | .mod => true
  | .phi => x.mode.isFoldable
  | .proj .result => (x.operands.head?.bind fun t => g.nodes[t]?).any fun t => t.op.isDivision
  | _ => false

/-- The fact about a node that is not computed. -/
def Node.seed (x : Node) : Fact :=
  match x.op with
  | .const v => .constant v
  | _ => .varying

/-- A selector with this fact lets control into the arm `side`. -/
def Fact.Admits (side : Bool) : Fact → Prop
  | .unknown => False
  | .constant c => c.toBool? = none ∨ c.toBool? = some side
  | .varying => True

theorem Fact.Admits.mono {side : Bool} {a b : Fact} (h : a.Admits side) (hle : a.le b = true) :
    b.Admits side := by
  rcases Fact.le_iff.mp hle with rfl | rfl | rfl
  · exact h.elim
  · exact h
  · trivial

namespace Assignment

/-- The fact about an operand; a missing one is unpredictable. -/
def operand (a : Assignment) (x : Node) (i : Nat) : Fact := (x.operands[i]?).elim .varying a.value

/-- The facts about the operands of a phi that arrive along taken edges. -/
def arriving (a : Assignment) (preds : List NodeId) (x : Node) : List Fact :=
  (preds.zipIdx.filter fun e => a.taken e.1).map fun e => a.operand x e.2

/-- The fact about a computed node that follows from the facts about its operands. -/
def transfer (g : Graph) (a : Assignment) (x : Node) : Fact :=
  match x.op with
  | .binary op => (a.operand x 0).combine op.eval (a.operand x 1)
  | .cmp r => (a.operand x 0).combine (fun c d => (r.eval c d).map .bool) (a.operand x 1)
  | .minus => (a.operand x 0).map Literal.neg?
  | .not => (a.operand x 0).map fun c => some c.complement
  | .conv => (a.operand x 0).map fun c => c.convert? x.mode
  | .div => (a.operand x 1).combine Literal.div? (a.operand x 2)
  | .mod => (a.operand x 1).combine Literal.rem? (a.operand x 2)
  | .cond | .proj .result => a.operand x 0
  | .phi => (a.arriving (x.block.elim [] g.operands) x).foldl Fact.meet .unknown
  | _ => .varying

/-- Whether a node stands in a reachable block. -/
def enters (a : Assignment) (x : Node) : Bool := x.block.any a.reachable

theorem enters_eq_true {a : Assignment} {x : Node} :
    a.enters x = true ↔ ∃ b, x.block = some b ∧ a.reachable b = true := by
  unfold enters
  cases x.block <;> simp

/-- The constraints on control, and on the facts that follow from others. -/
structure Propagates (g : Graph) (a : Assignment) : Prop where
  entry : a.reachable Anchor.startBlock = true
  enter : ∀ b x, g.Live b → g.nodes[b]? = some x → x.op = .block →
    ∀ e ∈ x.operands, a.taken e = true → a.reachable b = true
  leave : ∀ n x, g.Live n → g.nodes[n]? = some x → x.op = .jump ∨ x.op = .ret →
    a.enters x = true → a.taken n = true
  choose : ∀ n x side, g.Live n → g.nodes[n]? = some x → x.op = .proj (.arm side) →
    a.enters x = true → (a.operand x 0).Admits side → a.taken n = true
  compute : ∀ n x, g.Live n → g.nodes[n]? = some x → g.computes x = true →
    a.enters x = true → (a.transfer g x).le (a.value n) = true

/-- The constraints of constant propagation, for the live nodes of a graph. -/
structure Solves (g : Graph) (a : Assignment) : Prop extends Propagates g a where
  seed : ∀ n x, g.Live n → g.nodes[n]? = some x → g.computes x = false → a.value n = x.seed

/-- One assignment says no more than another about the live nodes. -/
structure Below (g : Graph) (a b : Assignment) : Prop where
  value : ∀ n, g.Live n → (a.value n).le (b.value n) = true
  taken : ∀ n, g.Live n → a.taken n = true → b.taken n = true
  reachable : ∀ n, g.Live n → a.reachable n = true → b.reachable n = true

/-! ### The right-hand sides are monotone -/

variable {g : Graph} {a b : Assignment} {n : NodeId} {x : Node}

theorem mem_arriving {preds : List NodeId} {v : Fact} :
    v ∈ a.arriving preds x ↔ ∃ p k, preds[k]? = some p ∧ a.taken p = true ∧ v = a.operand x k := by
  unfold arriving
  simp only [List.mem_map, List.mem_filter, Prod.exists, List.mem_zipIdx_iff_getElem?]
  constructor
  · rintro ⟨p, k, ⟨hp, ht⟩, rfl⟩
    exact ⟨p, k, hp, ht, rfl⟩
  · rintro ⟨p, k, hp, ht, rfl⟩
    exact ⟨p, k, ⟨hp, ht⟩, rfl⟩

/-- What follows for a node depends on the facts about its operands and on the edges that are
taken. -/
theorem transfer_congr (hops : ∀ i, a.operand x i = b.operand x i) (htaken : a.taken = b.taken) :
    a.transfer g x = b.transfer g x := by
  unfold transfer arriving
  simp only [hops, htaken]

theorem operand_le (h : a.Below g b) (hx : ∀ o ∈ x.operands, g.Live o) (i : Nat) :
    (a.operand x i).le (b.operand x i) = true := by
  unfold operand
  cases ho : x.operands[i]? with
  | none => exact Fact.le_refl _
  | some o => exact h.value o (hx o (List.mem_of_getElem? ho))

/-- A phi of a larger assignment combines more and larger facts. -/
theorem merge_le (h : a.Below g b) (hx : ∀ o ∈ x.operands, g.Live o) {preds : List NodeId}
    (hpreds : ∀ p ∈ preds, g.Live p) :
    ((a.arriving preds x).foldl Fact.meet .unknown).le
      ((b.arriving preds x).foldl Fact.meet .unknown) = true := by
  refine Fact.foldl_meet_le.mpr ⟨Fact.unknown_le _, fun v hv => ?_⟩
  obtain ⟨p, k, hp, htaken, rfl⟩ := mem_arriving.mp hv
  have hlive := hpreds p (List.mem_of_getElem? hp)
  have harrives : b.operand x k ∈ b.arriving preds x :=
    mem_arriving.mpr ⟨p, k, hp, h.taken p hlive htaken, rfl⟩
  exact Fact.le_trans (operand_le h hx k)
    ((Fact.foldl_meet_le.mp (Fact.le_refl _)).2 _ harrives)

/-- A larger assignment makes the fact that follows larger, if all inputs are live. -/
theorem transfer_le (h : a.Below g b) (hx : ∀ o ∈ x.operands, g.Live o)
    (hpreds : ∀ p ∈ x.block.elim [] g.operands, g.Live p) :
    (a.transfer g x).le (b.transfer g x) = true := by
  have hop := operand_le h hx
  unfold transfer
  split <;> first
    | exact Fact.combine_mono _ (hop _) (hop _)
    | exact Fact.map_mono _ (hop _)
    | exact hop _
    | exact merge_le h hx hpreds
    | exact Fact.le_refl _

end Assignment

end SeaOfNodes
