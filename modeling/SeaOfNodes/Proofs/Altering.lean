import SeaOfNodes.Proofs.Attribution

/-!
The edits a pass makes, and what they leave as it was.

A pass appends constants of the start block and jumps, which have no operands; it removes operands;
and it exchanges or retires nodes that are no anchors (`Edit.Permitted`). One such edit keeps the
mode and the block of every slot, keeps its operation unless it retires it, and shortens the operands
of the stop node only if it drops a keep-alive (`Graph.apply_alters`). By induction this holds of
all of them together (`Graph.Altered.alters`), so the graph is one that was only rewired
(`Graph.Altered.rewires`), and the keep-alives it lost can be counted (`Graph.Altered.keepAlives`).
-/

namespace SeaOfNodes

/-! ### One edit -/

namespace Edit

/-- The edits a pass makes. -/
def Permitted : Edit → Prop
  | .addNode op _ block operands =>
    operands = [] ∧ ((∃ v, op = .const v) ∧ block = some Anchor.startBlock ∨ op = .jump)
  | .removeOperand _ _ => True
  | .exchange old _ => old ∉ Anchor.all
  | .kill n => n ∉ Anchor.all
  | _ => False

/-- How many keep-alives an edit drops. -/
def dropped : Edit → Nat
  | .removeOperand n _ => if n = Anchor.stop then 1 else 0
  | _ => 0

end Edit

namespace Shape

/-- What becomes of slot `n` when `k` keep-alives are dropped. -/
structure Alters (n : NodeId) (k : Nat) (x y : Shape) : Prop where
  keeps : x.Keeps y
  anchor : n ∈ Anchor.all → y.op = x.op
  length_le : y.operands.length ≤ x.operands.length
  keepAlives : n = Anchor.stop → y.operands.length + k = x.operands.length

theorem Alters.refl (n : NodeId) (x : Shape) : x.Alters n 0 x :=
  ⟨.refl x, fun _ => rfl, Nat.le_refl _, fun _ => rfl⟩

theorem Alters.trans {n : NodeId} {k l : Nat} {x y z : Shape} (hxy : x.Alters n k y)
    (hyz : y.Alters n l z) : x.Alters n (k + l) z where
  keeps := hxy.keeps.trans hyz.keeps
  anchor hn := (hyz.anchor hn).trans (hxy.anchor hn)
  length_le := Nat.le_trans hyz.length_le hxy.length_le
  keepAlives hn := by
    have := hxy.keepAlives hn
    have := hyz.keepAlives hn
    omega

/-- A node that is no anchor may be retired. -/
theorem Alters.retire {n : NodeId} (hn : n ∉ Anchor.all) (x : Shape) : x.Alters n 0 x.retire where
  keeps := ⟨.inr rfl, rfl, rfl⟩
  anchor hmem := absurd hmem hn
  length_le := Nat.zero_le _
  keepAlives heq := absurd (heq ▸ by decide) hn

/-- A node as passes append it, or what is left of one. -/
def Appended (x : Shape) : Prop :=
  x.operands = [] ∧
    ((∃ v, x.op = .const v) ∧ x.block = some Anchor.startBlock ∨ x.op = .jump ∨ x.op = .retired)

theorem Appended.alter {n : NodeId} {k : Nat} {x y : Shape} (h : x.Appended)
    (hxy : x.Alters n k y) : y.Appended := by
  obtain ⟨hnil, hkind⟩ := h
  refine ⟨List.length_eq_zero_iff.mp (Nat.le_zero.mp (by simpa [hnil] using hxy.length_le)), ?_⟩
  rcases hxy.keeps.op with hop | hop
  · rw [hop, hxy.keeps.block]
    exact hkind
  · exact .inr (.inr hop)

end Shape

namespace Graph

variable {g k : Graph} {e : Edit} {n : NodeId} {x y : Shape}

theorem apply_alters (he : e.Permitted) (hm : g.Mirrored)
    (h : g.apply e = .ok k) (hx : g.shape? n = some x) :
    ∃ y, k.shape? n = some y ∧ x.Alters n e.dropped y := by
  cases e with
  | addNode op mode block operands =>
    obtain ⟨⟨m, k⟩, hadd, h⟩ := bind_eq_ok.mp h
    cases h
    exact ⟨x, by rw [shape?_addNode_of_ne hadd (ne_of_addNode hadd hx), hx], .refl n x⟩
  | removeOperand m i =>
    obtain ⟨old, hold, -, hshape, -⟩ := removeOperand_eq_ok h
    by_cases hn : n = m
    · subst hn
      rw [operands_eq_of_shape hx] at hold
      obtain ⟨hi, -⟩ := List.getElem?_eq_some_iff.mp hold
      have hlength := List.length_eraseIdx_of_lt hi
      refine ⟨{ x with operands := x.operands.eraseIdx i }, by rw [hshape, if_pos rfl, hx]; rfl,
        ⟨.inl rfl, rfl, rfl⟩, fun _ => rfl, ?_, fun hstop => ?_⟩
      · show (x.operands.eraseIdx i).length ≤ _
        omega
      · show (x.operands.eraseIdx i).length + (if n = Anchor.stop then 1 else 0) = _
        rw [if_pos hstop]
        omega
    · refine ⟨x, by rw [hshape, if_neg hn, hx], .refl x, fun _ => rfl, Nat.le_refl _, ?_⟩
      rintro rfl
      exact congrArg _ (if_neg (Ne.symm hn))
  | exchange old new =>
    by_cases hne : old = new
    · have h : g.exchange old new = .ok k := h
      rw [Graph.exchange, if_pos hne] at h
      cases h
      exact ⟨x, hx, .refl n x⟩
    · rw [shape?_exchange hm hne h, hx]
      split
      next hn => exact ⟨_, rfl, .retire (hn ▸ he) x⟩
      next => exact ⟨_, rfl, ⟨.inl rfl, rfl, rfl⟩, fun _ => rfl,
          Nat.le_of_eq (List.length_map _), fun _ => List.length_map _⟩
  | kill m =>
    obtain ⟨-, -, hshape, -⟩ := kill_eq_ok h
    rw [hshape, hx]
    split
    next hn => exact ⟨_, rfl, .retire (hn ▸ he) x⟩
    next => exact ⟨x, rfl, .refl n x⟩
  | setOperand => exact he.elim
  | addOperand => exact he.elim
  | keepAlive => exact he.elim

/-- What a permitted edit appends. -/
theorem apply_appends (he : e.Permitted) (hm : g.Mirrored) (h : g.apply e = .ok k)
    (hx : g.shape? n = none) (hy : k.shape? n = some y) : y.Appended := by
  cases e with
  | addNode op mode block operands =>
    obtain ⟨⟨m, k⟩, hadd, h⟩ := bind_eq_ok.mp h
    cases h
    obtain ⟨-, -, -, hshape, -⟩ := addNode_eq_ok hadd
    rw [hshape] at hy
    split at hy
    next =>
      cases hy
      exact ⟨he.1, he.2.imp_right .inl⟩
    next =>
      rw [hx] at hy
      cases hy
  | removeOperand m i =>
    obtain ⟨old, -, -, hshape, -⟩ := removeOperand_eq_ok h
    rw [hshape, hx, Option.map_none, ite_self] at hy
    cases hy
  | exchange old new =>
    have hsize : k.size = g.size := size_exchange hm h
    have hn := lt_size_of_shape? hy
    obtain ⟨z, hz⟩ := exists_node_of_lt (hsize ▸ hn)
    rw [shape?_eq hz] at hx
    cases hx
  | kill m =>
    obtain ⟨-, -, hshape, -⟩ := kill_eq_ok h
    rw [hshape, hx, Option.map_none, ite_self] at hy
    cases hy
  | setOperand => exact he.elim
  | addOperand => exact he.elim
  | keepAlive => exact he.elim

theorem apply_signature (he : e.Permitted) (h : g.apply e = .ok k) : g.SameSignature k := by
  cases e with
  | addNode op mode block operands =>
    obtain ⟨⟨m, k⟩, hadd, h⟩ := bind_eq_ok.mp h
    cases h
    exact (addNode_signature op mode block operands).gives hadd
  | removeOperand m i => exact (removeOperand_signature i).gives h
  | exchange old new => exact (exchange_signature new).gives h
  | kill m => exact kill_signature.gives h
  | setOperand => exact he.elim
  | addOperand => exact he.elim
  | keepAlive => exact he.elim

/-! ### All edits of a pass -/

/-- The graph after permitted edits, which dropped so many keep-alives. -/
inductive Altered (g : Graph) : Nat → Graph → Prop where
  | refl : Altered g 0 g
  | step {m : Nat} {h k : Graph} {e : Edit} : Altered g m h → e.Permitted → h.apply e = .ok k →
    Altered g (m + e.dropped) k

/-- The graph `h` holds what `g` held, rewired and in part retired, and constants and jumps that
were appended. -/
structure Rewires (g h : Graph) : Prop where
  signature : g.SameSignature h
  anchors : ∀ a ∈ Anchor.all, h.isRetired a = false
  slots : ∀ (n : NodeId) (x : Node), g.nodes[n]? = some x → ∃ y, h.nodes[n]? = some y ∧
    y.mode = x.mode ∧ y.block = x.block ∧ (y.op = x.op ∨ y.op = .retired)
  appended : ∀ (n : NodeId) (y : Node), g.size ≤ n → h.nodes[n]? = some y → y.operands = [] ∧
    ((∃ v, y.op = .const v) ∧ y.block = some Anchor.startBlock ∨ y.op = .jump ∨ y.op = .retired)

variable {m : Nat}

namespace Altered

theorem built (h : g.Altered m k) (hg : g.Built) : k.Built := by
  induction h with
  | refl => exact hg
  | step _ _ hedit ih => exact .edit ih hedit

theorem signature (h : g.Altered m k) : g.SameSignature k := by
  induction h with
  | refl => exact ⟨rfl, rfl⟩
  | step _ he hedit ih => exact ih.trans (apply_signature he hedit)

/-- What becomes of the slots there were. -/
theorem alters (h : g.Altered m k) (hg : g.Built) (hx : g.shape? n = some x) :
    ∃ y, k.shape? n = some y ∧ x.Alters n m y := by
  induction h with
  | refl => exact ⟨x, hx, .refl n x⟩
  | step hbefore he hedit ih =>
    obtain ⟨y, hy, hxy⟩ := ih
    obtain ⟨z, hz, hyz⟩ := apply_alters he (hbefore.built hg).mirrored hedit hy
    exact ⟨z, hz, hxy.trans hyz⟩

/-- What the slots hold that were added. -/
theorem appended (h : g.Altered m k) (hg : g.Built) (hx : g.shape? n = none)
    (hy : k.shape? n = some y) : y.Appended := by
  induction h generalizing y with
  | refl =>
    rw [hx] at hy
    cases hy
  | @step m k k' e hbefore he hedit ih =>
    have hm := (hbefore.built hg).mirrored
    cases hz : k.shape? n with
    | none => exact apply_appends he hm hedit hz hy
    | some z =>
      obtain ⟨y', hy', hzy⟩ := apply_alters he hm hedit hz
      rw [hy] at hy'
      cases hy'
      exact (ih hz).alter hzy

theorem anchors (h : g.Altered m k) (hg : g.Built)
    (ha : ∀ a ∈ Anchor.all, g.isRetired a = false) : ∀ a ∈ Anchor.all, k.isRetired a = false := by
  intro a hmem
  obtain ⟨x, hx, hop⟩ := isRetired_eq_false_iff.mp (ha a hmem)
  obtain ⟨y, hy, hxy⟩ := h.alters hg hx
  exact isRetired_eq_false_iff.mpr ⟨y, hy, hxy.anchor hmem ▸ hop⟩

theorem rewires (h : g.Altered m k) (hg : g.Built)
    (ha : ∀ a ∈ Anchor.all, g.isRetired a = false) : g.Rewires k where
  signature := h.signature
  anchors := h.anchors hg ha
  slots n x hx := by
    obtain ⟨y, hy, hxy⟩ := h.alters hg (shape?_eq hx)
    obtain ⟨z, hz, rfl⟩ := Option.map_eq_some_iff.mp hy
    exact ⟨z, hz, hxy.keeps.mode, hxy.keeps.block, hxy.keeps.op⟩
  appended n y hn hy := by
    have hx : g.shape? n = none := by rw [shape?, getElem?_eq_none_of_size_le hn]; rfl
    exact h.appended hg hx (shape?_eq hy)

/-- The operands that the stop node lost are the keep-alives that were dropped. -/
theorem keepAlives (h : g.Altered m k) (hg : g.Built) :
    (k.operands Anchor.stop).length + m = (g.operands Anchor.stop).length := by
  obtain ⟨x, hx, -⟩ := hg.keeps_anchor (i := Anchor.stop) rfl
  obtain ⟨y, hy, hxy⟩ := h.alters hg hx
  rw [operands_eq_of_shape hx, operands_eq_of_shape hy]
  exact hxy.keepAlives rfl

end Altered

/-- What acts on memory in a graph that was rewired did so before. -/
theorem Rewires.usesMemory (hr : g.Rewires k) {x : Node} (hx : k.nodes[n]? = some x)
    (hop : x.op.usesMemory = true) : ∃ y, g.nodes[n]? = some y ∧ y.op = x.op := by
  have hne (op : Op) (hno : op.usesMemory = false) : x.op ≠ op := by
    rintro rfl
    rw [hno] at hop
    cases hop
  rcases Nat.lt_or_ge n g.size with hn | hn
  · obtain ⟨y, hy⟩ := exists_node_of_lt hn
    obtain ⟨x', hx', -, -, hkept⟩ := hr.slots n y hy
    rw [hx] at hx'
    cases hx'
    exact ⟨y, hy, (hkept.resolve_right (hne .retired rfl)).symm⟩
  · obtain ⟨-, ⟨⟨v, hconst⟩, -⟩ | hjump | hretired⟩ := hr.appended n x hn hx
    · exact absurd hconst (hne (.const v) rfl)
    · exact absurd hjump (hne .jump rfl)
    · exact absurd hretired (hne .retired rfl)

end Graph

end SeaOfNodes
