import SeaOfNodes.Graph.Verify
import SeaOfNodes.Proofs.Flow
import SeaOfNodes.Proofs.Liveness

/-!
What the check of a graph establishes.

`Graph.Verified` lists, for the live nodes of a graph that passes, the rules that proofs rely on.
-/

namespace SeaOfNodes

namespace Graph

/-- The rules a graph that passes the check obeys. -/
structure Verified (g : Graph) : Prop where
  inUse : ∀ n m, g.Live n → m ∈ g.inputs n → g.isRetired m = false
  predecessor : ∀ b x, g.Live b → g.nodes[b]? = some x → x.op = .block →
    ∀ p ∈ x.operands, p ≠ Anchor.bad ∧ ∃ y, g.nodes[p]? = some y ∧ entersBlock b y.op = true
  phi : ∀ n x, g.Live n → g.nodes[n]? = some x → x.op = .phi →
    ∃ b y, x.block = some b ∧ g.nodes[b]? = some y ∧ y.op = .block ∧
      x.operands.length = y.operands.length
  memory : ∀ n x, g.Live n → g.nodes[n]? = some x → x.op.usesMemory = true →
    ∃ m, x.operands.head? = some m
  flow : ∃ blocks, (∀ b, b ∈ blocks ↔ g.Live b ∧ ∃ x, g.nodes[b]? = some x ∧ x.op = .block) ∧
    ∀ b ∈ blocks, b = Anchor.endBlock ∨
      Relation.ReflTransGen (g.Follows blocks) Anchor.startBlock b

theorem checkPredecessors_eq_ok {g : Graph} {b : NodeId} {x : Node}
    (h : g.checkPredecessors b x = .ok ()) :
    ∀ p ∈ x.operands, p ≠ Anchor.bad ∧ ∃ y, g.nodes[p]? = some y ∧ entersBlock b y.op = true := by
  intro p hp
  have hp := forM_eq_ok h p hp
  split at hp
  next => cases hp
  next hbad =>
    obtain ⟨y, hy, hp⟩ := bind_eq_ok.mp hp
    refine ⟨hbad, y, node_eq_ok hy, ?_⟩
    split at hp
    next henters => exact henters
    next => cases hp

theorem checkPhi_eq_ok {g : Graph} {n : NodeId} {x : Node} (h : g.checkPhi n x = .ok ()) :
    ∃ b y, x.block = some b ∧ g.nodes[b]? = some y ∧ y.op = .block ∧
      x.operands.length = y.operands.length := by
  unfold checkPhi at h
  split at h
  next => cases h
  next b hb =>
    obtain ⟨y, hy, h⟩ := bind_eq_ok.mp h
    split at h
    next => cases h
    next hop =>
      split at h
      next hlen => exact ⟨b, y, hb, node_eq_ok hy, by simpa using hop, hlen⟩
      next => cases h

theorem firstHasMode_eq_some {g : Graph} {x : Node} {mode : Mode} {m : NodeId}
    (h : g.firstHasMode x mode = .ok (some m)) : x.operands.head? = some m := by
  unfold firstHasMode at h
  split at h
  next => cases h
  next o ho =>
    obtain ⟨y, -, h⟩ := bind_eq_ok.mp h
    have h : (if y.mode = mode then some o else none) = some m := Except.ok.inj h
    split at h
    next =>
      cases h
      exact ho
    next => cases h

theorem checkMemoryUse_eq_ok {g : Graph} {c c' : Consumers} {n : NodeId} {x : Node}
    (h : g.checkMemoryUse c n x = .ok c') (hop : x.op.usesMemory = true) :
    ∃ m, x.operands.head? = some m := by
  unfold checkMemoryUse at h
  rw [if_pos hop] at h
  obtain ⟨first, hfirst, h⟩ := bind_eq_ok.mp h
  cases first with
  | none => cases h
  | some m => exact ⟨m, firstHasMode_eq_some hfirst⟩

/-- What the check of one node establishes. -/
structure Checked (g : Graph) (n : NodeId) (x : Node) : Prop where
  predecessor : x.op = .block →
    ∀ p ∈ x.operands, p ≠ Anchor.bad ∧ ∃ y, g.nodes[p]? = some y ∧ entersBlock n y.op = true
  phi : x.op = .phi → ∃ b y, x.block = some b ∧ g.nodes[b]? = some y ∧ y.op = .block ∧
    x.operands.length = y.operands.length
  memory : x.op.usesMemory = true → ∃ m, x.operands.head? = some m

theorem checkNode_eq_ok {g : Graph} {c c' : Consumers} {n : NodeId}
    (h : g.checkNode c n = .ok c') : ∀ x, g.nodes[n]? = some x → g.Checked n x := by
  intro x hx
  obtain ⟨y, hy, h⟩ := bind_eq_ok.mp h
  rw [node_eq_ok hy] at hx
  cases hx
  obtain ⟨-, -, h⟩ := bind_eq_ok.mp h
  obtain ⟨⟨⟩, hkind, h⟩ := bind_eq_ok.mp h
  obtain ⟨c₁, hmemory, -⟩ := bind_eq_ok.mp h
  refine ⟨fun hop => ?_, fun hop => ?_, checkMemoryUse_eq_ok hmemory⟩
  · simp only [checkKind, hop] at hkind
    exact checkPredecessors_eq_ok hkind
  · simp only [checkKind, hop] at hkind
    exact checkPhi_eq_ok hkind

/-- A graph that passes the check obeys the rules. -/
theorem verify_eq_ok {g : Graph} (h : g.verify = .ok ()) : g.Verified := by
  unfold verify at h
  split at h
  next => cases h
  next => cases h
  next walk hwalk =>
    have hcomplete := Walk.complete_of_run hwalk
    split at h
    next => cases h
    next hdangling =>
      obtain ⟨c, hnodes, h⟩ := bind_eq_ok.mp h
      obtain ⟨blocks, hblocks, h⟩ := bind_eq_ok.mp h
      obtain ⟨reachable, hreach, h⟩ := bind_eq_ok.mp h
      have hchecked : ∀ n ∈ walk.order, ∀ x, g.nodes[n]? = some x → g.Checked n x := by
        refine foldlM_eq_ok (I := fun done _ => ∀ n ∈ done, ∀ x, g.nodes[n]? = some x →
          g.Checked n x) hnodes (fun n hn => by cases hn) fun done n rest c c' _ hdone hn => ?_
        intro m hm
        rcases List.mem_append.mp hm with hm | hm
        · exact hdone m hm
        · rw [List.mem_singleton.mp hm]
          exact checkNode_eq_ok hn
      have hlive := fun n (hn : g.Live n) => hchecked n ((hcomplete.mem_order n).mpr hn)
      refine
        { inUse := fun n m hn hm => ?_
          predecessor := fun b x hb hx => (hlive b hb x hx).predecessor
          phi := fun n x hn hx => (hlive n hn x hx).phi
          memory := fun n x hn hx => (hlive n hn x hx).memory
          flow := ⟨blocks, fun b => ?_, fun b hb => ?_⟩ }
      · cases hret : g.isRetired m with
        | false => rfl
        | true =>
          have := (hcomplete.mem_dangling n m).mpr ⟨hn, hm, hret⟩
          rw [hdangling] at this
          cases this
      · rw [mem_select hblocks, hcomplete.mem_order]
        simp
      · split at h
        next => cases h
        next hnone =>
          have := List.find?_eq_none.mp hnone b hb
          rw [← contains_reachableBlocks hreach]
          by_cases hend : b = Anchor.endBlock
          · exact .inl hend
          · exact .inr (by simpa [hend] using this)

end Graph

end SeaOfNodes
