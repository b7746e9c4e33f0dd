import SeaOfNodes.Proofs.Fixpoint

/-!
What a least solution rests on.

The constraints say what must be reachable, taken and known. A least solution claims nothing more:
taken edges lead from the entry to every reachable block (`Solution.Describes.reached`), an edge is
taken only if control can pass it (`Solution.Describes.passes`), and the fact about a computed node
is the one that follows from its operands (`Solution.Describes.value_eq_transfer`). Each time the
solution is cut down to what is supported, and what is left still solves the constraints.
-/

namespace SeaOfNodes

namespace Assignment

/-- The edge `e` stands in the block `s`, and the facts let control pass it. -/
def Passes (g : Graph) (a : Assignment) (e s : NodeId) : Prop :=
  ∃ x, g.nodes[e]? = some x ∧ x.block = some s ∧
    (x.op = .jump ∨ x.op = .ret ∨
      ∃ side, x.op = .proj (.arm side) ∧ (a.operand x 0).Admits side)

/-- A taken edge leads from `s` to the live block `t`. -/
structure Leads (g : Graph) (a : Assignment) (s t : NodeId) : Prop where
  live : g.Live t
  block : ∃ x, g.nodes[t]? = some x ∧ x.op = .block
  edge : ∃ e ∈ g.operands t, a.taken e = true ∧ g.blockOf e = some s

/-- Taken edges lead to `b` from the entry. -/
def Reached (g : Graph) (a : Assignment) (b : NodeId) : Prop :=
  Relation.ReflTransGen (a.Leads g) Anchor.startBlock b

theorem Reached.reachable {g : Graph} {a : Assignment} (hs : a.Solves g) {b : NodeId}
    (h : a.Reached g b) : a.reachable b = true := by
  cases h with
  | refl => exact hs.entry
  | tail _ hlast =>
    obtain ⟨x, hx, hop⟩ := hlast.block
    obtain ⟨e, he, htaken, -⟩ := hlast.edge
    rw [Graph.operands_eq hx] at he
    exact hs.enter b x hlast.live hx hop e he htaken

open Classical in
/-- The assignment cut down to the blocks that taken edges lead to, and the edges that leave
them. -/
noncomputable def supported (g : Graph) (a : Assignment) : Assignment where
  value := a.value
  taken e := a.taken e && decide (∃ s, a.Passes g e s ∧ a.Reached g s)
  reachable b := decide (a.Reached g b)

theorem taken_supported {g : Graph} {a : Assignment} {e : NodeId} :
    (a.supported g).taken e = true ↔
      a.taken e = true ∧ ∃ s, a.Passes g e s ∧ a.Reached g s := by
  simp [supported]

theorem reachable_supported {g : Graph} {a : Assignment} {b : NodeId} :
    (a.supported g).reachable b = true ↔ a.Reached g b := by
  simp [supported]

/-- The fact about one node lowered to what follows from the facts about its operands. -/
def lowered (g : Graph) (a : Assignment) (n : NodeId) (x : Node) : Assignment :=
  a.raise n (a.transfer g x)

end Assignment

namespace Solution.Describes

variable {g : Graph} {r : Solution}

theorem constant?_eq (hr : r.Describes g) {n : NodeId} (hn : g.Live n) :
    r.constant? n = (r.assignment.value n).constant? := by
  rw [constant?, hr.value n hn]
  rfl

theorem operands_live (hr : r.Describes g) {n : NodeId} {x : Node} (hn : g.Live n)
    (hx : g.nodes[n]? = some x) : ∀ o ∈ x.operands, g.Live o := by
  intro o ho
  have hin : o ∈ g.inputs n := by
    rw [Graph.inputs_eq hx]
    exact List.mem_append_right _ ho
  exact hn.needs ⟨hin, hr.inUse n o hn hin⟩

theorem block_live (hr : r.Describes g) {n b : NodeId} {x : Node} (hn : g.Live n)
    (hx : g.nodes[n]? = some x) (hb : x.block = some b) : g.Live b := by
  have hin : b ∈ g.inputs n := by
    rw [Graph.inputs_eq hx, Node.inputs, hb]
    exact List.mem_append_left _ (List.mem_singleton_self _)
  exact hn.needs ⟨hin, hr.inUse n b hn hin⟩

/-- The predecessor edges of the block of a live node are live. -/
theorem preds_live (hr : r.Describes g) {n : NodeId} {x : Node} (hn : g.Live n)
    (hx : g.nodes[n]? = some x) : ∀ p ∈ x.block.elim [] g.operands, g.Live p := by
  intro p hp
  cases hb : x.block with
  | none =>
    rw [hb] at hp
    cases hp
  | some b =>
    rw [hb] at hp
    have hp : p ∈ g.operands b := hp
    cases hy : g.nodes[b]? with
    | none =>
      rw [Graph.operands, hy] at hp
      cases hp
    | some y =>
      rw [Graph.operands_eq hy] at hp
      exact hr.operands_live (hr.block_live hn hx hb) hy p hp

/-- What is supported is all there is. -/
theorem below_supported (hr : r.Describes g) :
    r.assignment.Below g (r.assignment.supported g) := by
  have hs := hr.solves
  have henters : ∀ x : Node, (r.assignment.supported g).enters x = true →
      ∃ b, x.block = some b ∧ r.assignment.Reached g b := by
    intro x hx
    obtain ⟨b, hb, hreach⟩ := Assignment.enters_eq_true.mp hx
    exact ⟨b, hb, Assignment.reachable_supported.mp hreach⟩
  have hin : ∀ x : Node, (r.assignment.supported g).enters x = true →
      r.assignment.enters x = true := by
    intro x hx
    obtain ⟨b, hb, hreach⟩ := henters x hx
    exact Assignment.enters_eq_true.mpr ⟨b, hb, hreach.reachable hs⟩
  have hbelow : (r.assignment.supported g).Below g r.assignment :=
    { value := fun n _ => Fact.le_refl _
      taken := fun n _ h => (Assignment.taken_supported.mp h).1
      reachable := fun n _ h => (Assignment.reachable_supported.mp h).reachable hs }
  refine hr.least _
    { entry := Assignment.reachable_supported.mpr .refl
      enter := fun b x hb hx hop e he htaken => ?_
      leave := fun n x hn hx hop hblock => ?_
      choose := fun n x side hn hx hop hblock hadmits => ?_
      seed := hs.seed
      compute := fun n x hn hx hc hblock => ?_ }
  · obtain ⟨htaken, s, ⟨y, hy, hys, -⟩, hreach⟩ := Assignment.taken_supported.mp htaken
    refine Assignment.reachable_supported.mpr
      (hreach.tail ⟨hb, ⟨x, hx, hop⟩, e, ?_, htaken, ?_⟩)
    · rw [Graph.operands_eq hx]
      exact he
    · rw [Graph.blockOf_eq hy, hys]
  · obtain ⟨b, hb, hreach⟩ := henters x hblock
    exact Assignment.taken_supported.mpr ⟨hs.leave n x hn hx hop (hin x hblock), b,
      ⟨x, hx, hb, hop.imp_right .inl⟩, hreach⟩
  · obtain ⟨b, hb, hreach⟩ := henters x hblock
    exact Assignment.taken_supported.mpr ⟨hs.choose n x side hn hx hop (hin x hblock) hadmits, b,
      ⟨x, hx, hb, .inr (.inr ⟨side, hop, hadmits⟩)⟩, hreach⟩
  · have hle := Assignment.transfer_le hbelow (hr.operands_live hn hx) (hr.preds_live hn hx)
    exact Fact.le_trans hle (hs.compute n x hn hx hc (hin x hblock))

/-- Taken edges lead from the entry to every reachable block. -/
theorem reached (hr : r.Describes g) {b : NodeId} (hb : g.Live b)
    (h : r.assignment.reachable b = true) : r.assignment.Reached g b :=
  Assignment.reachable_supported.mp (hr.below_supported.reachable b hb h)

/-- A taken edge stands in a reachable block, and the facts let control pass it. -/
theorem passes (hr : r.Describes g) {e : NodeId} (he : g.Live e)
    (h : r.assignment.taken e = true) :
    ∃ s, r.assignment.Passes g e s ∧ r.assignment.Reached g s :=
  (Assignment.taken_supported.mp (hr.below_supported.taken e he h)).2

/-- The fact about a computed node of a reachable block follows from its operands. -/
theorem value_eq_transfer (hr : r.Describes g) {n : NodeId} {x : Node} (hn : g.Live n)
    (hx : g.nodes[n]? = some x) (hc : g.computes x = true)
    (hin : r.assignment.enters x = true) : r.assignment.value n = r.assignment.transfer g x := by
  have hs := hr.solves
  have hle : (r.assignment.transfer g x).le (r.assignment.value n) = true :=
    hs.compute n x hn hx hc hin
  let a := r.assignment.lowered g n x
  have hvalue : ∀ m, a.value m = if m = n then r.assignment.transfer g x
      else r.assignment.value m := fun m => rfl
  have hbelow : a.Below g r.assignment :=
    { value := fun m _ => by
        rw [hvalue]
        split
        next hm => exact hm ▸ hle
        next => exact Fact.le_refl _
      taken := fun _ _ h => h
      reachable := fun _ _ h => h }
  have hsolves : a.Solves g :=
    { entry := hs.entry
      enter := hs.enter
      leave := hs.leave
      choose := fun m y side hm hy hop hblock hadmits => hs.choose m y side hm hy hop hblock
        (hadmits.mono (Assignment.operand_le hbelow (hr.operands_live hm hy) 0))
      seed := fun m y hm hy hcm => by
        have hne : m ≠ n := by
          rintro rfl
          rw [hx] at hy
          cases hy
          rw [hc] at hcm
          cases hcm
        rw [hvalue, if_neg hne]
        exact hs.seed m y hm hy hcm
      compute := fun m y hm hy hcm hblock => by
        have hless := Assignment.transfer_le hbelow (hr.operands_live hm hy)
          (hr.preds_live hm hy)
        rw [hvalue]
        split
        next hmn =>
          subst hmn
          rw [hx] at hy
          cases hy
          exact hless
        next => exact Fact.le_trans hless (hs.compute m y hm hy hcm hblock) }
  have hge := (hr.least a hsolves).value n hn
  rw [hvalue, if_pos rfl] at hge
  rcases Fact.le_iff.mp hge with h | h | h
  · rw [h] at hle ⊢
    rcases Fact.le_iff.mp hle with h' | h' | h'
    · exact h'.symm
    · exact h'.symm
    · cases h'
  · exact h
  · rw [h] at hle ⊢
    exact Fact.varying_le.mp hle

end Solution.Describes

end SeaOfNodes
