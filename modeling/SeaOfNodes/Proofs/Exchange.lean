import Mathlib.Logic.Function.Iterate
import SeaOfNodes.Proofs.Edits

/-!
An exchange substitutes one node for another, in place.

Only the users that the old node lists are rewired, and retiring it reads lists that the rewiring has
just changed: the old node may use itself, and the new one may use the old one. Since user lists
mirror operand lists, no edge is missed (`Graph.exchange_exact`). User lists are followed entry by
entry here, since taking an entry away moves the last one into its place.
-/

namespace SeaOfNodes

/-! ### Taking entries away -/

theorem count_iterate_swapErase (a b k : Nat) (l : List Nat) :
    ((swapErase a)^[k] l).count b = l.count b - if b = a then k else 0 := by
  induction k generalizing l with
  | zero => simp
  | succ k ih =>
    rw [Function.iterate_succ_apply, ih, count_swapErase]
    split <;> omega

/-- Taking every `a` away leaves the other entries, in some order. -/
theorem iterate_swapErase_perm (a : Nat) (l : List Nat) :
    ((swapErase a)^[l.count a] l).Perm (l.filter (· ≠ a)) := by
  rw [List.perm_iff_count]
  intro b
  rw [count_iterate_swapErase]
  by_cases hb : b = a
  · have hnone : (l.filter (· ≠ a)).count a = 0 := List.count_eq_zero.mpr (by simp)
    rw [hb, if_pos rfl, Nat.sub_self, hnone]
  · rw [if_neg hb, Nat.sub_zero, List.count_filter (by simpa using hb)]

namespace Graph

theorem users_dropUser (g : Graph) (n u i : NodeId) :
    (g.dropUser n u).users i = if i = n then swapErase u (g.users i) else g.users i := by
  rw [dropUser, users_update, users]
  cases g.nodes[i]? <;> rfl

theorem users_foldl_dropUser (u : NodeId) (l : List NodeId) (g : Graph) (i : NodeId) :
    (l.foldl (fun h o => h.dropUser o u) g).users i = (swapErase u)^[l.count i] (g.users i) := by
  induction l generalizing g with
  | nil => rfl
  | cons o l ih =>
    rw [List.foldl_cons, ih, users_dropUser, List.count_cons]
    by_cases ho : o = i
    · simp [ho]
    · simp [ho, Ne.symm ho]

/-- A node that is retired is taken out of the user list of each operand, once for each edge. -/
theorem users_kill {g g' : Graph} {n : NodeId} (h : g.kill n = .ok g') (i : NodeId) :
    g'.users i = (swapErase n)^[(g.operands n).count i] (g.users i) := by
  obtain ⟨x, hx, h⟩ := bind_eq_ok.mp h
  cases h
  rw [detach, users_update_of_eq, users_foldl_dropUser, users_update_of_eq,
    operands_eq (node_eq_ok hx)]
  · intro y
    rfl
  · intro y
    rfl

/-! ### Exchanging -/

/-- An exchange of nodes of the arena succeeds. -/
theorem exists_exchange {g : Graph} {old new : NodeId} (hold : old < g.size) (hnew : new < g.size) :
    ∃ g', g.exchange old new = .ok g' := by
  unfold exchange
  split
  · exact ⟨g, rfl⟩
  · obtain ⟨x, hx⟩ := exists_node_of_lt hold
    rw [bind_of_ok (node_eq_ok_iff.mpr hx), if_pos (.inl hnew)]
    refine exists_bind (node_eq_ok_iff.mpr (exists_node_of_lt ?_).choose_spec) ⟨_, rfl⟩
    rw [size_foldl_redirect, size_update]
    exact hold

variable {g g' : Graph} {old new : NodeId}

/-- The old node ends without users, and is taken out of the user lists of what it used. -/
theorem users_exchange (hm : g.Mirrored) (hne : old ≠ new) (h : g.exchange old new = .ok g')
    {i : NodeId} (hi : i ≠ new) :
    g'.users i = if i = old then [] else (swapErase old)^[(g.users i).count old] (g.users i) := by
  obtain ⟨moved, hkill, -, -, hshape, husers⟩ := exchange_eq_ok hm hne h
  have hcount : (moved.operands old).count i = if i = old then 0 else (g.users i).count old := by
    rw [hm old i, operands_of_shape?, hshape, operands_of_shape?]
    cases g.shape? old with
    | none => simp
    | some x => simpa [hi] using Shape.count_redirect (x := x) hne i
  rw [users_kill hkill, husers i hi, hcount]
  split
  · rfl
  · rfl

/-- The users of the old node other than itself become users of the new one. -/
theorem users_exchange_new (hm : g.Mirrored) (hne : old ≠ new) (h : g.exchange old new = .ok g') :
    (g'.users new).Perm ((g.users new ++ g.users old).filter (· ≠ old)) := by
  rw [List.perm_iff_count]
  intro u
  rw [hm.exchange h u new, operands_of_shape?, shape?_exchange hm hne h]
  by_cases hu : u = old
  · have hnone : ((g.users new ++ g.users old).filter (· ≠ old)).count old = 0 :=
      List.count_eq_zero.mpr (by simp)
    rw [if_pos hu, hu, hnone]
    cases g.shape? old <;> rfl
  · rw [if_neg hu, List.count_filter (by simpa using hu), List.count_append, hm u new, hm u old,
      operands_of_shape?]
    cases g.shape? u with
    | none => rfl
    | some x => simpa [Ne.symm hne] using Shape.count_redirect (x := x) hne new

/-- An exchange puts one node of the arena in the place of another. Every node but the old one keeps
its kind, mode and block, and has the new one wherever it had the old one among its operands; so
nothing has the old one any more, which is retired and neither uses nor is used. The old node is
taken out of the user lists of other nodes, entry by entry, and those lists do not change otherwise;
the new node takes the users of the old one over. -/
theorem exchange_exact (hg : g.Built) (hold : old < g.size) (hnew : new < g.size)
    (hne : old ≠ new) :
    ∃ g', g.exchange old new = .ok g' ∧ g'.size = g.size ∧
      (∀ (n : NodeId) (x : Node), g'.nodes[n]? = some x → old ∉ x.operands) ∧
      (∀ (n : NodeId) (x : Node), n ≠ old → g.nodes[n]? = some x → ∃ y, g'.nodes[n]? = some y ∧
        y.op = x.op ∧ y.mode = x.mode ∧ y.block = x.block ∧
        y.operands = x.operands.map (fun o => if o = old then new else o) ∧
        (n ≠ new → y.users = (swapErase old)^[x.users.count old] x.users ∧
          y.users.Perm (x.users.filter (· ≠ old))) ∧
        (n = new → y.users.Perm ((x.users ++ g.users old).filter (· ≠ old)))) ∧
      ∃ y, g'.nodes[old]? = some y ∧ y.op = .retired ∧ y.operands = [] ∧ y.users = [] := by
  obtain ⟨g', h⟩ := exists_exchange hold hnew
  have hm := hg.mirrored
  have hshape := shape?_exchange hm hne h
  have husers {i : NodeId} (hi : i ≠ new) := users_exchange hm hne h hi
  refine ⟨g', h, size_exchange hm h, fun n x hx hmem => ?_, fun n x hn hx => ?_, ?_⟩
  · have hx := hshape n ▸ shape?_eq hx
    split at hx
    next =>
      obtain ⟨y, -, hy⟩ := Option.map_eq_some_iff.mp hx
      have hnil : x.operands = [] := (congrArg Shape.operands hy).symm
      rw [hnil] at hmem
      cases hmem
    next =>
      obtain ⟨y, -, hy⟩ := Option.map_eq_some_iff.mp hx
      have hops : (y.redirect old new).operands = x.operands := congrArg Shape.operands hy
      exact Shape.not_mem_redirect hne (hops ▸ hmem)
  · have hslot := hshape n
    rw [if_neg hn, shape?_eq hx, Option.map_some] at hslot
    obtain ⟨y, hy, hsame⟩ := Option.map_eq_some_iff.mp hslot
    refine ⟨y, hy, congrArg Shape.op hsame, congrArg Shape.mode hsame, congrArg Shape.block hsame,
      congrArg Shape.operands hsame, fun hnew' => ?_, fun hnew' => ?_⟩
    · have heq := husers hnew'
      rw [if_neg hn, users_eq hy, users_eq hx] at heq
      exact ⟨heq, heq ▸ iterate_swapErase_perm old x.users⟩
    · subst hnew'
      have hperm := users_exchange_new hm hne h
      rwa [users_eq hy, users_eq hx] at hperm
  · obtain ⟨x, hx⟩ := exists_node_of_lt hold
    have hslot := hshape old
    rw [if_pos rfl, shape?_eq hx, Option.map_some] at hslot
    obtain ⟨y, hy, hsame⟩ := Option.map_eq_some_iff.mp hslot
    have heq := husers hne
    rw [if_pos rfl, users_eq hy] at heq
    exact ⟨y, hy, congrArg Shape.op hsame, congrArg Shape.operands hsame, heq⟩

/-- The phi 6 merges itself; the negation 7 uses it once, the phi 8 twice. -/
def crossedPhis : List Edit :=
  [.addNode (.const (.bool true)) .bool (some Anchor.startBlock) [],
    .addNode .phi .bool (some Anchor.startBlock) [5, 5],
    .addNode .not .bool (some Anchor.startBlock) [6],
    .addNode .phi .bool (some Anchor.startBlock) [6, 5, 6],
    .addOperand 6 6]

theorem exchange_exact_crossedPhis :
    ∃ g g' y z, crossedPhis.foldlM Graph.apply (.new "f" 0) = .ok g ∧ g.exchange 6 7 = .ok g' ∧
      (∀ (n : NodeId) (x : Node), g'.nodes[n]? = some x → 6 ∉ x.operands) ∧
      g'.nodes[7]? = some y ∧ y.operands = [7] ∧ y.users.Perm [7, 8, 8] ∧
      g'.nodes[8]? = some z ∧ z.operands = [7, 5, 7] ∧
      ∃ x, g'.nodes[6]? = some x ∧ x.op = .retired ∧ x.operands = [] ∧ x.users = [] := by
  have hok : (crossedPhis.foldlM Graph.apply (.new "f" 0)).map (fun g =>
      (decide (7 < g.size), g.nodes[6]?.map Node.users, g.nodes[7]?, g.nodes[8]?.map Node.operands)) =
      .ok (true, some [7, 8, 8, 6],
        some ⟨.not, .bool, some Anchor.startBlock, [6], []⟩, some [6, 5, 6]) := by
    decide +kernel
  cases hg : crossedPhis.foldlM Graph.apply (.new "f" 0) with
  | error e =>
    rw [hg] at hok
    cases hok
  | ok g =>
    rw [hg] at hok
    simp only [Except.map, Except.ok.injEq, Prod.mk.injEq, decide_eq_true_eq] at hok
    obtain ⟨hsize, husers, hseven, height⟩ := hok
    obtain ⟨x₈, hx₈, hops⟩ := Option.map_eq_some_iff.mp height
    obtain ⟨x₆, hx₆, hold⟩ := Option.map_eq_some_iff.mp husers
    have hbuilt : g.Built := (Built.new "f" 0).foldlM hg
    obtain ⟨g', h, -, hgone, hkept, hretired⟩ :=
      exchange_exact hbuilt (Nat.lt_trans (by decide : 6 < 7) hsize) hsize (by decide)
    obtain ⟨y, hy, -, -, -, hyops, -, hyusers⟩ := hkept 7 _ (by decide) hseven
    obtain ⟨z, hz, -, -, -, hzops, -, -⟩ := hkept 8 x₈ (by decide) hx₈
    rw [users_eq hx₆, hold] at hyusers
    exact ⟨g, g', y, z, rfl, h, hgone, hy, hyops, hyusers rfl, hz, by rw [hzops, hops]; rfl,
      hretired⟩

end Graph

end SeaOfNodes
