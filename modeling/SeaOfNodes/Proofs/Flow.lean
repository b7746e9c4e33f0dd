import Mathlib.Logic.Relation
import SeaOfNodes.Graph.Flow
import SeaOfNodes.Proofs.Edits
import SeaOfNodes.Proofs.Loops

/-!
What lookups over a graph answer.

Selecting nodes and filing them under their blocks are filters (`select_eq_filter`,
`filed_membersByBlock`), and the blocks that control can reach are those that a path of
predecessor edges leads to from the entry (`contains_reachableBlocks`).
-/

namespace SeaOfNodes

/-! ### Entries filed under an id -/

namespace IdMap

variable {α : Type}

theorem filed_file (k n : NodeId) (a : α) (m : IdMap (List α)) :
    (m.file n a).filed k = if k = n then m.filed k ++ [a] else m.filed k := by
  unfold filed file
  by_cases hk : k = n
  · subst hk
    rw [find?_insert_self, if_pos rfl]
    rfl
  · rw [find?_insert_ne hk, if_neg hk]

theorem filed_foldl_file (k b : NodeId) (ss : List NodeId) (m : IdMap (List NodeId)) (t : NodeId) :
    t ∈ (ss.foldl (fun m s => m.file s b) m).filed k ↔ t ∈ m.filed k ∨ k ∈ ss ∧ t = b := by
  induction ss generalizing m with
  | nil => simp
  | cons s ss ih =>
    rw [List.foldl_cons, ih, filed_file]
    by_cases hk : k = s
    · subst hk
      rw [if_pos rfl, List.mem_append, List.mem_singleton, or_assoc]
      refine or_congr_right ⟨?_, fun h => .inl h.2⟩
      rintro (h | h)
      · exact ⟨List.mem_cons_self, h⟩
      · exact ⟨List.mem_cons_of_mem _ h.1, h.2⟩
    · rw [if_neg hk, List.mem_cons]
      simp [hk]

end IdMap

namespace Graph

/-! ### Selecting -/

theorem select_eq_filter {g : Graph} {p : Node → Bool} {ns out : List NodeId}
    (h : g.select p ns = .ok out) : out = ns.filter fun n => (g.nodes[n]?).any p := by
  induction ns generalizing out with
  | nil =>
    cases h
    rfl
  | cons n ns ih =>
    simp only [select, bind, Except.bind] at h
    split at h
    next => cases h
    next x hx =>
      split at h
      next => cases h
      next rest hrest =>
        cases h
        rw [List.filter_cons, node_eq_ok hx, ← ih hrest]
        rfl

theorem mem_select {g : Graph} {p : Node → Bool} {ns out : List NodeId}
    (h : g.select p ns = .ok out) {n : NodeId} :
    n ∈ out ↔ n ∈ ns ∧ ∃ x, g.nodes[n]? = some x ∧ p x = true := by
  rw [select_eq_filter h, List.mem_filter]
  simp [Option.any_eq_true]

/-- Selecting among nodes of the arena succeeds. -/
theorem exists_select {g : Graph} (p : Node → Bool) {ns : List NodeId}
    (h : ∀ n ∈ ns, n < g.size) : ∃ out, g.select p ns = .ok out := by
  induction ns with
  | nil => exact ⟨[], rfl⟩
  | cons n ns ih =>
    obtain ⟨x, hx⟩ := exists_node_of_lt (h n List.mem_cons_self)
    obtain ⟨rest, hrest⟩ := ih fun m hm => h m (List.mem_cons_of_mem _ hm)
    refine ⟨if p x then n :: rest else rest, ?_⟩
    rw [select, node_eq_ok_iff.mpr hx, hrest]
    rfl

/-! ### Members of blocks -/

/-- The block a node stands in. -/
def blockOf (g : Graph) (n : NodeId) : Option NodeId := g.nodes[n]?.bind Node.block

theorem blockOf_eq {g : Graph} {n : NodeId} {x : Node} (h : g.nodes[n]? = some x) :
    g.blockOf n = x.block := by
  rw [blockOf, h]
  rfl

/-- The nodes filed under a block are those that stand in it, in their order. -/
theorem filed_membersByBlock {g : Graph} {ns : List NodeId} {m : IdMap (List NodeId)}
    (h : g.membersByBlock ns = .ok m) (b : NodeId) :
    m.filed b = ns.filter fun n => g.blockOf n == some b := by
  refine foldlM_eq_ok (I := fun done m => m.filed b = done.filter fun n => g.blockOf n == some b)
    h rfl fun done n rest m m' _ hm hturn => ?_
  obtain ⟨x, hx, hturn⟩ := bind_eq_ok.mp hturn
  rw [List.filter_append, List.filter_cons, List.filter_nil, blockOf_eq (node_eq_ok hx), ← hm]
  cases hblock : x.block with
  | none =>
    rw [hblock] at hturn
    cases hturn
    simp
  | some c =>
    rw [hblock] at hturn
    cases hturn
    rw [IdMap.filed_file]
    by_cases hbc : b = c
    · simp [hbc]
    · simp [hbc, Ne.symm hbc]

theorem mem_membersByBlock {g : Graph} {ns : List NodeId} {m : IdMap (List NodeId)}
    (h : g.membersByBlock ns = .ok m) {b n : NodeId} :
    n ∈ m.filed b ↔ n ∈ ns ∧ g.blockOf n = some b := by
  rw [filed_membersByBlock h, List.mem_filter]
  simp

theorem exists_membersByBlock {g : Graph} {ns : List NodeId} (h : ∀ n ∈ ns, n < g.size) :
    ∃ m, g.membersByBlock ns = .ok m := by
  refine (exists_foldlM (I := fun _ _ => True) trivial fun done n rest m hsplit _ => ?_).imp
    fun _ h => h.1
  obtain ⟨x, hx⟩ := exists_node_of_lt (h n (by simp [hsplit]))
  rw [bind_of_ok (node_eq_ok_iff.mpr hx)]
  cases x.block with
  | none => exact ⟨_, rfl, trivial⟩
  | some b => exact ⟨_, rfl, trivial⟩

/-! ### Reachable blocks -/

theorem mem_sources {g : Graph} {ps ss : List NodeId} (h : g.sources ps = .ok ss) {s : NodeId} :
    s ∈ ss ↔ ∃ p ∈ ps, p ≠ Anchor.bad ∧ g.isRetired p = false ∧ g.blockOf p = some s := by
  induction ps generalizing ss with
  | nil =>
    cases h
    simp
  | cons p ps ih =>
    obtain ⟨rest, hrest, h⟩ := bind_eq_ok.mp h
    split at h
    next hdead =>
      cases h
      rw [ih hrest]
      have hnot : ¬ (p ≠ Anchor.bad ∧ g.isRetired p = false ∧ g.blockOf p = some s) := by
        rintro ⟨hbad, hret, -⟩
        rcases hdead with hp | hp
        · exact hbad hp
        · rw [hret] at hp
          cases hp
      simp [hnot]
    next hlive =>
      obtain ⟨x, hx, h⟩ := bind_eq_ok.mp h
      cases h
      rw [not_or, Bool.not_eq_true] at hlive
      rw [List.mem_append, ih hrest]
      simp [hlive, blockOf_eq (node_eq_ok hx)]

theorem exists_sources (g : Graph) (ps : List NodeId) : ∃ ss, g.sources ps = .ok ss := by
  induction ps with
  | nil => exact ⟨[], rfl⟩
  | cons p ps ih =>
    obtain ⟨rest, hrest⟩ := ih
    rw [sources, bind_of_ok hrest]
    by_cases hdead : p = Anchor.bad ∨ g.isRetired p
    · rw [if_pos hdead]
      exact ⟨_, rfl⟩
    · rw [if_neg hdead]
      rw [not_or, Bool.not_eq_true] at hdead
      cases hx : g.nodes[p]? with
      | none => simp [isRetired, hx] at hdead
      | some x => exact exists_bind (node_eq_ok_iff.mpr hx) ⟨_, rfl⟩

/-- `t` is one of `blocks` and has a predecessor edge from `s` that is in use. -/
def Follows (g : Graph) (blocks : List NodeId) (s t : NodeId) : Prop :=
  t ∈ blocks ∧ ∃ p ∈ g.operands t, p ≠ Anchor.bad ∧ g.isRetired p = false ∧ g.blockOf p = some s

theorem mem_successors {g : Graph} {blocks : List NodeId} {m : IdMap (List NodeId)}
    (h : g.successors blocks = .ok m) {s t : NodeId} :
    t ∈ m.filed s ↔ g.Follows blocks s t := by
  refine foldlM_eq_ok (I := fun done m => t ∈ m.filed s ↔ g.Follows done s t) h ?_
    fun done b rest m m' _ hm hturn => ?_
  · simp [Follows, IdMap.filed, IdMap.find?]
  · obtain ⟨x, hx, hturn⟩ := bind_eq_ok.mp hturn
    obtain ⟨ss, hss, hturn⟩ := bind_eq_ok.mp hturn
    cases hturn
    rw [IdMap.filed_foldl_file, hm, mem_sources hss, ← operands_eq (node_eq_ok hx)]
    unfold Follows
    constructor
    · rintro (⟨hmem, hp⟩ | ⟨hp, rfl⟩)
      · exact ⟨List.mem_append_left _ hmem, hp⟩
      · exact ⟨List.mem_append_right _ List.mem_cons_self, hp⟩
    · rintro ⟨hmem, hp⟩
      rcases List.mem_append.mp hmem with hmem | hmem
      · exact .inl ⟨hmem, hp⟩
      · obtain rfl := List.mem_singleton.mp hmem
        exact .inr ⟨hp, rfl⟩

theorem exists_successors {g : Graph} {blocks : List NodeId} (h : ∀ b ∈ blocks, b < g.size) :
    ∃ m, g.successors blocks = .ok m := by
  refine (exists_foldlM (I := fun _ _ => True) trivial fun done b rest m hsplit _ => ?_).imp
    fun _ h => h.1
  obtain ⟨x, hx⟩ := exists_node_of_lt (h b (by simp [hsplit]))
  obtain ⟨ss, hss⟩ := g.exists_sources x.operands
  rw [bind_of_ok (node_eq_ok_iff.mpr hx), bind_of_ok hss]
  exact ⟨_, rfl, trivial⟩

end Graph

/-! ### Searches -/

namespace BitSet

/-- A path of successors leads from a root to `n`. -/
def Reaches (next : Nat → List Nat) (roots : List Nat) (n : Nat) : Prop :=
  ∃ root ∈ roots, Relation.ReflTransGen (fun a b => b ∈ next a) root n

/-- The number was reached or is still to be looked at. -/
def Search.Seen (t : Search) (n : Nat) : Prop := t.reached.contains n = true ∨ n ∈ t.frontier

/-- What holds between two steps of a search. -/
structure Search.Sound (next : Nat → List Nat) (roots : List Nat) (t : Search) : Prop where
  reaches : ∀ n, t.Seen n → Reaches next roots n
  roots : ∀ n ∈ roots, t.Seen n
  closed : ∀ n, t.reached.contains n = true → ∀ m ∈ next n, t.Seen m

theorem Search.Sound.step {next : Nat → List Nat} {roots : List Nat} {t u : Search}
    (h : t.Sound next roots) (hstep : t.step next = .inl u) : u.Sound next roots := by
  obtain ⟨reached, frontier⟩ := t
  unfold Search.step at hstep
  split at hstep
  next => cases hstep
  next k rest hfrontier =>
    obtain rfl : frontier = k :: rest := hfrontier
    split at hstep
    next hk =>
      cases hstep
      have hkeep : ∀ m, Seen ⟨reached, k :: rest⟩ m → Seen ⟨reached, rest⟩ m := by
        rintro m (hm | hm)
        · exact .inl hm
        · rcases List.mem_cons.mp hm with rfl | hm
          · exact .inl hk
          · exact .inr hm
      exact
        { reaches := fun m hm => h.reaches m (hm.imp id (List.mem_cons_of_mem _))
          roots := fun m hm => hkeep m (h.roots m hm)
          closed := fun m hm i hi => hkeep i (h.closed m hm i hi) }
    next =>
      split at hstep
      next => cases hstep
      next grown fresh hins =>
        cases hstep
        have hcontains : ∀ m, grown.contains m = true ↔ m = k ∨ reached.contains m = true := by
          intro m
          rw [(insert_eq_ok hins).2.2.2, Bool.or_eq_true, decide_eq_true_iff]
        have hkeep : ∀ m, Seen ⟨reached, k :: rest⟩ m → Seen ⟨grown, next k ++ rest⟩ m := by
          rintro m (hm | hm)
          · exact .inl ((hcontains m).mpr (.inr hm))
          · rcases List.mem_cons.mp hm with hm | hm
            · exact .inl ((hcontains m).mpr (.inl hm))
            · exact .inr (List.mem_append_right _ hm)
        refine
          { reaches := fun m hm => ?_
            roots := fun m hm => hkeep m (h.roots m hm)
            closed := fun m hm i hi => ?_ }
        · have hk : Reaches next roots k := h.reaches k (.inr List.mem_cons_self)
          rcases hm with hm | hm
          · rcases (hcontains m).mp hm with rfl | hm
            · exact hk
            · exact h.reaches m (.inl hm)
          · rcases List.mem_append.mp hm with hm | hm
            · obtain ⟨root, hroot, hpath⟩ := hk
              exact ⟨root, hroot, hpath.tail hm⟩
            · exact h.reaches m (.inr (List.mem_cons_of_mem _ hm))
        · rcases (hcontains m).mp hm with rfl | hm
          · exact .inr (List.mem_append_left _ hi)
          · exact hkeep i (h.closed m hm i hi)

/-- A search that ends has reached exactly what paths of successors lead to. -/
theorem contains_closure {capacity : Nat} {next : Nat → List Nat} {roots : List Nat}
    {s : BitSet} (h : closure capacity next roots = .ok s) (n : Nat) :
    s.contains n = true ↔ Reaches next roots n := by
  have hend : Search.Sound next roots ⟨s, []⟩ := by
    unfold closure at h
    refine iterate_preserves (I := Search.Sound next roots)
      (P := fun r : Except Error BitSet => r = .ok s → Search.Sound next roots ⟨s, []⟩)
      (fun t u ht hstep => ht.step hstep) (fun t r ht hstop hr => ?_) _ ?_ h
    · subst hr
      unfold Search.step at hstop
      split at hstop
      next hfrontier =>
        cases hstop
        rw [← hfrontier]
        exact ht
      next =>
        split at hstop
        next => cases hstop
        next => split at hstop <;> cases hstop
    · exact
        { reaches := fun m hm => ⟨m, by simpa [Search.Seen] using hm, .refl⟩
          roots := fun m hm => .inr hm
          closed := fun m hm => by simp at hm }
  constructor
  · intro hn
    exact hend.reaches n (.inl hn)
  · rintro ⟨root, hroot, hpath⟩
    induction hpath with
    | refl => exact (hend.roots root hroot).resolve_right List.not_mem_nil
    | tail _ hm ih => exact (hend.closed _ ih _ hm).resolve_right List.not_mem_nil

/-- A search among numbers below the capacity ends. -/
theorem exists_closure {capacity : Nat} {next : Nat → List Nat} {roots : List Nat}
    (hroots : ∀ n ∈ roots, n < capacity) (hnext : ∀ n, ∀ m ∈ next n, m < capacity) :
    ∃ s, closure capacity next roots = .ok s := by
  unfold closure
  refine iterate_preserves
    (I := fun t : Search => t.reached.capacity = capacity ∧ ∀ n ∈ t.frontier, n < capacity)
    (P := fun r : Except Error BitSet => ∃ s, r = .ok s) ?_ ?_ _ ⟨rfl, hroots⟩
  · rintro ⟨reached, frontier⟩ u ⟨hcap, hfront⟩ hstep
    unfold Search.step at hstep
    split at hstep
    next => cases hstep
    next k rest hfrontier =>
      obtain rfl : frontier = k :: rest := hfrontier
      have hrest : ∀ n ∈ rest, n < capacity := fun n hn => hfront n (List.mem_cons_of_mem k hn)
      split at hstep
      next =>
        cases hstep
        exact ⟨hcap, hrest⟩
      next =>
        split at hstep
        next => cases hstep
        next grown fresh hins =>
          cases hstep
          refine ⟨(insert_eq_ok hins).2.1.trans hcap, fun n hn => ?_⟩
          rcases List.mem_append.mp hn with hn | hn
          · exact hnext k n hn
          · exact hrest n hn
  · rintro ⟨reached, frontier⟩ r ⟨hcap, hfront⟩ hstop
    unfold Search.step at hstop
    split at hstop
    next => exact ⟨_, (Sum.inr.inj hstop).symm⟩
    next k rest hfrontier =>
      obtain rfl : frontier = k :: rest := hfrontier
      split at hstop
      next => cases hstop
      next =>
        have hk : k < reached.capacity := hcap ▸ hfront k List.mem_cons_self
        obtain ⟨t, ht⟩ := insert_of_lt hk
        rw [ht] at hstop
        cases hstop

end BitSet

/-- Control reaches the blocks that a path of edges in use leads to from the entry. -/
theorem Graph.contains_reachableBlocks {g : Graph} {blocks : List NodeId} {s : BitSet}
    (h : g.reachableBlocks blocks = .ok s) (b : NodeId) :
    s.contains b = true ↔ Relation.ReflTransGen (g.Follows blocks) Anchor.startBlock b := by
  obtain ⟨next, hnext, h⟩ := bind_eq_ok.mp h
  have hrel : (fun a b => b ∈ next.filed a) = g.Follows blocks := by
    funext a b
    exact propext (mem_successors hnext)
  rw [BitSet.contains_closure h, BitSet.Reaches, hrel]
  simp

theorem Graph.exists_reachableBlocks {g : Graph} {blocks : List NodeId}
    (hstart : Anchor.startBlock < g.size) (h : ∀ b ∈ blocks, b < g.size) :
    ∃ s, g.reachableBlocks blocks = .ok s := by
  obtain ⟨next, hnext⟩ := exists_successors h
  refine exists_bind hnext (BitSet.exists_closure (by simpa using hstart) fun s t ht => ?_)
  exact h t ((mem_successors hnext).mp ht).1

end SeaOfNodes
