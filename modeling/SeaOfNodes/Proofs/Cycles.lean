import SeaOfNodes.Proofs.Edits
import SeaOfNodes.Proofs.Liveness

/-!
When the dependency walk fails.

The only failure is a *knot*: a cycle of dependencies without a phi or block that an anchor needs.
A walk that ends has listed the nodes of such a cycle in an order that no cycle has, and a walk that
fails has the cycle on its stack, since each visit in progress needs the next one inwards
(`Walk.run_eq_error_iff`).
-/

namespace SeaOfNodes

namespace Graph

/-- `n` depends on `m`, which is in use and no place where cycles are legal. -/
def Binds (g : Graph) (n m : NodeId) : Prop :=
  g.Needs n m ∧ ∃ y, g.nodes[m]? = some y ∧ y.op.isLoopBreaker = false

/-- An anchor needs a node that depends on itself through nodes that are neither phis nor blocks. -/
def Knotted (g : Graph) : Prop := ∃ n, g.Live n ∧ Relation.TransGen g.Binds n n

end Graph

/-- A list without repetition that puts `a` before `b` does not put `b` before `a`. -/
theorem Precedes.idxOf_lt {l : List NodeId} {a b : NodeId} (hl : l.Nodup) (h : Precedes l a b) :
    l.idxOf a < l.idxOf b := by
  obtain ⟨A, B, rfl, ha⟩ := h
  have hb : b ∉ A := fun hmem =>
    (List.nodup_append.mp hl).2.2 b hmem b List.mem_cons_self rfl
  have hlt : (A ++ b :: B).idxOf a < A.length := by
    rw [List.idxOf_append_of_mem ha]
    exact List.idxOf_lt_length_of_mem ha
  have heq : (A ++ b :: B).idxOf b = A.length := by
    rw [List.idxOf_append_of_notMem hb, List.idxOf_cons_self, Nat.add_zero]
  omega

namespace Walk

variable {g : Graph} {w : Walk}

/-- What a node binds is listed before it. -/
theorem Complete.binds (h : Complete g w) {n m : NodeId} (hn : g.Live n) (hb : g.Binds n m) :
    g.Live m ∧ w.order.idxOf m < w.order.idxOf n := by
  obtain ⟨hneed, y, hy, hop⟩ := hb
  have hbefore := h.before n ((h.mem_order n).mpr hn) m y hneed hy hop
  exact ⟨hn.needs hneed, hbefore.idxOf_lt h.nodup⟩

/-- A walk that ends has met no knot. -/
theorem Complete.not_knotted (h : Complete g w) : ¬ g.Knotted := by
  rintro ⟨n, hn, hcycle⟩
  have hdown : ∀ m, Relation.TransGen g.Binds n m →
      g.Live m ∧ w.order.idxOf m < w.order.idxOf n := by
    intro m hpath
    induction hpath with
    | single hb => exact h.binds hn hb
    | tail _ hb ih =>
      obtain ⟨hlive, hlt⟩ := h.binds ih.1 hb
      exact ⟨hlive, Nat.lt_trans hlt ih.2⟩
  exact Nat.lt_irrefl _ (hdown n hcycle).2

/-! ### The stack is a path -/

/-- Each visit in progress is for a node that the visit around it needs. -/
def Linked (g : Graph) : List Frame → Prop
  | [] => True
  | [_] => True
  | f :: f' :: below => g.Needs f'.node f.node ∧ Linked g (f' :: below)

theorem Linked.tail {f : Frame} {below : List Frame} (h : Linked g (f :: below)) :
    Linked g below := by
  cases below with
  | nil => trivial
  | cons f' below => exact h.2

/-- What a visit still has to look at makes no difference. -/
theorem Linked.advance {f : Frame} {below : List Frame} (h : Linked g (f :: below))
    (rest : List NodeId) : Linked g ({ f with rest } :: below) := by
  cases below with
  | nil => trivial
  | cons f' below => exact h

/-- Steps keep the visits linked. -/
theorem Linked.step {s t : State} (h : Linked g s.stack) (hs : Sound g s) (hst : Step g s t) :
    Linked g t.stack := by
  cases hst with
  | leaveBreaker => exact h.tail
  | leaveAgain => exact h.tail
  | leave => exact h.tail
  | dangle => exact h.advance _
  | skip => exact h.advance _
  | enterBreaker hrest hx hret =>
    exact ⟨⟨hs.nested.1.mem_inputs hrest, Graph.isRetired_eq_false.mpr ⟨_, hx, by
      simpa [Node.isRetired] using hret⟩⟩, h.advance _⟩
  | enter hrest hx hret =>
    exact ⟨⟨hs.nested.1.mem_inputs hrest, Graph.isRetired_eq_false.mpr ⟨_, hx, by
      simpa [Node.isRetired] using hret⟩⟩, h.advance _⟩

/-- The visits since the last breaker lead inwards along nodes that bind each other. -/
theorem Linked.binds {f : Frame} {below : List Frame} (h : Linked g (f :: below))
    (hkind : ∀ e ∈ f :: below, ∃ x, g.nodes[e.node]? = some x ∧ e.breaker = x.op.isLoopBreaker)
    {e : Frame} (he : e ∈ (f :: below).takeWhile fun e => !e.breaker) :
    Relation.ReflTransGen g.Binds e.node f.node := by
  induction below generalizing f with
  | nil =>
    have hmem := List.takeWhile_subset _ he
    rw [List.mem_singleton.mp hmem]
  | cons f' below ih =>
    rw [List.takeWhile_cons] at he
    split at he
    next hf =>
      rcases List.mem_cons.mp he with rfl | he
      · exact .refl
      · obtain ⟨x, hx, hbreaker⟩ := hkind f List.mem_cons_self
        refine (ih h.2 (fun e he => hkind e (List.mem_cons_of_mem _ he)) he).tail ⟨h.1, x, hx, ?_⟩
        rw [← hbreaker]
        simpa using hf
    next => cases he

/-- Reaching a node that was entered after the last breaker closes a knot. -/
theorem Linked.knotted {f : Frame} {below : List Frame} {i : NodeId} (h : Linked g (f :: below))
    (hkind : ∀ e ∈ f :: below, ∃ x, g.nodes[e.node]? = some x ∧ e.breaker = x.op.isLoopBreaker)
    (hlive : g.Live f.node) (hi : g.Needs f.node i)
    (hclose : closesCycle (f :: below) i = true) : g.Knotted := by
  obtain ⟨e, he, hnode⟩ := List.any_eq_true.mp hclose
  obtain rfl : e.node = i := by simpa using hnode
  obtain ⟨x, hx, hbreaker⟩ := hkind e (List.takeWhile_subset _ he)
  have hfree : e.breaker = false := by
    simpa using List.all_eq_true.mp (List.all_takeWhile (p := fun e : Frame => !e.breaker)) e he
  refine ⟨e.node, hlive.needs hi, .tail' (h.binds hkind he) ⟨hi, x, hx, ?_⟩⟩
  rw [← hbreaker, hfree]

/-! ### The walk fails only at a knot -/

theorem insert_ne_error {s : BitSet} {i : Nat} {e : Error} (hi : i < s.capacity) :
    s.insert i ≠ .error e := by
  obtain ⟨t, ht⟩ := BitSet.insert_of_lt hi
  simp [ht]

theorem enter_ne_error {s : State} {n : NodeId} {x : Node} {e : Error}
    (hn : n < s.walk.live.capacity) : enter s n x ≠ .error e := by
  unfold Walk.enter
  split
  · split
    next e' hins => exact absurd hins (insert_ne_error hn)
    next => simp
  · simp

/-- A step that fails has found a knot. -/
theorem knotted_of_step {s : State} {e : Error} (hs : Sound g s) (hl : Linked g s.stack)
    (h : step g s = .inr (.error e)) : (∃ m, e = .malformed m) ∧ g.Knotted := by
  obtain ⟨w, stack⟩ := s
  cases stack with
  | nil => cases h
  | cons f below =>
    have hkind : ∀ e ∈ f :: below,
        ∃ x, g.nodes[e.node]? = some x ∧ e.breaker = x.op.isLoopBreaker := by
      intro e he
      obtain ⟨inner, hv⟩ := hs.nested.mem he
      exact hv.kind
    have hcap : ∀ n x, g.nodes[n]? = some x → n < w.live.capacity := fun n x hx =>
      hs.capacity ▸ Graph.lt_size_of_getElem? hx
    simp only [Walk.step] at h
    split at h
    next hrest =>
      obtain ⟨x, hx, -⟩ := hkind f List.mem_cons_self
      unfold Walk.leave at h
      split at h
      · cases h
      · split at h
        · cases h
        · split at h
          next hins => exact absurd hins (insert_ne_error (hcap _ x hx))
          next => cases h
    next i rest hrest =>
      have hmem : i ∈ g.inputs f.node := hs.nested.1.mem_inputs hrest
      simp only [look] at h
      split at h
      next => cases h
      next x hx =>
        split at h
        next => cases h
        next hret =>
          split at h
          next => cases h
          next =>
            split at h
            next hclose =>
              cases h
              have hused : g.isRetired i = false :=
                Graph.isRetired_eq_false.mpr ⟨x, hx, by simpa [Node.isRetired] using hret⟩
              exact ⟨⟨_, rfl⟩, (hl.advance rest).knotted
                (fun e he => (List.mem_cons.mp he).elim
                  (fun heq => heq ▸ hkind f List.mem_cons_self)
                  fun he => hkind e (List.mem_cons_of_mem _ he))
                hs.nested.1.live ⟨hmem, hused⟩ hclose⟩
            next =>
              cases henter : Walk.enter ⟨w, { f with rest } :: below⟩ i x with
              | ok t => simp [henter, resume] at h
              | error e' => exact absurd henter (enter_ne_error (hcap i x hx))

theorem knotted_of_visitFrom {root : NodeId} {e : Error} (hw : Sound g ⟨w, []⟩)
    (hroot : root ∈ [Anchor.stop, Anchor.start, Anchor.bad]) (hlt : root < g.size)
    (h : visitFrom g w root = .error e) : (∃ m, e = .malformed m) ∧ g.Knotted := by
  obtain ⟨x, hx⟩ := Graph.exists_node_of_lt hlt
  unfold visitFrom at h
  split at h
  next => cases h
  next hnew =>
    simp only [Graph.node_eq_ok_iff.mpr hx, bind, Except.bind] at h
    split at h
    next e' henter => exact absurd henter (enter_ne_error (hw.capacity ▸ hlt))
    next s henter =>
      obtain ⟨hs, -⟩ := hw.enter hx ⟨root, hroot, .refl⟩ (by simpa using hnew) henter
      have hlinked : Linked g s.stack := by
        unfold Walk.enter at henter
        split at henter
        · split at henter
          · cases henter
          · cases henter
            trivial
        · cases henter
          trivial
      refine iterate_preserves (I := fun s => Sound g s ∧ Linked g s.stack)
        (P := fun r => r = Except.error e → (∃ m, e = .malformed m) ∧ g.Knotted)
        (fun s t hinv hst => ?_) (fun s r hinv hst hr => ?_) s ⟨hs, hlinked⟩ h
      · exact ⟨hinv.1.step (.of_step hst), hinv.2.step hinv.1 (.of_step hst)⟩
      · subst hr
        exact knotted_of_step hinv.1 hinv.2 hst

/-- A walk that fails has found a knot. -/
theorem knotted_of_run {e : Error} (hsize : Anchor.bad < g.size) (h : run g = .error e) :
    (∃ m, e = .malformed m) ∧ g.Knotted := by
  simp only [run, List.foldlM_cons, List.foldlM_nil, bind, Except.bind] at h
  split at h
  next e₁ h₁ =>
    cases h
    exact knotted_of_visitFrom (Sound.begin g) (by simp) (Nat.lt_of_le_of_lt (by decide) hsize) h₁
  next w₁ h₁ =>
    obtain ⟨hs₁, -⟩ := visitFrom_eq_ok (Sound.begin g) (by simp) h₁
    split at h
    next e₂ h₂ =>
      cases h
      exact knotted_of_visitFrom hs₁ (by simp) (Nat.lt_of_le_of_lt (by decide) hsize) h₂
    next w₂ h₂ =>
      obtain ⟨hs₂, -⟩ := visitFrom_eq_ok hs₁ (by simp) h₂
      split at h
      next e₃ h₃ =>
        cases h
        exact knotted_of_visitFrom hs₂ (by simp) hsize h₃
      next => cases h

/-- The walk fails at a knot and nowhere else. -/
theorem run_eq_error_iff (hsize : Anchor.bad < g.size) :
    (∃ m, run g = .error (.malformed m)) ↔ g.Knotted := by
  constructor
  · rintro ⟨m, h⟩
    exact (knotted_of_run hsize h).2
  · intro hknot
    cases h : run g with
    | ok w => exact absurd hknot (complete_of_run h).not_knotted
    | error e =>
      obtain ⟨m, rfl⟩ := (knotted_of_run hsize h).1
      exact ⟨m, rfl⟩

/-- Without a knot the walk ends. -/
theorem exists_run (hsize : Anchor.bad < g.size) (hknot : ¬ g.Knotted) :
    ∃ w, run g = .ok w := by
  cases h : run g with
  | ok w => exact ⟨w, rfl⟩
  | error e => exact absurd (knotted_of_run hsize h).2 hknot

end Walk

end SeaOfNodes
