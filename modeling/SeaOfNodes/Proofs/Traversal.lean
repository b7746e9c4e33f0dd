import Mathlib.Algebra.BigOperators.Group.Finset.Basic
import Mathlib.Algebra.Order.BigOperators.Group.Finset
import Mathlib.Data.List.Count
import Mathlib.Order.Bounds.Defs
import SeaOfNodes.Proofs.Ascent

/-!
The dependency walk as a whole: what it answers, and how much it does for that.

The answer is settled by the graph (`Walk.run_exact`): a knot is reported, and without a knot the
walk lists the least set of nodes that holds the anchors and what its members depend on.

The work is bounded (`Walk.entries_bounded`). A phi or block is live from the moment it is entered,
so it is entered once. Any other node may be entered again while it is unfinished, but then a phi
or block was entered in between, and those that are open are all different. So no node is entered
more often than there are phis and blocks, and once more; each entry pays for the turns of the loop
that look at the inputs of the node and end its visit.
-/

namespace SeaOfNodes

theorem Op.isLoopBreaker_iff (op : Op) : op.isLoopBreaker = true ↔ op = .phi ∨ op = .block := by
  unfold Op.isLoopBreaker Op.traits
  split <;> simp_all

namespace Graph

/-- The phis and blocks. -/
def breakers (g : Graph) : List NodeId :=
  (List.range g.size).filter fun n =>
    match g.nodes[n]? with
    | some x => x.op = .phi ∨ x.op = .block
    | none => false

theorem mem_breakers {g : Graph} {n : NodeId} :
    n ∈ g.breakers ↔ ∃ x, g.nodes[n]? = some x ∧ x.op.isLoopBreaker = true := by
  unfold breakers
  rw [List.mem_filter]
  cases hx : g.nodes[n]? with
  | none => simp
  | some x =>
    have hlt : n < g.size := lt_size_of_getElem? hx
    simp [Op.isLoopBreaker_iff, hlt]

theorem not_mem_breakers {g : Graph} {n : NodeId} {x : Node} (hx : g.nodes[n]? = some x) :
    n ∉ g.breakers ↔ x.op.isLoopBreaker = false := by
  rw [mem_breakers, hx]
  simp

/-- A set of nodes that holds the anchors, and with a node what it depends on and is in use. -/
structure Supplied (g : Graph) (s : Set NodeId) : Prop where
  anchor : ∀ n ∈ [Anchor.stop, Anchor.start, Anchor.bad], n ∈ s
  input : ∀ n ∈ s, ∀ i ∈ g.inputs n, g.isRetired i = false → i ∈ s

/-- The live nodes are the least set of this kind. -/
theorem isLeast_live (g : Graph) : IsLeast {s | g.Supplied s} {n | g.Live n} := by
  constructor
  · exact ⟨fun n hn => ⟨n, hn, .refl⟩, fun n hn i hi hused => Live.needs hn ⟨hi, hused⟩⟩
  · rintro s hs n ⟨root, hroot, hpath⟩
    induction hpath with
    | refl => exact hs.anchor root hroot
    | tail _ hneed ih => exact hs.input _ ih _ hneed.1 hneed.2

end Graph

namespace Walk

/-- The walk reports a knot, and nothing else goes wrong. Without a knot it finds the least set that
holds the anchors and what its members depend on, lists it without repetition, a node after those of
its inputs that are no phis or blocks, and notes the edges that lead nowhere. -/
theorem run_exact {g : Graph} (hg : g.Built) :
    ((∃ m, run g = .error (.malformed m)) ↔ g.Knotted) ∧
      (¬ g.Knotted → ∃ w, run g = .ok w ∧
        IsLeast {s | g.Supplied s} {n | w.live.contains n = true} ∧
        w.order.Nodup ∧ (∀ n, n ∈ w.order ↔ w.live.contains n = true) ∧
        (∀ n ∈ w.order, ∀ i ∈ g.inputs n, g.isRetired i = false → i ∉ g.breakers →
          w.order.idxOf i < w.order.idxOf n) ∧
        ∀ u t, (u, t) ∈ w.dangling ↔
          w.live.contains u = true ∧ t ∈ g.inputs u ∧ g.isRetired t = true) := by
  refine ⟨run_eq_error_iff hg.bad_lt_size, fun hknot => ?_⟩
  obtain ⟨w, hw⟩ := exists_run hg.bad_lt_size hknot
  have hc := complete_of_run hw
  have hlive : {n | w.live.contains n = true} = {n | g.Live n} := Set.ext hc.contains_iff
  refine ⟨w, hw, hlive ▸ g.isLeast_live, hc.nodup, fun n => ?_, fun n hn i hi hused hfree => ?_,
    fun u t => ?_⟩
  · rw [hc.mem_order, hc.contains_iff]
  · obtain ⟨x, hx, -⟩ := Graph.isRetired_eq_false.mp hused
    have hop := (Graph.not_mem_breakers hx).mp hfree
    exact (hc.before n hn i x ⟨hi, hused⟩ hx hop).idxOf_lt hc.nodup
  · rw [hc.mem_dangling, hc.contains_iff]

/-- A negation that is needed again below a phi, an edge to a retired node and one to no node. -/
def looseLoop : List Edit :=
  [.addNode (.const (.bool true)) .bool (some Anchor.startBlock) [],
    .addNode .phi .bool (some Anchor.startBlock) [5],
    .addNode .not .bool (some Anchor.startBlock) [6],
    .addOperand 6 7,
    .addNode .jump .control (some 99) [],
    .keepAlive 7,
    .keepAlive 8,
    .kill 5]

/-- A negation of itself. -/
def selfNegation : List Edit :=
  [.addNode .not .bool (some Anchor.startBlock) [Anchor.bad],
    .setOperand 5 0 5,
    .keepAlive 5]

theorem run_exact_looseLoop :
    (∃ g w, looseLoop.foldlM Graph.apply (.new "f" 0) = .ok g ∧ g.Built ∧ ¬ g.Knotted ∧
      run g = .ok w ∧ IsLeast {s | g.Supplied s} {n | w.live.contains n = true} ∧
      ∀ u t, (u, t) ∈ w.dangling ↔
        w.live.contains u = true ∧ t ∈ g.inputs u ∧ g.isRetired t = true) ∧
    ∃ g, selfNegation.foldlM Graph.apply (.new "f" 0) = .ok g ∧ g.Built ∧ g.Knotted := by
  constructor
  · have hok : (looseLoop.foldlM Graph.apply (.new "f" 0) >>= run).isOk = true := by decide +kernel
    obtain ⟨w, hw⟩ := exists_of_isOk hok
    obtain ⟨g, hg, hw⟩ := bind_eq_ok.mp hw
    have hbuilt : g.Built := (Graph.Built.new "f" 0).foldlM hg
    obtain ⟨hmalformed, hexact⟩ := run_exact hbuilt
    have hknot : ¬ g.Knotted := by
      intro hknot
      obtain ⟨m, hm⟩ := hmalformed.mpr hknot
      cases hm.symm.trans hw
    obtain ⟨w', hw', hleast, -, -, -, hdangling⟩ := hexact hknot
    cases hw'.symm.trans hw
    exact ⟨g, w, hg, hbuilt, hknot, hw, hleast, hdangling⟩
  · have hok : (selfNegation.foldlM Graph.apply (.new "f" 0)).isOk = true := by decide +kernel
    have hfail : (selfNegation.foldlM Graph.apply (.new "f" 0) >>= run).isOk = false := by
      decide +kernel
    obtain ⟨g, hg⟩ := exists_of_isOk hok
    rw [bind_of_ok hg] at hfail
    obtain ⟨e, he⟩ := exists_of_not_isOk hfail
    have hbuilt : g.Built := (Graph.Built.new "f" 0).foldlM hg
    by_cases hknot : g.Knotted
    · exact ⟨g, hg, hbuilt, hknot⟩
    · obtain ⟨w, hw, -⟩ := (run_exact hbuilt).2 hknot
      cases hw.symm.trans he

/-! ### What a walk spends -/

/-- What a walk has done so far: the visits it has begun, in order, and the turns of its loop. -/
structure Tally where
  entered : List NodeId := []
  turns : Nat := 0

/-- The nodes whose visits begin on the way from `s` to `t`: a visit is put on top of the stack. -/
def begun (s t : State) : List NodeId :=
  (t.stack.take (t.stack.length - s.stack.length)).map Frame.node

def Tally.turn (l : Tally) (s t : State) : Tally :=
  { entered := l.entered ++ begun s t, turns := l.turns + 1 }

/-- One step of the walk, with its tally. The test that finds no visit left is no turn. -/
def tallyStep (g : Graph) (p : State × Tally) : (State × Tally) ⊕ (Except Error Walk × Tally) :=
  match step g p.1 with
  | .inl t => .inl (t, p.2.turn p.1 t)
  | .inr r => .inr (r, { p.2 with turns := p.2.turns + if p.1.stack.isEmpty then 0 else 1 })

theorem tallyStep_eq_inl {g : Graph} {p q : State × Tally} (h : tallyStep g p = .inl q) :
    step g p.1 = .inl q.1 ∧ q.2 = p.2.turn p.1 q.1 := by
  unfold tallyStep at h
  split at h
  next t ht =>
    cases h
    exact ⟨ht, rfl⟩
  next => cases h

theorem tallyStep_eq_inr {g : Graph} {p : State × Tally} {r : Except Error Walk × Tally}
    (h : tallyStep g p = .inr r) :
    step g p.1 = .inr r.1 ∧ r.2.entered = p.2.entered ∧
      r.2.turns = p.2.turns + if p.1.stack.isEmpty then 0 else 1 := by
  unfold tallyStep at h
  split at h
  next => cases h
  next r' hr =>
    cases h
    exact ⟨hr, rfl, rfl⟩

/-- A walk from one root, with its tally. -/
def tallyFrom (g : Graph) (w : Walk) (l : Tally) (root : NodeId) : Except Error Walk × Tally :=
  if w.live.contains root then (.ok w, l)
  else
    match g.node root >>= enter { walk := w, stack := [] } root with
    | .error e => (.error e, l)
    | .ok s =>
      iterate (tallyStep g) (fun p => rank g p.1)
        (fun _ _ h => (Step.of_step (tallyStep_eq_inl h).1).rank_down)
        (s, { l with entered := l.entered ++ begun ⟨w, []⟩ s })

def tallyAll (g : Graph) : List NodeId → Walk → Tally → Except Error Walk × Tally
  | [], w, l => (.ok w, l)
  | root :: roots, w, l =>
    match tallyFrom g w l root with
    | (.error e, l) => (.error e, l)
    | (.ok w, l) => tallyAll g roots w l

/-- The walk of a graph, with its tally. -/
def tally (g : Graph) : Except Error Walk × Tally :=
  tallyAll g [Anchor.stop, Anchor.start, Anchor.bad] (begin g) {}

theorem tallyFrom_fst (g : Graph) (w : Walk) (l : Tally) (root : NodeId) :
    (tallyFrom g w l root).1 = visitFrom g w root := by
  unfold tallyFrom visitFrom
  split
  next => rfl
  next =>
    cases hnode : g.node root with
    | error e => rfl
    | ok x =>
      cases henter : enter { walk := w, stack := [] } root x with
      | error e => simp [bind, Except.bind, henter]
      | ok s =>
        simp only [bind, Except.bind, henter]
        -- What is still to be answered stays the same from step to step.
        let rest (s : State) :=
          iterate (step g) (rank g) (fun _ _ h => (Step.of_step h).rank_down) s
        refine iterate_preserves (I := fun p : State × Tally => rest p.1 = rest s)
          (P := fun r : Except Error Walk × Tally => r.1 = rest s)
          (fun p q hp hstep => ?_) (fun p r hp hstep => ?_) _ rfl
        · exact (iterate_of_inl (tallyStep_eq_inl hstep).1).symm.trans hp
        · exact (iterate_of_inr (tallyStep_eq_inr hstep).1).symm.trans hp

/-- Keeping a tally changes nothing. -/
theorem tally_fst (g : Graph) : (tally g).1 = run g := by
  have hall : ∀ roots w l, (tallyAll g roots w l).1 = roots.foldlM (visitFrom g) w := by
    intro roots
    induction roots with
    | nil => intro w l; rfl
    | cons root roots ih =>
      intro w l
      have hfrom := tallyFrom_fst g w l root
      rw [List.foldlM_cons, ← hfrom]
      unfold tallyAll
      split
      next e l' h => rw [h]; rfl
      next w' l' h => rw [h]; exact ih w' l'
  exact hall _ _ _

/-! ### Repeated visits are spaced by breakers -/

/-- Since the visit of a node that is no breaker began, with the visits `below` in progress, no
visit of it was in progress that began after the last breaker. -/
def Spaced : List Frame → Prop
  | [] => True
  | f :: below => (f.breaker = false → closesCycle below f.node = false) ∧ Spaced below

theorem closesCycle_cons (f : Frame) (below : List Frame) (n : NodeId) :
    closesCycle (f :: below) n = (!f.breaker && (f.node == n || closesCycle below n)) := by
  unfold closesCycle
  rw [List.takeWhile_cons]
  cases f.breaker <;> simp

theorem Spaced.advance {f : Frame} {below : List Frame} (h : Spaced (f :: below))
    (rest : List NodeId) : Spaced ({ f with rest } :: below) := h

/-- Visits of one node are no more than the breakers among the visits in progress, and one. -/
theorem Spaced.count_le {stack : List Frame} (h : Spaced stack) {n : NodeId}
    (hn : ∀ f ∈ stack, f.node = n → f.breaker = false) :
    (stack.map Frame.node).count n ≤
      (openNodes stack).length + if closesCycle stack n then 1 else 0 := by
  induction stack with
  | nil => simp
  | cons f below ih =>
    have ih := ih h.2 fun e he => hn e (List.mem_cons_of_mem _ he)
    rw [List.map_cons, List.count_cons, openNodes_cons, closesCycle_cons]
    cases hb : f.breaker with
    | true =>
      have hne : f.node ≠ n := fun heq => by simp [hn f List.mem_cons_self heq] at hb
      have hle : (if closesCycle below n then 1 else 0) ≤ 1 := by split <;> omega
      simp [hne]
      omega
    | false =>
      by_cases heq : f.node = n
      · have hfresh := h.1 hb
        rw [heq] at hfresh
        simp [heq, hfresh] at ih ⊢
        exact ih
      · simpa [heq] using ih

/-! ### The books are kept -/

/-- How often a node may be entered. -/
def allowance (g : Graph) (n : NodeId) : Nat := if n ∈ g.breakers then 1 else g.breakers.length + 1

/-- The turns that an entry of `n` pays for: one for each input, one to end the visit. -/
def price (g : Graph) (n : NodeId) : Nat := (g.inputs n).length + 1

/-- What holds between a walk in progress and its tally. -/
structure Accounted (g : Graph) (s : State) (l : Tally) : Prop where
  sound : Sound g s
  spaced : Spaced s.stack
  /-- As long as a node is not live, every visit of it is still in progress. -/
  pending : ∀ n, s.walk.live.contains n = false →
    l.entered.count n = (s.stack.map Frame.node).count n
  recorded : ∀ n, Begun s n → n ∈ l.entered
  allowed : ∀ n, l.entered.count n ≤ allowance g n
  inside : ∀ n ∈ l.entered, n < g.size
  paid : l.turns + pendingInputs s = (l.entered.map (price g)).sum

/-- The breakers among the visits in progress are all different. -/
theorem Sound.length_openNodes_le {g : Graph} {s : State} (h : Sound g s) :
    (openNodes s.stack).length ≤ g.breakers.length := by
  have hnodup := (List.nodup_append.mp h.nodup).2.1
  refine (List.subperm_of_subset hnodup fun n hn => ?_).length_le
  obtain ⟨f, hf, hb, rfl⟩ := mem_openNodes.mp hn
  obtain ⟨inner, hvisit⟩ := h.nested.mem hf
  obtain ⟨x, hx, hkind⟩ := hvisit.kind
  exact Graph.mem_breakers.mpr ⟨x, hx, hkind ▸ hb⟩

/-- A visit begins. -/
theorem Accounted.enter {g : Graph} {s t : State} {l : Tally} {i : NodeId} {x : Node} {turns : Nat}
    (h : Accounted g s l) (ht : Sound g t) (hx : g.nodes[i]? = some x)
    (hi : s.walk.live.contains i = false) (hspaced : Spaced t.stack)
    (hstack : t.stack.map Frame.node = i :: s.stack.map Frame.node)
    (hlive : ∀ n, n ≠ i → t.walk.live.contains n = s.walk.live.contains n)
    (hpaid : turns + pendingInputs t = l.turns + pendingInputs s + price g i) :
    Accounted g t { entered := l.entered ++ [i], turns } where
  sound := ht
  spaced := hspaced
  pending n hn := by
    have hs : s.walk.live.contains n = false := by
      by_cases hne : n = i
      · rw [hne]
        exact hi
      · exact (hlive n hne).symm.trans hn
    rw [hstack, List.count_append, h.pending n hs, List.count_cons, List.count_cons,
      List.count_nil, Nat.zero_add]
  recorded n hn := by
    by_cases hne : n = i
    · exact List.mem_append_right _ (List.mem_singleton.mpr hne)
    · refine List.mem_append_left _ (h.recorded n (hn.imp (fun hn => ?_) fun hn => ?_))
      · exact (hlive n hne).symm.trans hn
      · rw [hstack] at hn
        exact (List.mem_cons.mp hn).resolve_left hne
  allowed n := by
    rw [List.count_append, List.count_singleton]
    by_cases hne : n = i
    · subst hne
      have hentered := h.pending n hi
      rw [beq_self_eq_true, if_pos rfl]
      unfold allowance
      split
      next hbreaker =>
        -- a breaker that is in progress would be live
        have hnone : (s.stack.map Frame.node).count n = 0 := by
          refine List.count_eq_zero_of_not_mem fun hmem => ?_
          obtain ⟨f, hf, rfl⟩ := List.mem_map.mp hmem
          obtain ⟨inner, hvisit⟩ := h.sound.nested.mem hf
          obtain ⟨y, hy, hkind⟩ := hvisit.kind
          obtain ⟨z, hz, hop⟩ := Graph.mem_breakers.mp hbreaker
          cases hy.symm.trans hz
          rw [hvisit.opened (hkind.trans hop)] at hi
          cases hi
        omega
      next hbreaker =>
        have hcount := hspaced.count_le (n := n) fun f hf heq => by
          obtain ⟨inner, hvisit⟩ := ht.nested.mem hf
          obtain ⟨y, hy, hkind⟩ := hvisit.kind
          rw [hkind]
          exact (Graph.not_mem_breakers hy).mp (heq ▸ hbreaker)
        have hle := ht.length_openNodes_le
        have hone : (if closesCycle t.stack n then 1 else 0) ≤ 1 := by split <;> omega
        rw [hstack, List.count_cons_self] at hcount
        omega
    · have := h.allowed n
      simpa [Ne.symm hne] using this
  inside n hn := by
    rcases List.mem_append.mp hn with hn | hn
    · exact h.inside n hn
    · rw [List.mem_singleton.mp hn]
      exact Graph.lt_size_of_getElem? hx
  paid := by
    have := h.paid
    simp only [List.map_append, List.map_cons, List.map_nil, List.sum_append, List.sum_cons,
      List.sum_nil]
    omega

/-- A turn in which no visit begins. -/
theorem Accounted.move {g : Graph} {s t : State} {l : Tally} (h : Accounted g s l)
    (ht : Sound g t) (hspaced : Spaced t.stack)
    (hpending : ∀ n, t.walk.live.contains n = false → s.walk.live.contains n = false ∧
      (t.stack.map Frame.node).count n = (s.stack.map Frame.node).count n)
    (hbegun : ∀ n, Begun t n → Begun s n) (hpaid : pendingInputs t + 1 = pendingInputs s) :
    Accounted g t { l with turns := l.turns + 1 } where
  sound := ht
  spaced := hspaced
  pending n hn := by
    obtain ⟨hlive, hcount⟩ := hpending n hn
    rw [hcount]
    exact h.pending n hlive
  recorded n hn := h.recorded n (hbegun n hn)
  allowed := h.allowed
  inside := h.inside
  paid := by
    have := h.paid
    show l.turns + 1 + pendingInputs t = (l.entered.map (price g)).sum
    omega

/-- A turn keeps the books in order. -/
theorem Accounted.step {g : Graph} {s t : State} {l : Tally} (h : Accounted g s l)
    (hst : Step g s t) : Accounted g t (l.turn s t) := by
  have ht := h.sound.step hst
  cases hst with
  | @leaveBreaker w f below hrest hb =>
    have hnone : begun ⟨w, f :: below⟩ ⟨{ w with order := w.order ++ [f.node] }, below⟩ = [] := by
      simp [begun]
    have hopened := h.sound.nested.1.opened hb
    rw [Tally.turn, hnone, List.append_nil]
    refine h.move ht h.spaced.2 (fun n hn => ⟨hn, ?_⟩)
      (fun n hn => hn.imp_right (List.mem_cons_of_mem _)) ?_
    · have hne : f.node ≠ n := fun heq => by simp [← heq, hopened] at hn
      simp [hne]
    · simp [pendingInputs, hrest]
      omega
  | @leaveAgain w f below hrest hb hl =>
    have hnone : begun ⟨w, f :: below⟩ ⟨w, below⟩ = [] := by simp [begun]
    rw [Tally.turn, hnone, List.append_nil]
    refine h.move ht h.spaced.2 (fun n hn => ⟨hn, ?_⟩)
      (fun n hn => hn.imp_right (List.mem_cons_of_mem _)) ?_
    · have hne : f.node ≠ n := fun heq => by simp [← heq, hl] at hn
      simp [hne]
    · simp [pendingInputs, hrest]
      omega
  | @leave w f below live fresh hrest hb hl hins =>
    have hnone : begun ⟨w, f :: below⟩ ⟨{ w with live, order := w.order ++ [f.node] }, below⟩ =
        [] := by simp [begun]
    have hcontains := (BitSet.insert_eq_ok hins).2.2.2
    rw [Tally.turn, hnone, List.append_nil]
    refine h.move ht h.spaced.2 (fun n hn => ?_) (fun n hn => ?_) ?_
    · have hn : (decide (n = f.node) || w.live.contains n) = false := (hcontains n).symm.trans hn
      have hne : f.node ≠ n := fun heq => by simp [← heq] at hn
      exact ⟨(Bool.or_eq_false_iff.mp hn).2, by simp [hne]⟩
    · rcases hn with hn | hn
      · have hn : (decide (n = f.node) || w.live.contains n) = true := (hcontains n).symm.trans hn
        rcases Bool.or_eq_true_iff.mp hn with hn | hn
        · exact .inr (List.mem_cons.mpr (.inl (of_decide_eq_true hn)))
        · exact .inl hn
      · exact .inr (List.mem_cons_of_mem _ hn)
    · simp [pendingInputs, hrest]
      omega
  | @dangle w f below i rest hrest hret =>
    have hnone : begun ⟨w, f :: below⟩
        ⟨{ w with dangling := w.dangling ++ [(f.node, i)] }, { f with rest } :: below⟩ = [] := by
      simp [begun]
    rw [Tally.turn, hnone, List.append_nil]
    refine h.move ht (h.spaced.advance rest) (fun n hn => ⟨hn, rfl⟩) (fun n hn => hn) ?_
    simp [pendingInputs, hrest]
    omega
  | @skip w f below i rest hrest hret hl =>
    have hnone : begun ⟨w, f :: below⟩ ⟨w, { f with rest } :: below⟩ = [] := by simp [begun]
    rw [Tally.turn, hnone, List.append_nil]
    refine h.move ht (h.spaced.advance rest) (fun n hn => ⟨hn, rfl⟩) (fun n hn => hn) ?_
    simp [pendingInputs, hrest]
    omega
  | @enterBreaker w f below i rest x live fresh hrest hx hret hl hc hb hins =>
    have hcontains := (BitSet.insert_eq_ok hins).2.2.2
    have hone : begun ⟨w, f :: below⟩ ⟨{ w with live },
        { node := i, breaker := true, rest := x.inputs } :: { f with rest } :: below⟩ = [i] := by
      simp [begun]
    rw [Tally.turn, hone]
    refine h.enter ht hx hl ⟨fun hfalse => (by cases hfalse), h.spaced.advance rest⟩ rfl
      (fun n hne => (hcontains n).trans (by simp [hne])) ?_
    simp [pendingInputs, hrest, price, Graph.inputs_eq hx]
    omega
  | @enter w f below i rest x hrest hx hret hl hc hb =>
    have hone : begun ⟨w, f :: below⟩ ⟨w,
        { node := i, breaker := false, rest := x.inputs } :: { f with rest } :: below⟩ = [i] := by
      simp [begun]
    rw [Tally.turn, hone]
    refine h.enter ht hx hl ⟨fun _ => hc, h.spaced.advance rest⟩ rfl (fun n _ => rfl) ?_
    simp [pendingInputs, hrest, price, Graph.inputs_eq hx]
    omega

/-- What a tally shows when the walk has answered. -/
structure Balanced (g : Graph) (l : Tally) : Prop where
  allowed : ∀ n, l.entered.count n ≤ allowance g n
  inside : ∀ n ∈ l.entered, n < g.size
  paid : l.turns ≤ (l.entered.map (price g)).sum

theorem Accounted.balanced {g : Graph} {s : State} {l : Tally} (h : Accounted g s l) :
    Balanced g l :=
  ⟨h.allowed, h.inside, h.paid ▸ Nat.le_add_right _ _⟩

/-- The tally of a walk that has answered; one that has ended has paid for every turn. -/
def Settles (g : Graph) (r : Except Error Walk × Tally) : Prop :=
  Balanced g r.2 ∧ ∀ w, r.1 = .ok w → Accounted g ⟨w, []⟩ r.2

theorem Accounted.settles {g : Graph} {w : Walk} {l : Tally} (h : Accounted g ⟨w, []⟩ l) :
    Settles g (.ok w, l) := by
  refine ⟨h.balanced, fun w' hw' => ?_⟩
  cases hw'
  exact h

/-- The first visit of a walk, or one more, begins. -/
theorem enter_eq_ok {s t : State} {n : NodeId} {x : Node} (h : enter s n x = .ok t) :
    t.stack = { node := n, breaker := x.op.isLoopBreaker, rest := x.inputs } :: s.stack ∧
      ∀ m, m ≠ n → t.walk.live.contains m = s.walk.live.contains m := by
  unfold Walk.enter at h
  split at h
  next =>
    split at h
    next => cases h
    next live fresh hins =>
      cases h
      refine ⟨rfl, fun m hm => ?_⟩
      rw [(BitSet.insert_eq_ok hins).2.2.2 m]
      simp [hm]
  next =>
    cases h
    exact ⟨rfl, fun _ _ => rfl⟩

/-- The walk answers, having paid for the turn in which it failed. -/
theorem Accounted.answer {g : Graph} {p : State × Tally} {r : Except Error Walk × Tally}
    (h : Accounted g p.1 p.2) (hr : tallyStep g p = .inr r) : Settles g r := by
  obtain ⟨hstep, hentered, hturns⟩ := tallyStep_eq_inr hr
  have hpaid := h.paid
  have hpending : (if p.1.stack.isEmpty then 0 else 1) ≤ pendingInputs p.1 := by
    cases hstack : p.1.stack with
    | nil => simp
    | cons f below =>
      simp [pendingInputs, hstack]
      omega
  refine ⟨⟨hentered ▸ h.allowed, hentered ▸ h.inside, ?_⟩, fun w hw => ?_⟩
  · rw [hentered, hturns, ← hpaid]
    exact Nat.add_le_add_left hpending _
  · have hs : p.1 = ⟨w, []⟩ := eq_of_step (hstep.trans (congrArg _ hw))
    rw [hs] at h hturns
    have hl : r.2 = p.2 := by
      obtain ⟨r, entered, turns⟩ := r
      simp only [List.isEmpty_nil, if_true, Nat.add_zero] at hturns
      simp only at hentered hturns
      rw [hentered, hturns]
    rw [hl]
    exact h

/-- A walk from one more root keeps the books in order, whether it ends or fails. -/
theorem Accounted.tallyFrom {g : Graph} {w : Walk} {l : Tally} {root : NodeId}
    (h : Accounted g ⟨w, []⟩ l) (hroot : root ∈ [Anchor.stop, Anchor.start, Anchor.bad]) :
    Settles g (tallyFrom g w l root) := by
  unfold Walk.tallyFrom
  split
  next => exact h.settles
  next hnew =>
    have hnew : w.live.contains root = false := by simpa using hnew
    split
    next e he => exact ⟨h.balanced, fun w' hw' => by cases hw'⟩
    next s hs =>
      obtain ⟨x, hnode, hs⟩ := bind_eq_ok.mp hs
      have hx := Graph.node_eq_ok hnode
      have hsound := (h.sound.enter hx ⟨root, hroot, .refl⟩ hnew hs).1
      obtain ⟨hstack, hlive⟩ := enter_eq_ok hs
      have hone : begun ⟨w, []⟩ s = [root] := by simp [begun, hstack]
      have hbegin : Accounted g s { l with entered := l.entered ++ begun ⟨w, []⟩ s } := by
        rw [hone]
        refine h.enter hsound hx hnew (hstack ▸ ⟨fun _ => rfl, trivial⟩) (by simp [hstack])
          hlive ?_
        simp [pendingInputs, hstack, price, Graph.inputs_eq hx]
      exact iterate_preserves (I := fun p : State × Tally => Accounted g p.1 p.2) (P := Settles g)
        (fun p q hp hstep => (tallyStep_eq_inl hstep).2 ▸
          hp.step (Step.of_step (tallyStep_eq_inl hstep).1))
        (fun p r hp hstep => hp.answer hstep) _ hbegin

theorem Accounted.begin (g : Graph) : Accounted g ⟨begin g, []⟩ {} where
  sound := Sound.begin g
  spaced := trivial
  pending n _ := rfl
  recorded n hn := by simp [Begun, Walk.begin] at hn
  allowed n := Nat.zero_le _
  inside n hn := by cases hn
  paid := rfl

theorem settles_tally (g : Graph) : Settles g (tally g) := by
  have hall : ∀ roots w l, (∀ n ∈ roots, n ∈ [Anchor.stop, Anchor.start, Anchor.bad]) →
      Accounted g ⟨w, []⟩ l → Settles g (tallyAll g roots w l) := by
    intro roots
    induction roots with
    | nil =>
      intro w l _ h
      exact h.settles
    | cons root roots ih =>
      intro w l hroots h
      have hfrom := h.tallyFrom (hroots root List.mem_cons_self)
      unfold tallyAll
      split
      next e l' heq =>
        rw [heq] at hfrom
        exact hfrom
      next w' l' heq =>
        rw [heq] at hfrom
        exact ih w' l' (fun n hn => hroots n (List.mem_cons_of_mem _ hn)) (hfrom.2 w' rfl)
  exact hall _ _ _ (fun _ hn => hn) (Accounted.begin g)

/-- What was entered by a walk that has ended is live. -/
theorem Accounted.mem_entered_iff {g : Graph} {w : Walk} {l : Tally}
    (h : Accounted g ⟨w, []⟩ l) (n : NodeId) : n ∈ l.entered ↔ w.live.contains n = true := by
  refine ⟨fun hn => ?_, fun hn => h.recorded n (.inl hn)⟩
  cases hlive : w.live.contains n with
  | true => rfl
  | false =>
    have hcount := h.pending n hlive
    exact absurd hn (List.count_eq_zero.mp hcount)

/-- What all entries together pay for, if each node is entered as often as it may be. -/
theorem Balanced.turns_le {g : Graph} {l : Tally} (h : Balanced g l) :
    l.turns ≤ ∑ n ∈ Finset.range g.size, allowance g n * price g n := by
  calc l.turns
    _ ≤ (l.entered.map (price g)).sum := h.paid
    _ = ∑ n ∈ l.entered.toFinset, l.entered.count n • price g n :=
      Finset.sum_list_map_count _ _
    _ ≤ ∑ n ∈ l.entered.toFinset, allowance g n * price g n :=
      Finset.sum_le_sum fun n _ => Nat.mul_le_mul_right _ (h.allowed n)
    _ ≤ ∑ n ∈ Finset.range g.size, allowance g n * price g n :=
      Finset.sum_le_sum_of_subset fun n hn =>
        Finset.mem_range.mpr (h.inside n (List.mem_toFinset.mp hn))

/-- On every graph, whether its walk ends or fails: over the whole walk a phi or block is entered at
most once, any other node at most once more than there are phis and blocks, and the loop ends after
as many turns as these entries pay for. A walk that ends has entered the live nodes, and looked at
each input of a node once for each entry. -/
theorem entries_bounded (g : Graph) :
    (tally g).1 = run g ∧
      (∀ n ∈ g.breakers, (tally g).2.entered.count n ≤ 1) ∧
      (∀ n ∉ g.breakers, (tally g).2.entered.count n ≤ g.breakers.length + 1) ∧
      (tally g).2.turns ≤ ∑ n ∈ Finset.range g.size,
        (if n ∈ g.breakers then 1 else g.breakers.length + 1) * ((g.inputs n).length + 1) ∧
      ∀ w, run g = .ok w →
        (∀ n, n ∈ (tally g).2.entered ↔ w.live.contains n = true) ∧
        (tally g).2.turns = ((tally g).2.entered.map fun n => (g.inputs n).length + 1).sum := by
  obtain ⟨hbalanced, hended⟩ := settles_tally g
  refine ⟨tally_fst g, fun n hn => ?_, fun n hn => ?_, hbalanced.turns_le, fun w hw => ?_⟩
  · have := hbalanced.allowed n
    rwa [allowance, if_pos hn] at this
  · have := hbalanced.allowed n
    rwa [allowance, if_neg hn] at this
  · have haccount := hended w ((tally_fst g).trans hw)
    exact ⟨haccount.mem_entered_iff, haccount.paid⟩

end Walk

end SeaOfNodes
