import Mathlib.Data.List.Chain
import SeaOfNodes.Proofs.Cycles
import SeaOfNodes.Proofs.Fixpoint

/-!
When the analysis fails, and what it records on the way.

Between two visits the fact stored about a computed node is at most what now follows from the facts
about its operands (`Rising`), since it followed from smaller ones. So a visit never takes a fact
back, no mark is settled before the end, and the only failures are those of the graph: a knot, or a
retired node that something needs. The facts that a trace lists for a node go strictly up from its
first one to its last (`analyze_outcome`).
-/

namespace SeaOfNodes

/-- The graph asks for a node that is retired or does not exist. -/
def Graph.Dangles (g : Graph) : Prop :=
  (∃ n m, g.Live n ∧ m ∈ g.inputs n ∧ g.isRetired m = true) ∨
    ∃ n ∈ [Anchor.stop, Anchor.start, Anchor.bad], g.isRetired n = true

/-! ### Facts in the order they were found -/

namespace Fact

/-- More is known: the fact grew to a different one. -/
def Grew (a b : Fact) : Prop := a.le b = true ∧ a ≠ b

/-- Facts that only grow are few. -/
theorem length_le_of_grew {a : Fact} {l : List Fact} (h : (a :: l).IsChain Grew) :
    (a :: l).length ≤ a.height + 1 := by
  induction l generalizing a with
  | nil => simp
  | cons b l ih =>
    obtain ⟨hab, hrest⟩ := List.isChain_cons_cons.mp h
    have hlt := height_lt_of_le hab.1 hab.2
    have := ih hrest
    simp only [List.length_cons] at this ⊢
    omega

/-- The facts go up from `first` to `last`. -/
structure Ascend (first last : Fact) (l : List Fact) : Prop where
  first : l.head? = some first
  last : l.getLast? = some last
  grew : l.IsChain Grew

theorem Ascend.single (a : Fact) : Ascend a a [a] := ⟨rfl, rfl, List.isChain_singleton a⟩

theorem Ascend.snoc {a b c : Fact} {l : List Fact} (h : Ascend a b l) (hbc : Grew b c) :
    Ascend a c (l ++ [c]) where
  first := by simp [h.first]
  last := by simp
  grew := by
    refine List.isChain_append.mpr ⟨h.grew, List.isChain_singleton c, fun x hx y hy => ?_⟩
    rw [h.last] at hx
    obtain rfl := Option.some.inj hx
    obtain rfl := Option.some.inj hy
    exact hbc

theorem Ascend.length_le {a b : Fact} {l : List Fact} (h : Ascend a b l) : l.length ≤ 3 := by
  cases l with
  | nil => simp
  | cons c l =>
    have hlen := length_le_of_grew h.grew
    have hc : c.height ≤ 2 := by cases c <;> simp [height]
    omega

end Fact

/-- The facts that a trace lists for a node, in order. -/
def factsAbout (trace : Array (NodeId × Fact)) (n : NodeId) : List Fact :=
  (trace.toList.filter fun e => e.1 = n).map Prod.snd

theorem factsAbout_push (trace : Array (NodeId × Fact)) (n m : NodeId) (v : Fact) :
    factsAbout (trace.push (m, v)) n =
      if m = n then factsAbout trace n ++ [v] else factsAbout trace n := by
  unfold factsAbout
  rw [Array.toList_push, List.filter_append]
  by_cases h : m = n
  · simp [h]
  · simp [h]

/-- A trace with one entry for each of several nodes. -/
theorem exists_factsAbout {trace : Array (NodeId × Fact)} {n : NodeId}
    (hnodup : (trace.toList.map Prod.fst).Nodup) (hn : n ∈ trace.toList.map Prod.fst) :
    ∃ v, (n, v) ∈ trace.toList ∧ factsAbout trace n = [v] := by
  unfold factsAbout
  generalize trace.toList = l at hnodup hn
  induction l with
  | nil => cases hn
  | cons e l ih =>
    obtain ⟨hnot, hnodup⟩ := List.nodup_cons.mp hnodup
    by_cases he : e.1 = n
    · have hnone : l.filter (fun e => e.1 = n) = [] := by
        rw [List.filter_eq_nil_iff]
        intro d hd heq
        have heq : d.1 = n := by simpa using heq
        exact hnot (he.trans heq.symm ▸ List.mem_map_of_mem hd)
      exact ⟨e.2, by simp [← he], by simp [he, hnone]⟩
    · have hn : n ∈ l.map Prod.fst := (List.mem_cons.mp hn).resolve_left (Ne.symm he)
      obtain ⟨v, hv, hfacts⟩ := ih hnodup hn
      exact ⟨v, List.mem_cons_of_mem _ hv, by simpa [he] using hfacts⟩

namespace Propagation

variable {c : Scope} {s t : Propagation} {w : Worklist} {n : NodeId} {x : Node}
  {out : List NodeId}

theorem capacity_of_take {t u : Tracker} {e : NodeId} {changed : Bool}
    (h : t.take e = .ok (u, changed)) : u.reachable.capacity = t.reachable.capacity := by
  cases changed with
  | true => rw [(Tracker.take_eq_true h).2.1]
  | false => rw [Tracker.take_eq_false h]

theorem capacity_of_updateBlock {t u : Tracker} {g : Graph} {b : NodeId} {changed : Bool}
    (h : t.updateBlock g b = .ok (u, changed)) : u.reachable.capacity = t.reachable.capacity := by
  unfold Tracker.updateBlock at h
  split at h
  next =>
    cases h
    rfl
  next =>
    obtain ⟨entered, -, h⟩ := bind_eq_ok.mp h
    split at h
    next =>
      split at h
      next => cases h
      next hins =>
        cases h
        exact (BitSet.insert_eq_ok hins).2.1
    next =>
      cases h
      rfl

/-- What a visit of `n` records: nothing, or the fact that the node grew to. -/
structure Records (n : NodeId) (s t : Propagation) : Prop where
  capacity : t.tracker.reachable.capacity = s.tracker.reachable.capacity
  trace : t.values = s.values ∧ t.trace = s.trace ∨
    ∃ v, (s.value n).Grew v ∧ (∀ m, t.value m = if m = n then v else s.value m) ∧
      t.trace = s.trace.push (n, v)

theorem Records.of_takeEdge (h : takeEdge c s n x = .ok (t, out)) : Records n s t := by
  obtain ⟨⟨tracker, changed⟩, htake, h⟩ := bind_eq_ok.mp h
  have hcapacity := capacity_of_take htake
  cases changed with
  | true =>
    obtain ⟨blocks, hblocks, h⟩ := bind_eq_ok.mp h
    cases h
    exact ⟨hcapacity, .inl ⟨rfl, rfl⟩⟩
  | false =>
    cases h
    exact ⟨hcapacity, .inl ⟨rfl, rfl⟩⟩

theorem Records.of_visitBlock (h : visitBlock c s n = .ok (t, out)) : Records n s t := by
  obtain ⟨⟨tracker, changed⟩, hupd, h⟩ := bind_eq_ok.mp h
  have hcapacity := capacity_of_updateBlock hupd
  cases changed with
  | true =>
    cases h
    exact ⟨hcapacity, .inl ⟨rfl, rfl⟩⟩
  | false =>
    simp only [Bool.false_eq_true, if_false] at h
    split at h
    · obtain ⟨phis, hphis, h⟩ := bind_eq_ok.mp h
      cases h
      exact ⟨hcapacity, .inl ⟨rfl, rfl⟩⟩
    · cases h
      exact ⟨hcapacity, .inl ⟨rfl, rfl⟩⟩

theorem Records.of_update {new : Fact} (h : update c s n x new = .ok (t, out)) :
    Records n s t := by
  simp only [update] at h
  split at h
  next =>
    cases h
    exact ⟨rfl, .inl ⟨rfl, rfl⟩⟩
  next hne =>
    split at h
    next hle =>
      obtain ⟨u, hu, h⟩ := bind_eq_ok.mp h
      cases h
      unfold assign at hu
      split at hu
      next hsize =>
        cases hu
        refine ⟨rfl, .inr ⟨new, ⟨hle, hne⟩, fun m => ?_, rfl⟩⟩
        by_cases hm : m = n
        · subst hm
          simp [value, hsize]
        · simp [value, hm, Ne.symm hm]
      next => cases hu
    next => cases h

theorem Records.of_visit (h : visit c s n = .ok (t, out)) : Records n s t := by
  obtain ⟨x, hx, h⟩ := bind_eq_ok.mp h
  have idle (hidle : Except.ok (ε := Error) (s, []) = .ok (t, out)) : Records n s t := by
    cases hidle
    exact ⟨rfl, .inl ⟨rfl, rfl⟩⟩
  split at h
  next => exact .of_visitBlock h
  next =>
    split at h
    · exact .of_takeEdge h
    · exact idle h
  next =>
    split at h
    · exact .of_takeEdge h
    · exact idle h
  next =>
    split at h
    · exact .of_takeEdge h
    · exact idle h
  next => cases h
  next =>
    obtain ⟨computed, hcomputed, h⟩ := bind_eq_ok.mp h
    split at h
    · obtain ⟨v, hv, h⟩ := bind_eq_ok.mp h
      exact .of_update h
    · exact idle h

/-! ### What is stored is at most what follows now -/

/-- What holds between two visits besides `Sound`. -/
structure Rising (c : Scope) (s : Propagation) : Prop where
  capacity : s.tracker.reachable.capacity = c.graph.size
  rising : ∀ n x, c.graph.Live n → c.graph.nodes[n]? = some x → c.graph.computes x = true →
    (s.value n).le (s.assignment.transfer c.graph x) = true
  recorded : ∀ n x, c.graph.Live n → c.graph.nodes[n]? = some x →
    Fact.Ascend (firstFact c.graph x) (s.value n) (factsAbout s.trace n)

/-- A visit takes nothing back. -/
theorem Move.le (hm : Move c s n x t out) : s.assignment.Below c.graph t.assignment := by
  cases hm with
  | idle => exact ⟨fun _ _ => Fact.le_refl _, fun _ _ h => h, fun _ _ h => h⟩
  | phis => exact ⟨fun _ _ => Fact.le_refl _, fun _ _ h => h, fun _ _ h => h⟩
  | reach hop hcause hvalues hmarks heq =>
    rw [heq]
    exact ⟨fun _ _ => Fact.le_refl _, fun _ _ h => h, fun b _ h => by simp [Assignment.reach, h]⟩
  | take hready hvalues hmarks heq hout hlive =>
    rw [heq]
    exact ⟨fun _ _ => Fact.le_refl _, fun e _ h => by simp [Assignment.take, h], fun _ _ h => h⟩
  | raise hc hin hle hsize htracker heq =>
    rw [heq]
    refine ⟨fun m _ => ?_, fun _ _ h => h, fun _ _ h => h⟩
    show (s.value m).le (if m = n then _ else s.value m) = true
    split
    next hmn =>
      subst hmn
      exact hle
    next => exact Fact.le_refl _

/-- A fact that a visit changed is what followed before the visit. -/
theorem Move.value_eq (hm : Move c s n x t out) (m : NodeId) :
    t.value m = s.value m ∨ m = n ∧ t.value m = s.assignment.transfer c.graph x := by
  have hvalue {a b : Assignment} (heq : a = b) : a.value m = b.value m := by rw [heq]
  cases hm with
  | idle => exact .inl rfl
  | phis => exact .inl rfl
  | reach hop hcause hvalues hmarks heq => exact .inl (hvalue heq)
  | take hready hvalues hmarks heq hout hlive => exact .inl (hvalue heq)
  | raise hc hin hle hsize htracker heq =>
    have hval : t.value m = if m = n then s.assignment.transfer c.graph x else s.value m :=
      hvalue heq
    by_cases hmn : m = n
    · exact .inr ⟨hmn, by rw [hval, if_pos hmn]⟩
    · exact .inl (by rw [hval, if_neg hmn])

/-- What holds between two visits is kept by a visit. -/
theorem Rising.visit (hr : Rising c s) (hf : c.Fits) (h : visit c s n = .ok (t, out)) :
    Rising c t := by
  obtain ⟨x, hx, hm⟩ := Move.of_visit h
  have hrecords := Records.of_visit h
  refine ⟨hrecords.capacity.trans hr.capacity, fun m y hlive hy hc => ?_,
    fun m y hlive hy => ?_⟩
  · have hgrows : (s.assignment.transfer c.graph y).le (t.assignment.transfer c.graph y) = true :=
      Assignment.transfer_le hm.le (fun o ho => hf.operands_live hlive hy ho)
        fun p hp => hf.preds_live hlive hy hp
    rcases hm.value_eq m with heq | ⟨rfl, heq⟩
    · rw [heq]
      exact Fact.le_trans (hr.rising m y hlive hy hc) hgrows
    · obtain rfl : x = y := Option.some.inj (hx.symm.trans hy)
      rw [heq]
      exact hgrows
  · have hbefore := hr.recorded m y hlive hy
    rcases hrecords.trace with ⟨hvalues, htrace⟩ | ⟨v, hgrew, hvalue, htrace⟩
    · have hvalue : t.value m = s.value m := by rw [value, value, hvalues]
      rw [hvalue, htrace]
      exact hbefore
    · rw [hvalue, htrace, factsAbout_push]
      by_cases hmn : m = n
      · rw [if_pos hmn, if_pos hmn.symm]
        exact hbefore.snoc (hmn ▸ hgrew)
      · rw [if_neg hmn, if_neg (Ne.symm hmn)]
        exact hbefore

/-- Before the first visit each live node has its first fact. -/
theorem Seeded.rising {order : List NodeId} (h : Seeded c order s w)
    (horder : ∀ n, n ∈ order ↔ c.graph.Live n) (hnodup : order.Nodup) : Rising c s := by
  have hvalue : ∀ n x, c.graph.Live n → c.graph.nodes[n]? = some x →
      s.value n = firstFact c.graph x := by
    intro n x hn hx
    obtain ⟨y, hy, -, hvalue⟩ := h.values n ((horder n).mpr hn)
    obtain rfl : x = y := Option.some.inj (hx.symm.trans hy)
    exact hvalue
  refine ⟨h.capacity, fun n x hn hx hc => ?_, fun n x hn hx => ?_⟩
  · rw [hvalue n x hn hx, firstFact, if_pos hc]
    exact Fact.unknown_le _
  · obtain ⟨v, hv, hfacts⟩ := exists_factsAbout (h.traced ▸ hnodup)
      (h.traced.symm ▸ (horder n).mpr hn)
    obtain ⟨y, hy, rfl⟩ := h.trace _ hv
    obtain rfl : x = y := Option.some.inj (hx.symm.trans hy)
    rw [hvalue n x hn hx, hfacts]
    exact .single _

/-! ### Visits succeed -/

theorem isComputed_of_lt {g : Graph} (hx : ∀ o ∈ x.operands, o < g.size) :
    isComputed g x = .ok (g.computes x) := by
  have hsome : ∃ computed, isComputed g x = .ok computed := by
    unfold isComputed
    split <;> try exact ⟨_, rfl⟩
    unfold isQuotient
    split
    next => exact ⟨_, rfl⟩
    next o ho =>
      obtain ⟨y, hy⟩ := Graph.exists_node_of_lt (hx o (List.mem_of_mem_head? ho))
      exact exists_bind (Graph.node_eq_ok_iff.mpr hy) ⟨_, rfl⟩
  obtain ⟨computed, hcomputed⟩ := hsome
  rw [hcomputed, isComputed_eq_ok hcomputed]

theorem exists_takeEdge (hf : c.Fits) (hs : Sound c s w) (hx : c.graph.nodes[n]? = some x) :
    ∃ r, takeEdge c s n x = .ok r := by
  have htake : ∃ r, s.tracker.take n = .ok r := by
    unfold Tracker.take
    split
    next => exact ⟨_, rfl⟩
    next hmark => rcases hs.undecided n _ hmark with h | h <;> cases h
    next => exact ⟨_, rfl⟩
  obtain ⟨⟨tracker, changed⟩, htake⟩ := htake
  have husers : ∀ m ∈ x.users, m < c.graph.size := by
    intro m hm
    rw [← Graph.users_eq hx, hf.mirrored.mem_users] at hm
    by_contra hout
    rw [Graph.operands_of_size_le (Nat.le_of_not_lt hout)] at hm
    cases hm
  obtain ⟨blocks, hblocks⟩ := Graph.exists_select (·.op == .block) husers
  cases changed with
  | true => exact exists_bind htake (exists_bind hblocks ⟨_, rfl⟩)
  | false => exact exists_bind htake ⟨_, rfl⟩

theorem exists_visitBlock (hf : c.Fits) (hr : Rising c s) (hx : c.graph.nodes[n]? = some x) :
    ∃ r, visitBlock c s n = .ok r := by
  have hn : n < s.tracker.reachable.capacity := hr.capacity ▸ Graph.lt_size_of_getElem? hx
  have hentered : ∃ entered, s.tracker.isEntered c.graph n = .ok entered := by
    unfold Tracker.isEntered
    split
    · exact ⟨_, rfl⟩
    · exact exists_bind (Graph.node_eq_ok_iff.mpr hx) ⟨_, rfl⟩
  obtain ⟨entered, hentered⟩ := hentered
  have hupdate : ∃ r, s.tracker.updateBlock c.graph n = .ok r := by
    unfold Tracker.updateBlock
    split
    · exact ⟨_, rfl⟩
    · obtain ⟨reachable, hins⟩ := BitSet.insert_of_lt hn
      cases entered with
      | true =>
        refine exists_bind hentered ?_
        simp only [if_true, hins]
        exact ⟨_, rfl⟩
      | false => exact exists_bind hentered ⟨_, rfl⟩
  obtain ⟨⟨tracker, changed⟩, hupdate⟩ := hupdate
  have hmembers : ∀ m ∈ c.members.filed n, m < c.graph.size := fun m hm =>
    hf.lt_size ((hf.members n m).mp hm).1
  obtain ⟨phis, hphis⟩ := Graph.exists_select (·.op == .phi) hmembers
  cases changed with
  | true => exact exists_bind hupdate ⟨_, rfl⟩
  | false =>
    refine exists_bind hupdate ?_
    simp only [Bool.false_eq_true, if_false]
    split
    · exact exists_bind hphis ⟨_, rfl⟩
    · exact ⟨_, rfl⟩

/-- No fact is taken back, so a fact that follows can be stored. -/
theorem exists_update (hs : Sound c s w) (hr : Rising c s) (hn : c.graph.Live n)
    (hx : c.graph.nodes[n]? = some x) (hc : c.graph.computes x = true) :
    ∃ r, update c s n x (s.assignment.transfer c.graph x) = .ok r := by
  have hlt : n < s.values.size := hs.size ▸ Graph.lt_size_of_getElem? hx
  unfold update
  dsimp only
  split
  · exact ⟨_, rfl⟩
  · rw [if_pos (hr.rising n x hn hx hc)]
    exact exists_bind (if_pos hlt) ⟨_, rfl⟩

theorem exists_evaluate {g : Graph} (hx : ∀ b, x.block = some b → b < g.size) :
    ∃ v, evaluate g s x = .ok v := by
  unfold evaluate
  split <;> try exact ⟨_, rfl⟩
  split
  next => exact ⟨_, rfl⟩
  next b hb =>
    obtain ⟨y, hy⟩ := Graph.exists_node_of_lt (hx b hb)
    exact exists_bind (Graph.node_eq_ok_iff.mpr hy) ⟨_, rfl⟩

/-- Visiting a live node in use succeeds. -/
theorem exists_visit (hf : c.Fits) (hs : Sound c s w) (hr : Rising c s) (hn : c.graph.Live n)
    (hused : c.graph.isRetired n = false) : ∃ r, visit c s n = .ok r := by
  obtain ⟨x, hx, hop⟩ := Graph.isRetired_eq_false.mp hused
  have hoperands : ∀ o ∈ x.operands, o < c.graph.size := fun o ho =>
    hf.lt_size (hf.operands_live hn hx ho)
  have hblock : ∀ b, x.block = some b → b < c.graph.size := fun b hb =>
    hf.lt_size (hf.block_live hn hx hb)
  refine exists_bind (Graph.node_eq_ok_iff.mpr hx) ?_
  split
  next => exact exists_visitBlock hf hr hx
  next =>
    split
    · exact exists_takeEdge hf hs hx
    · exact ⟨_, rfl⟩
  next =>
    split
    · exact exists_takeEdge hf hs hx
    · exact ⟨_, rfl⟩
  next =>
    split
    · exact exists_takeEdge hf hs hx
    · exact ⟨_, rfl⟩
  next hretired => exact absurd hretired hop
  next =>
    obtain ⟨v, hv⟩ := exists_evaluate (s := s) hblock
    refine exists_bind (isComputed_of_lt hoperands) ?_
    split
    next hcond =>
      obtain ⟨hc, hin⟩ := (Bool.and_eq_true _ _ ▸ hcond : _ ∧ _)
      refine exists_bind hv ?_
      rw [evaluate_eq_ok hv hin]
      exact exists_update hs hr hn hx hc
    next => exact ⟨_, rfl⟩

/-! ### Seeding fails at retired nodes only -/

theorem exists_init {g : Graph} (hx : g.nodes[n]? = some x) (hop : x.op ≠ .retired)
    (hoperands : ∀ o ∈ x.operands, o < g.size) (hn : n < s.values.size) :
    ∃ t, init g s n = .ok t := by
  refine exists_bind (Graph.node_eq_ok_iff.mpr hx) ?_
  have hassign : ∀ (u : Propagation) v, u.values = s.values → ∃ t, u.assign n v = .ok t := by
    intro u v hu
    unfold assign
    rw [hu, if_pos hn]
    exact ⟨_, rfl⟩
  have hvalues : (if x.op.isEdge = true then { s with tracker := s.tracker.register n }
      else s).values = s.values := by
    split <;> rfl
  dsimp only
  split
  next v hconst => exact hassign _ _ hvalues
  next hretired => exact absurd hretired hop
  next => exact exists_bind (isComputed_of_lt hoperands) (hassign _ _ hvalues)

theorem init_of_retired {g : Graph} (hx : g.nodes[n]? = some x) (hop : x.op = .retired) :
    init g s n = .error (.retiredNode n) := by
  unfold init
  rw [Graph.node_eq_ok_iff.mpr hx]
  simp only [bind, Except.bind, hop]

/-- Seeding live nodes gets to the end, or to a retired one. -/
theorem seed_outcome {g : Graph} {order : List NodeId}
    (hlive : ∀ n ∈ order, n < g.size ∧ ∀ o ∈ g.operands n, o < g.size)
    (hsize : s.values.size = g.size) :
    (∃ r, order.foldlM (fun (p : Propagation × Worklist) n => do
      return (← init g p.1 n, (p.2.enqueue n).1)) (s, w) = .ok r) ∨
    ∃ n ∈ order, g.isRetired n = true ∧
      order.foldlM (fun (p : Propagation × Worklist) n => do
        return (← init g p.1 n, (p.2.enqueue n).1)) (s, w) = .error (.retiredNode n) := by
  induction order generalizing s w with
  | nil => exact .inl ⟨_, rfl⟩
  | cons n order ih =>
    obtain ⟨hlt, hoperands⟩ := hlive n List.mem_cons_self
    obtain ⟨x, hx⟩ := Graph.exists_node_of_lt hlt
    rw [Graph.operands_eq hx] at hoperands
    by_cases hop : x.op = .retired
    · refine .inr ⟨n, List.mem_cons_self, ?_, ?_⟩
      · simp [Graph.isRetired, hx, Node.isRetired, hop]
      · rw [List.foldlM_cons, init_of_retired hx hop]
        rfl
    · obtain ⟨t, ht⟩ := exists_init (s := s) hx hop hoperands (hsize ▸ hlt)
      obtain ⟨y, -, -, -, hvalues, -⟩ := init_eq_ok ht
      have hsize' : t.values.size = g.size := by
        rw [hvalues, Array.size_setIfInBounds, hsize]
      rw [List.foldlM_cons, ht]
      rcases ih (s := t) (w := (w.enqueue n).1)
        (fun m hm => hlive m (List.mem_cons_of_mem n hm)) hsize' with hok | ⟨m, hm, hret, herr⟩
      · exact .inl hok
      · exact .inr ⟨m, List.mem_cons_of_mem n hm, hret, herr⟩

end Propagation

/-! ### The outcome -/

namespace Graph

variable {g : Graph}

theorem Built.bad_lt_size (hg : g.Built) : Anchor.bad < g.size := by
  obtain ⟨y, hy, -⟩ := hg.keeps_anchor (i := Anchor.bad) rfl
  obtain ⟨x, hx, -⟩ := Option.map_eq_some_iff.mp hy
  exact lt_size_of_getElem? hx

/-- A retired node that the walk reaches is an anchor. -/
theorem Live.anchor {n : NodeId} (h : g.Live n) (hret : g.isRetired n = true) :
    n ∈ [Anchor.stop, Anchor.start, Anchor.bad] := by
  obtain ⟨root, hroot, hpath⟩ := h
  cases hpath with
  | refl => exact hroot
  | tail _ hlast =>
    rw [hlast.2] at hret
    cases hret

/-- Without a knot, the analysis meets a retired node or gives a result. -/
theorem analyze_of_not_knotted (hg : g.Mirrored) (hsize : Anchor.bad < g.size)
    (hknot : ¬ g.Knotted) :
    (g.Dangles ∧ ∃ n, g.analyze = .error (.retiredNode n)) ∨
      ¬ g.Dangles ∧ ∃ r, g.analyze = .ok r := by
  obtain ⟨walk, hwalk⟩ := Walk.exists_run hsize hknot
  have hcomplete := Walk.complete_of_run hwalk
  have hlt : ∀ n, g.Live n → n < g.size := fun n hn =>
    hcomplete.capacity ▸ BitSet.contains_lt ((hcomplete.contains_iff n).mpr hn)
  have hlisted : ∀ n ∈ walk.live.toList, n < g.size := fun n hn =>
    hcomplete.capacity ▸ BitSet.contains_lt (BitSet.mem_toList.mp hn)
  obtain ⟨members, hmembers⟩ := exists_membersByBlock hlisted
  let c : Propagation.Scope := { graph := g, live := walk.live, members }
  have hfail : ∀ e, Handlers.run (Propagation.progress c) g walk (Propagation.start g) = .error e →
      g.analyze = .error e := by
    intro e hrun
    unfold analyze
    rw [bind_of_ok hwalk, bind_of_ok hmembers, bind_of_error hrun]
  cases hdangling : walk.dangling with
  | cons d ds =>
    obtain ⟨n, m⟩ := d
    have hmem : (n, m) ∈ walk.dangling := hdangling ▸ List.mem_cons_self
    refine .inl ⟨.inl ⟨n, m, (hcomplete.mem_dangling n m).mp hmem⟩, m, hfail _ ?_⟩
    unfold Handlers.run
    rw [hdangling]
  | nil =>
    have hf : c.Fits := .of_walk hg hcomplete hmembers hdangling
    have harena : ∀ n ∈ walk.order, n < g.size ∧ ∀ o ∈ g.operands n, o < g.size := by
      intro n hn
      have hlive := (hcomplete.mem_order n).mp hn
      refine ⟨hlt n hlive, fun o ho => ?_⟩
      obtain ⟨x, hx⟩ := exists_node_of_lt (hlt n hlive)
      exact hlt o (hf.operands_live hlive hx (operands_eq hx ▸ ho))
    rcases Propagation.seed_outcome (s := Propagation.start g) (w := .empty g.size) harena
      Array.size_replicate with ⟨⟨u, w⟩, hfold⟩ | ⟨n, hn, hret, hfold⟩
    · have hseed : (Propagation.handlers c).seed g.size walk.order (Propagation.start g) =
          .ok (u, _) := bind_eq_ok.mpr ⟨(u, w), hfold, rfl⟩
      have hseeded := Propagation.Seeded.of_seed hseed
      have hused : ∀ n, g.Live n → g.isRetired n = false := by
        intro n hn
        obtain ⟨x, hx, hop, -⟩ := hseeded.values n ((hcomplete.mem_order n).mpr hn)
        exact isRetired_eq_false.mpr ⟨x, hx, hop⟩
      refine .inr ⟨?_, ?_⟩
      · rintro (⟨n, m, hn, hm, hret⟩ | ⟨n, hn, hret⟩)
        · rw [hf.inUse n m hn hm] at hret
          cases hret
        · rw [hused n ⟨n, hn, .refl⟩] at hret
          cases hret
      · obtain ⟨r, hrun⟩ := Handlers.exists_run (p := Propagation.progress c)
          (I := fun s w => s.Sound c w ∧ s.Rising c) hdangling hseed
          ⟨hseeded.sound hcomplete.mem_order, hseeded.rising hcomplete.mem_order hcomplete.nodup⟩
          (fun s w n w' t v hs hpop hvisit => by
            obtain ⟨out, hout, rfl⟩ := Handlers.queueing_visit.mp hvisit
            exact ⟨hs.1.visit hf hpop hout, hs.2.visit hf hout⟩)
          (fun s w n w' hs hpop => by
            have hn := hs.1.queued n ((hs.1.valid.pop hpop).2 ▸ List.mem_cons_self)
            obtain ⟨⟨t, out⟩, hvisit⟩ := Propagation.exists_visit hf hs.1 hs.2 hn (hused n hn)
            exact ⟨_, Handlers.queueing_visit.mpr ⟨out, hvisit, rfl⟩⟩)
        exact exists_bind hwalk (exists_bind hmembers (exists_bind hrun ⟨_, rfl⟩))
    · refine .inl ⟨.inr ⟨n, ((hcomplete.mem_order n).mp hn).anchor hret, hret⟩, n, hfail _ ?_⟩
      unfold Handlers.run
      rw [hdangling]
      exact bind_of_error (bind_of_error hfold)

/-- What an analysis that succeeds has recorded. -/
theorem rising_of_analyze {r : Solution} (hg : g.Mirrored) (h : g.analyze = .ok r) :
    ∃ (c : Propagation.Scope) (s : Propagation), c.graph = g ∧ s.Rising c ∧
      r.values = s.values ∧ r.trace = s.trace ∧ s.values.size = g.size := by
  obtain ⟨walk, hwalk, h⟩ := bind_eq_ok.mp h
  obtain ⟨members, hmembers, h⟩ := bind_eq_ok.mp h
  obtain ⟨⟨s, stats⟩, hrun, h⟩ := bind_eq_ok.mp h
  cases h
  have hcomplete := Walk.complete_of_run hwalk
  let c : Propagation.Scope := { graph := g, live := walk.live, members }
  obtain ⟨hdangling, w, hqueue, hend⟩ := Handlers.run_eq_ok
    (I := fun s w => walk.dangling = [] → s.Sound c w ∧ s.Rising c) hrun
    (fun u w hs _ => ⟨(Propagation.Seeded.of_seed hs).sound hcomplete.mem_order,
      (Propagation.Seeded.of_seed hs).rising hcomplete.mem_order hcomplete.nodup⟩)
    (fun u w n w' u' v hs hpop hvisit hd => by
      have hf : c.Fits := .of_walk hg hcomplete hmembers hd
      obtain ⟨out, hout, rfl⟩ := Handlers.queueing_visit.mp hvisit
      exact ⟨(hs hd).1.visit hf hpop hout, (hs hd).2.visit hf hout⟩)
  exact ⟨c, s, rfl, (hend hdangling).2, rfl, rfl, (hend hdangling).1.size⟩

end Graph

/-- The analysis fails at a knot, else at a retired node that is asked for, and nowhere else; in
particular no fact and no mark is ever taken back. What it records for a live node goes strictly up,
from the fact the node starts with to the fact it ends with. -/
theorem analyze_outcome {g : Graph} (hg : g.Built) :
    ((∃ m, g.analyze = .error (.malformed m)) ↔ g.Knotted) ∧
      (¬ g.Knotted → ((∃ n, g.analyze = .error (.retiredNode n)) ↔ g.Dangles)) ∧
      (¬ g.Knotted → ¬ g.Dangles → ∃ r, g.analyze = .ok r) ∧
      (∀ n old new, g.analyze ≠ .error (.factRegressed n old new)) ∧
      (∀ e, g.analyze ≠ .error (.edgeRegressed e)) ∧
      ∀ r, g.analyze = .ok r → ∀ n x, g.Live n → g.nodes[n]? = some x →
        (factsAbout r.trace n).head? = some (Propagation.firstFact g x) ∧
        (factsAbout r.trace n).IsChain Fact.Grew ∧
        (factsAbout r.trace n).length ≤ 3 ∧
        (factsAbout r.trace n).getLast? = r.value? n := by
  have hsize : Anchor.bad < g.size := hg.bad_lt_size
  have hmalformed : g.Knotted → ∃ m, g.analyze = .error (.malformed m) := by
    intro hknot
    obtain ⟨m, hm⟩ := (Walk.run_eq_error_iff hsize).mpr hknot
    exact ⟨m, bind_of_error hm⟩
  have hrest := Graph.analyze_of_not_knotted hg.mirrored hsize
  have herror : ∀ e, g.analyze = .error e → (∃ m, e = .malformed m) ∨ ∃ n, e = .retiredNode n := by
    intro e he
    by_cases hknot : g.Knotted
    · obtain ⟨m, hm⟩ := hmalformed hknot
      exact .inl ⟨m, Except.error.inj (he.symm.trans hm)⟩
    · rcases hrest hknot with ⟨-, n, hn⟩ | ⟨-, r, hr⟩
      · exact .inr ⟨n, Except.error.inj (he.symm.trans hn)⟩
      · cases he.symm.trans hr
  refine ⟨⟨?_, hmalformed⟩, fun hknot => ⟨?_, ?_⟩, fun hknot hdangles => ?_, ?_, ?_, ?_⟩
  · rintro ⟨m, hm⟩
    by_contra hknot
    rcases hrest hknot with ⟨-, n, hn⟩ | ⟨-, r, hr⟩
    · cases hm.symm.trans hn
    · cases hm.symm.trans hr
  · rintro ⟨n, hn⟩
    rcases hrest hknot with ⟨hd, -⟩ | ⟨-, r, hr⟩
    · exact hd
    · cases hn.symm.trans hr
  · intro hd
    exact ((hrest hknot).resolve_right fun h => h.1 hd).2
  · exact ((hrest hknot).resolve_left fun h => hdangles h.1).2
  · intro n old new he
    rcases herror _ he with ⟨m, hm⟩ | ⟨m, hm⟩ <;> cases hm
  · intro e he
    rcases herror _ he with ⟨m, hm⟩ | ⟨m, hm⟩ <;> cases hm
  · intro r hr n x hn hx
    obtain ⟨c, s, rfl, hrising, hvalues, htrace, hlen⟩ := Graph.rising_of_analyze hg.mirrored hr
    have hfacts := hrising.recorded n x hn hx
    have hlast : r.value? n = some (s.value n) := by
      have hlt : n < s.values.size := hlen ▸ Graph.lt_size_of_getElem? hx
      simp [Solution.value?, Propagation.value, hvalues, Array.getElem?_eq_getElem hlt]
    rw [htrace, hlast]
    exact ⟨hfacts.first, hfacts.grew, hfacts.length_le, hfacts.last⟩

theorem analyze_outcome_constantBranch :
    ∃ g r, constantBranch.foldlM Graph.apply (.new "f" 0) = .ok g ∧ g.Built ∧
      g.analyze = .ok r ∧ ¬ g.Knotted ∧ ¬ g.Dangles ∧
      ∀ n x, g.Live n → g.nodes[n]? = some x →
        (factsAbout r.trace n).head? = some (Propagation.firstFact g x) ∧
        (factsAbout r.trace n).IsChain Fact.Grew ∧
        (factsAbout r.trace n).length ≤ 3 ∧
        (factsAbout r.trace n).getLast? = r.value? n := by
  have hok : (constantBranch.foldlM Graph.apply (.new "f" 0) >>= Graph.analyze).isOk = true := by
    decide +kernel
  obtain ⟨r, hr⟩ := exists_of_isOk hok
  obtain ⟨g, hg, hr⟩ := bind_eq_ok.mp hr
  have hbuilt : g.Built := (Graph.Built.new "f" 0).foldlM hg
  obtain ⟨hmalformed, hretired, -, -, -, htrace⟩ := analyze_outcome hbuilt
  have hknot : ¬ g.Knotted := by
    intro hknot
    obtain ⟨m, hm⟩ := hmalformed.mpr hknot
    cases hm.symm.trans hr
  have hdangles : ¬ g.Dangles := by
    intro hdangles
    obtain ⟨n, hn⟩ := (hretired hknot).mpr hdangles
    cases hn.symm.trans hr
  exact ⟨g, r, hg, hbuilt, hr, hknot, hdangles, htrace r hr⟩

end SeaOfNodes
