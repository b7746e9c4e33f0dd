import Mathlib.Data.List.Nodup
import Mathlib.Logic.Relation
import SeaOfNodes.Graph.Walk
import SeaOfNodes.Proofs.Edits

/-!
What the dependency walk finds.

A node is live if an anchor needs it, directly or through other nodes. A walk that succeeds lists
exactly the live nodes, once each, and each of them after those of its inputs that cannot stand on
a cycle (`Walk.complete_of_run`). The invariant is about the visits in progress: every input a
visit has looked at is settled, except the one that the next visit inwards is for.
-/

namespace SeaOfNodes

namespace Graph

/-- What a node depends on: its block first, then its operands. -/
def inputs (g : Graph) (n : NodeId) : List NodeId := (g.nodes[n]?.map Node.inputs).getD []

/-- `n` depends on `m`, and `m` is in use. -/
def Needs (g : Graph) (n m : NodeId) : Prop := m ∈ g.inputs n ∧ g.isRetired m = false

/-- Whether an anchor needs `n`, directly or through other nodes. -/
def Live (g : Graph) (n : NodeId) : Prop :=
  ∃ root ∈ [Anchor.stop, Anchor.start, Anchor.bad], Relation.ReflTransGen g.Needs root n

theorem inputs_eq {g : Graph} {n : NodeId} {x : Node} (h : g.nodes[n]? = some x) :
    g.inputs n = x.inputs := by
  rw [inputs, h]
  rfl

theorem Live.needs {g : Graph} {n m : NodeId} (h : g.Live n) (hm : g.Needs n m) : g.Live m := by
  obtain ⟨root, hroot, hpath⟩ := h
  exact ⟨root, hroot, hpath.tail hm⟩

theorem Live.trans {g : Graph} {n m : NodeId} (h : g.Live n)
    (hpath : Relation.TransGen g.Needs n m) : g.Live m := by
  obtain ⟨root, hroot, hroute⟩ := h
  exact ⟨root, hroot, hroute.trans hpath.to_reflTransGen⟩

theorem isRetired_eq_false {g : Graph} {n : NodeId} :
    g.isRetired n = false ↔ ∃ x, g.nodes[n]? = some x ∧ x.op ≠ .retired := by
  unfold Graph.isRetired Node.isRetired
  cases h : g.nodes[n]? with
  | none => simp
  | some x => simp

end Graph

/-- `a` stands before an occurrence of `b`. -/
def Precedes {α : Type} (l : List α) (a b : α) : Prop := ∃ A B, l = A ++ b :: B ∧ a ∈ A

theorem Precedes.append {α : Type} {l : List α} {a b : α} (h : Precedes l a b) (l' : List α) :
    Precedes (l ++ l') a b := by
  obtain ⟨A, B, rfl, ha⟩ := h
  exact ⟨A, B ++ l', by simp, ha⟩

theorem Precedes.of_mem {α : Type} {l : List α} {a : α} (h : a ∈ l) (b : α) :
    Precedes (l ++ [b]) a b :=
  ⟨l, [], rfl, h⟩

namespace Walk

/-- What a walk that has ended tells about its graph. -/
structure Complete (g : Graph) (w : Walk) : Prop where
  capacity : w.live.capacity = g.size
  contains_iff : ∀ n, w.live.contains n = true ↔ g.Live n
  mem_order : ∀ n, n ∈ w.order ↔ g.Live n
  nodup : w.order.Nodup
  /-- Inputs that cannot stand on a cycle are listed first. -/
  before : ∀ n ∈ w.order, ∀ i y, g.Needs n i → g.nodes[i]? = some y →
    y.op.isLoopBreaker = false → Precedes w.order i n
  mem_dangling : ∀ u t, (u, t) ∈ w.dangling ↔
    g.Live u ∧ t ∈ g.inputs u ∧ g.isRetired t = true

/-! ### Visits in progress -/

/-- The input `i` of `n` was looked at. -/
structure Settled (g : Graph) (w : Walk) (n i : NodeId) : Prop where
  dangles : g.isRetired i = true → (n, i) ∈ w.dangling
  lives : g.isRetired i = false → w.live.contains i = true

theorem Settled.mono {g : Graph} {w w' : Walk} {n i : NodeId} (h : Settled g w n i)
    (hlive : ∀ m, w.live.contains m = true → w'.live.contains m = true)
    (hdangling : ∀ e, e ∈ w.dangling → e ∈ w'.dangling) : Settled g w' n i :=
  ⟨fun hr => hdangling _ (h.dangles hr), fun hr => hlive _ (h.lives hr)⟩

/-- A visit in progress. The visit inwards of it, if there is one, is for `inner`. -/
structure Visiting (g : Graph) (w : Walk) (inner : Option NodeId) (f : Frame) : Prop where
  kind : ∃ x, g.nodes[f.node]? = some x ∧ f.breaker = x.op.isLoopBreaker
  live : g.Live f.node
  opened : f.breaker = true → w.live.contains f.node = true
  looked : ∃ done, g.inputs f.node = done ++ f.rest ∧
    ∀ i ∈ done, Settled g w f.node i ∨ inner = some i ∧ g.isRetired i = false

theorem Visiting.mono {g : Graph} {w w' : Walk} {inner : Option NodeId} {f : Frame}
    (h : Visiting g w inner f)
    (hlive : ∀ m, w.live.contains m = true → w'.live.contains m = true)
    (hdangling : ∀ e, e ∈ w.dangling → e ∈ w'.dangling) : Visiting g w' inner f := by
  obtain ⟨done, hdone, hall⟩ := h.looked
  refine ⟨h.kind, h.live, fun hb => hlive _ (h.opened hb), done, hdone, fun i hi => ?_⟩
  exact (hall i hi).imp (fun hs => hs.mono hlive hdangling) id

/-- Every visit on the stack is in progress. -/
def Nested (g : Graph) (w : Walk) : Option NodeId → List Frame → Prop
  | _, [] => True
  | inner, f :: below => Visiting g w inner f ∧ Nested g w (some f.node) below

theorem Nested.mono {g : Graph} {w w' : Walk} {inner : Option NodeId} {stack : List Frame}
    (h : Nested g w inner stack)
    (hlive : ∀ m, w.live.contains m = true → w'.live.contains m = true)
    (hdangling : ∀ e, e ∈ w.dangling → e ∈ w'.dangling) : Nested g w' inner stack := by
  induction stack generalizing inner with
  | nil => trivial
  | cons f below ih => exact ⟨h.1.mono hlive hdangling, ih h.2⟩

/-- When the visit inwards has ended, its node is settled for the visit around it. -/
theorem Nested.settle {g : Graph} {w : Walk} {n : NodeId} {stack : List Frame}
    (h : Nested g w (some n) stack) (hn : w.live.contains n = true) : Nested g w none stack := by
  cases stack with
  | nil => trivial
  | cons f below =>
    obtain ⟨done, hdone, hall⟩ := h.1.looked
    refine ⟨⟨h.1.kind, h.1.live, h.1.opened, done, hdone, fun i hi => .inl ?_⟩, h.2⟩
    rcases hall i hi with hs | ⟨heq, hret⟩
    · exact hs
    · cases heq
      exact ⟨fun hr => by simp [hret] at hr, fun _ => hn⟩

theorem Nested.mem {g : Graph} {w : Walk} {inner : Option NodeId} {stack : List Frame}
    (h : Nested g w inner stack) {f : Frame} (hf : f ∈ stack) : ∃ i, Visiting g w i f := by
  induction stack generalizing inner with
  | nil => cases hf
  | cons f' below ih =>
    rcases List.mem_cons.mp hf with rfl | hf
    · exact ⟨inner, h.1⟩
    · exact ih h.2 hf

/-- The nodes of the visits that count as live already. -/
def openNodes (stack : List Frame) : List NodeId := (stack.filter (·.breaker)).map (·.node)

/-- What holds between two steps of the walk. -/
structure Sound (g : Graph) (s : State) : Prop where
  capacity : s.walk.live.capacity = g.size
  listed : ∀ n ∈ s.walk.order, s.walk.live.contains n = true
  found : ∀ n, s.walk.live.contains n = true → n ∈ s.walk.order ∨ n ∈ openNodes s.stack
  nodup : (s.walk.order ++ openNodes s.stack).Nodup
  needed : ∀ n, s.walk.live.contains n = true → g.Live n
  nested : Nested g s.walk none s.stack
  settled : ∀ n ∈ s.walk.order, ∀ i ∈ g.inputs n, Settled g s.walk n i
  before : ∀ n ∈ s.walk.order, ∀ i y, g.Needs n i → g.nodes[i]? = some y →
    y.op.isLoopBreaker = false → Precedes s.walk.order i n
  dangling : ∀ u t, (u, t) ∈ s.walk.dangling →
    g.Live u ∧ t ∈ g.inputs u ∧ g.isRetired t = true

/-! ### One step -/

theorem openNodes_cons (f : Frame) (below : List Frame) :
    openNodes (f :: below) = if f.breaker then f.node :: openNodes below else openNodes below := by
  unfold openNodes
  rw [List.filter_cons]
  split <;> rfl

theorem mem_openNodes {stack : List Frame} {n : NodeId} :
    n ∈ openNodes stack ↔ ∃ f ∈ stack, f.breaker = true ∧ f.node = n := by
  simp [openNodes, and_assoc]

theorem openNodes_cons_rest (f : Frame) (rest : List NodeId) (below : List Frame) :
    openNodes ({ f with rest } :: below) = openNodes (f :: below) := by
  rw [openNodes_cons, openNodes_cons]

/-- A visit that begins has looked at nothing. -/
theorem Visiting.begin {g : Graph} {w : Walk} {n : NodeId} {x : Node} {breaker : Bool}
    (hx : g.nodes[n]? = some x) (hb : breaker = x.op.isLoopBreaker) (hlive : g.Live n)
    (hopened : breaker = true → w.live.contains n = true) :
    Visiting g w none { node := n, breaker, rest := x.inputs } :=
  ⟨⟨x, hx, hb⟩, hlive, hopened, [], Graph.inputs_eq hx, fun i hi => by cases hi⟩

/-- A visit with no input left has settled them all. -/
theorem Visiting.settled {g : Graph} {w : Walk} {f : Frame} (h : Visiting g w none f)
    (hrest : f.rest = []) : ∀ i ∈ g.inputs f.node, Settled g w f.node i := by
  obtain ⟨done, hdone, hall⟩ := h.looked
  intro i hi
  rw [hdone, hrest, List.append_nil] at hi
  rcases hall i hi with hs | ⟨hnone, -⟩
  · exact hs
  · cases hnone

/-- A visit goes on to its next input. -/
theorem Visiting.advance {g : Graph} {w : Walk} {f : Frame} {i : NodeId} {rest : List NodeId}
    {inner : Option NodeId} (h : Visiting g w none f) (hrest : f.rest = i :: rest)
    (hi : Settled g w f.node i ∨ inner = some i ∧ g.isRetired i = false) :
    Visiting g w inner { f with rest } := by
  obtain ⟨done, hdone, hall⟩ := h.looked
  refine ⟨h.kind, h.live, h.opened, done ++ [i], by simp [hdone, hrest], fun j hj => ?_⟩
  rcases List.mem_append.mp hj with hj | hj
  · rcases hall j hj with hs | ⟨hnone, -⟩
    · exact .inl hs
    · cases hnone
  · rw [List.mem_singleton.mp hj]
    exact hi

/-- The next input of a visit is one of the inputs of its node. -/
theorem Visiting.mem_inputs {g : Graph} {w : Walk} {f : Frame} {i : NodeId} {rest : List NodeId}
    {inner : Option NodeId} (h : Visiting g w inner f) (hrest : f.rest = i :: rest) :
    i ∈ g.inputs f.node := by
  obtain ⟨done, hdone, -⟩ := h.looked
  rw [hdone, hrest]
  exact List.mem_append_right _ List.mem_cons_self

/-- Nodes that cannot stand on a cycle are live only once they are listed. -/
theorem Sound.mem_order {g : Graph} {s : State} (h : Sound g s) {n : NodeId} {y : Node}
    (hn : s.walk.live.contains n = true) (hy : g.nodes[n]? = some y)
    (hb : y.op.isLoopBreaker = false) : n ∈ s.walk.order := by
  refine (h.found n hn).resolve_right fun hopen => ?_
  obtain ⟨f, hf, hbreaker, rfl⟩ := mem_openNodes.mp hopen
  obtain ⟨inner, hvisit⟩ := h.nested.mem hf
  obtain ⟨x, hx, hkind⟩ := hvisit.kind
  rw [hy] at hx
  cases hx
  rw [hb, hbreaker] at hkind
  cases hkind

/-- What is not live is neither listed nor open. -/
theorem Sound.fresh {g : Graph} {s : State} (h : Sound g s) {n : NodeId}
    (hn : s.walk.live.contains n = false) : n ∉ s.walk.order ++ openNodes s.stack := by
  intro hmem
  have hlive : s.walk.live.contains n = true := by
    rcases List.mem_append.mp hmem with hmem | hmem
    · exact h.listed n hmem
    · obtain ⟨f, hf, hb, rfl⟩ := mem_openNodes.mp hmem
      obtain ⟨inner, hvisit⟩ := h.nested.mem hf
      exact hvisit.opened hb
  rw [hn] at hlive
  cases hlive

/-- The innermost visit ends and its node is listed. -/
theorem Sound.list {g : Graph} {w : Walk} {f : Frame} {below : List Frame} {live : BitSet}
    (h : Sound g ⟨w, f :: below⟩) (hrest : f.rest = []) (hcap : live.capacity = g.size)
    (hlive : ∀ m, live.contains m = true ↔ m = f.node ∨ w.live.contains m = true)
    (hnodup : (w.order ++ f.node :: openNodes below).Nodup) :
    Sound g ⟨{ w with live, order := w.order ++ [f.node] }, below⟩ := by
  have hmono : ∀ m, w.live.contains m = true → live.contains m = true :=
    fun m hm => (hlive m).mpr (.inr hm)
  have hsettled := h.nested.1.settled hrest
  refine
    { capacity := hcap
      listed := fun n hn => ?_
      found := fun n hn => ?_
      nodup := by simpa using hnodup
      needed := fun n hn => ?_
      nested := ?_
      settled := fun n hn i hi => ?_
      before := fun n hn i y hneed hy hb => ?_
      dangling := h.dangling }
  · rcases List.mem_append.mp hn with hn | hn
    · exact hmono n (h.listed n hn)
    · exact (hlive n).mpr (.inl (List.mem_singleton.mp hn))
  · rcases (hlive n).mp hn with rfl | hn
    · exact .inl (List.mem_append_right _ List.mem_cons_self)
    · rcases h.found n hn with hord | hopen
      · exact .inl (List.mem_append_left _ hord)
      · rw [openNodes_cons] at hopen
        split at hopen
        · rcases List.mem_cons.mp hopen with rfl | hopen
          · exact .inl (List.mem_append_right _ List.mem_cons_self)
          · exact .inr hopen
        · exact .inr hopen
  · rcases (hlive n).mp hn with rfl | hn
    · exact h.nested.1.live
    · exact h.needed n hn
  · have hbelow : Nested g { w with live, order := w.order ++ [f.node] } (some f.node) below :=
      Nested.mono h.nested.2 hmono fun _ he => he
    exact hbelow.settle ((hlive _).mpr (.inl rfl))
  · rcases List.mem_append.mp hn with hn | hn
    · exact (h.settled n hn i hi).mono hmono fun _ he => he
    · obtain rfl := List.mem_singleton.mp hn
      exact (hsettled i hi).mono hmono fun _ he => he
  · rcases List.mem_append.mp hn with hn | hn
    · exact (h.before n hn i y hneed hy hb).append _
    · obtain rfl := List.mem_singleton.mp hn
      exact .of_mem (h.mem_order ((hsettled i hneed.1).lives hneed.2) hy hb) _

/-- Visits go on or begin, and nothing is listed. -/
theorem Sound.move {g : Graph} {w : Walk} {old stack : List Frame} {live : BitSet}
    {dangling : List (NodeId × NodeId)} (h : Sound g ⟨w, old⟩)
    (hcap : live.capacity = g.size)
    (hlive : ∀ m, w.live.contains m = true → live.contains m = true)
    (hdangling : ∀ e, e ∈ w.dangling → e ∈ dangling)
    (hopen : ∀ m, live.contains m = true → w.live.contains m = true ∨ m ∈ openNodes stack)
    (hkeep : ∀ m ∈ openNodes old, m ∈ openNodes stack)
    (hnodup : (w.order ++ openNodes stack).Nodup)
    (hnested : Nested g { w with live, dangling } none stack)
    (hnew : ∀ u t, (u, t) ∈ dangling → g.Live u ∧ t ∈ g.inputs u ∧ g.isRetired t = true) :
    Sound g ⟨{ w with live, dangling }, stack⟩ where
  capacity := hcap
  listed n hn := hlive n (h.listed n hn)
  found n hn := by
    rcases hopen n hn with hn | hn
    · exact (h.found n hn).imp id (hkeep n)
    · exact .inr hn
  nodup := hnodup
  needed n hn := by
    rcases hopen n hn with hn | hn
    · exact h.needed n hn
    · obtain ⟨f', hf', -, rfl⟩ := mem_openNodes.mp hn
      obtain ⟨inner, hvisit⟩ := hnested.mem hf'
      exact hvisit.live
  nested := hnested
  settled n hn i hi := (h.settled n hn i hi).mono hlive hdangling
  before := h.before
  dangling := hnew

/-- What holds between two steps is kept by a step. -/
theorem Sound.step {g : Graph} {s t : State} (h : Sound g s) (hst : Step g s t) : Sound g t := by
  cases hst with
  | @leaveBreaker w f below hrest hb =>
    have hopened := h.nested.1.opened hb
    have hnodup := h.nodup
    rw [openNodes_cons, if_pos hb] at hnodup
    refine h.list hrest h.capacity (fun m => ⟨.inr, ?_⟩) hnodup
    rintro (rfl | hm)
    · exact hopened
    · exact hm
  | @leaveAgain w f below hrest hb hl =>
    have hopen : openNodes (f :: below) = openNodes below := by
      rw [openNodes_cons, if_neg (by simp [hb])]
    exact
      { h with
        found := fun n hn => hopen ▸ h.found n hn
        nodup := hopen ▸ h.nodup
        nested := Nested.settle h.nested.2 hl }
  | @leave w f below live fresh hrest hb hl hins =>
    obtain ⟨-, hcap, -, hcontains⟩ := BitSet.insert_eq_ok hins
    have hnot := h.fresh hl
    have hnodup := h.nodup
    rw [openNodes_cons, if_neg (by simp [hb])] at hnot hnodup
    refine h.list hrest (hcap.trans h.capacity) (fun m => by simp [hcontains]) ?_
    exact List.nodup_middle.mpr (List.nodup_cons.mpr ⟨hnot, hnodup⟩)
  | @dangle w f below i rest hrest hret =>
    have hmem := h.nested.1.mem_inputs hrest
    have hdangling : ∀ e, e ∈ w.dangling → e ∈ w.dangling ++ [(f.node, i)] :=
      fun e he => List.mem_append_left _ he
    have hi : Settled g { w with dangling := w.dangling ++ [(f.node, i)] } f.node i := by
      refine ⟨fun _ => List.mem_append_right _ List.mem_cons_self, fun hr => ?_⟩
      rw [hret] at hr
      cases hr
    have hf : Visiting g { w with dangling := w.dangling ++ [(f.node, i)] } none f :=
      Visiting.mono h.nested.1 (fun _ hm => hm) hdangling
    refine h.move h.capacity (fun _ hm => hm) hdangling (fun _ hm => .inl hm)
      (fun m hm => by rwa [openNodes_cons_rest]) (by rw [openNodes_cons_rest]; exact h.nodup)
      ⟨hf.advance hrest (.inl hi), Nested.mono h.nested.2 (fun _ hm => hm) hdangling⟩
      (fun u t hut => ?_)
    · rcases List.mem_append.mp hut with hut | hut
      · exact h.dangling u t hut
      · obtain ⟨rfl, rfl⟩ : u = f.node ∧ t = i := by simpa using hut
        exact ⟨h.nested.1.live, hmem, hret⟩
  | @skip w f below i rest hrest hret hl =>
    have hi : Settled g w f.node i :=
      ⟨fun hr => by simp [hret] at hr, fun _ => hl⟩
    exact h.move h.capacity (fun _ hm => hm) (fun _ he => he) (fun _ hm => .inl hm)
      (fun m hm => by rwa [openNodes_cons_rest]) (by rw [openNodes_cons_rest]; exact h.nodup)
      ⟨h.nested.1.advance hrest (.inl hi), h.nested.2⟩ h.dangling
  | @enterBreaker w f below i rest x live fresh hrest hx hret hl hc hb hins =>
    obtain ⟨-, hcap, -, hcontains⟩ := BitSet.insert_eq_ok hins
    have hi : g.isRetired i = false := by simp [Graph.isRetired, hx, hret]
    have hlive : ∀ m, w.live.contains m = true → live.contains m = true :=
      fun m hm => by simp [hcontains, hm]
    have hopen : openNodes ({ node := i, breaker := true, rest := x.inputs } :: { f with rest } ::
        below) = i :: openNodes (f :: below) := by
      rw [openNodes_cons, if_pos rfl, openNodes_cons_rest]
    have hf : Visiting g { w with live } none f :=
      Visiting.mono h.nested.1 hlive fun _ he => he
    refine h.move (hcap.trans h.capacity) hlive (fun _ he => he) (fun m hm => ?_)
      (fun m hm => by rw [hopen]; exact List.mem_cons_of_mem _ hm) ?_ ⟨?_, ?_, ?_⟩ h.dangling
    · rw [hopen]
      have : m = i ∨ w.live.contains m = true := by simpa [hcontains] using hm
      rcases this with rfl | hm
      · exact .inr List.mem_cons_self
      · exact .inl hm
    · rw [hopen]
      exact List.nodup_middle.mpr (List.nodup_cons.mpr ⟨h.fresh hl, h.nodup⟩)
    · exact .begin hx hb.symm (h.nested.1.live.needs ⟨h.nested.1.mem_inputs hrest, hi⟩)
        fun _ => by simp [hcontains]
    · exact hf.advance hrest (.inr ⟨rfl, hi⟩)
    · exact Nested.mono h.nested.2 hlive fun _ he => he
  | @enter w f below i rest x hrest hx hret hl hc hb =>
    have hi : g.isRetired i = false := by simp [Graph.isRetired, hx, hret]
    have hopen : openNodes ({ node := i, breaker := false, rest := x.inputs } :: { f with rest } ::
        below) = openNodes (f :: below) := by
      rw [openNodes_cons, if_neg (by simp), openNodes_cons_rest]
    refine h.move h.capacity (fun _ hm => hm) (fun _ he => he) (fun _ hm => .inl hm)
      (fun m hm => by rwa [hopen]) (by rw [hopen]; exact h.nodup) ⟨?_, ?_, h.nested.2⟩ h.dangling
    · exact .begin hx hb.symm (h.nested.1.live.needs ⟨h.nested.1.mem_inputs hrest, hi⟩)
        fun hfalse => by cases hfalse
    · exact h.nested.1.advance hrest (.inr ⟨rfl, hi⟩)

/-! ### Whole walks -/

/-- The node is live, or its visit is in progress. -/
def Begun (s : State) (n : NodeId) : Prop :=
  s.walk.live.contains n = true ∨ n ∈ s.stack.map Frame.node

theorem Begun.step {g : Graph} {s t : State} {n : NodeId} (h : Begun s n) (hs : Sound g s)
    (hst : Step g s t) : Begun t n := by
  cases hst with
  | @leaveBreaker w f below hrest hb =>
    rcases h with h | h
    · exact .inl h
    · rcases List.mem_cons.mp h with rfl | h
      · exact .inl (hs.nested.1.opened hb)
      · exact .inr h
  | @leaveAgain w f below hrest hb hl =>
    rcases h with h | h
    · exact .inl h
    · rcases List.mem_cons.mp h with rfl | h
      · exact .inl hl
      · exact .inr h
  | @leave w f below live fresh hrest hb hl hins =>
    have hcontains := (BitSet.insert_eq_ok hins).2.2.2
    rcases h with h | h
    · exact .inl ((hcontains n).trans (by simp [h]))
    · rcases List.mem_cons.mp h with rfl | h
      · exact .inl ((hcontains _).trans (by simp))
      · exact .inr h
  | dangle hrest hret => exact h
  | skip hrest hret hl => exact h
  | enterBreaker hrest hx hret hl hc hb hins =>
    have hcontains := (BitSet.insert_eq_ok hins).2.2.2
    rcases h with h | h
    · exact .inl ((hcontains n).trans (by simp [h]))
    · exact .inr (List.mem_cons_of_mem _ h)
  | enter hrest hx hret hl hc hb =>
    exact h.imp id fun h => List.mem_cons_of_mem _ h

/-- The walk ends when no visit is left, and only then. -/
theorem eq_of_step {g : Graph} {s : State} {w : Walk} (h : step g s = .inr (.ok w)) :
    s = ⟨w, []⟩ := by
  obtain ⟨w', stack⟩ := s
  cases stack with
  | nil =>
    cases h
    rfl
  | cons f below =>
    simp only [Walk.step] at h
    split at h
    next => cases hleave : Walk.leave w' f below <;> simp [hleave, resume] at h
    next i rest _ => cases hlook : look g w' f i rest below <;> simp [hlook, resume] at h

/-- What every step keeps holds when no visit is left. -/
theorem ends_of_iterate {g : Graph} {I : State → Prop} (keep : ∀ s t, I s → Step g s t → I t)
    {s : State} (hs : I s) {w : Walk}
    (h : iterate (step g) (rank g) (fun _ _ h => (Step.of_step h).rank_down) s = .ok w) :
    I ⟨w, []⟩ := by
  refine iterate_preserves (P := fun r => r = .ok w → I ⟨w, []⟩)
    (fun s t hinv hst => keep s t hinv (Step.of_step hst)) (fun s r hinv hst hr => ?_) s hs h
  subst hr
  exact eq_of_step hst ▸ hinv

/-- The first visit begins. -/
theorem Sound.enter {g : Graph} {w : Walk} {root : NodeId} {x : Node} {s : State}
    (hw : Sound g ⟨w, []⟩) (hx : g.nodes[root]? = some x) (hlive : g.Live root)
    (hnew : w.live.contains root = false) (h : enter ⟨w, []⟩ root x = .ok s) :
    Sound g s ∧ Begun s root ∧ ∀ n, w.live.contains n = true → s.walk.live.contains n = true := by
  unfold Walk.enter at h
  have hnil : ∀ m ∈ openNodes [], m ∈ openNodes s.stack := fun m hm => by cases hm
  split at h
  next hb =>
    split at h
    next => cases h
    next live fresh hins =>
      cases h
      obtain ⟨-, hcap, -, hcontains⟩ := BitSet.insert_eq_ok hins
      have hmono : ∀ n, w.live.contains n = true → live.contains n = true :=
        fun n hn => by simp [hcontains, hn]
      refine ⟨hw.move (hcap.trans hw.capacity) hmono (fun _ he => he) (fun m hm => ?_) hnil ?_
        ⟨.begin hx rfl hlive fun _ => by simp [hcontains], trivial⟩ hw.dangling,
        .inr List.mem_cons_self, hmono⟩
      · have : m = root ∨ w.live.contains m = true := by simpa [hcontains] using hm
        rcases this with rfl | hm
        · exact .inr (mem_openNodes.mpr ⟨_, List.mem_cons_self, hb, rfl⟩)
        · exact .inl hm
      · rw [openNodes_cons, if_pos hb]
        exact List.nodup_middle.mpr (List.nodup_cons.mpr ⟨hw.fresh hnew, hw.nodup⟩)
  next hb =>
    cases h
    refine ⟨hw.move hw.capacity (fun _ hm => hm) (fun _ he => he) (fun _ hm => .inl hm) hnil ?_
      ⟨.begin hx rfl hlive fun hb' => absurd hb' hb, trivial⟩ hw.dangling,
      .inr List.mem_cons_self, fun _ hm => hm⟩
    rw [openNodes_cons, if_neg hb]
    exact hw.nodup

/-- A walk from one more root keeps what was found and finds the root. -/
theorem visitFrom_eq_ok {g : Graph} {w w' : Walk} {root : NodeId} (hw : Sound g ⟨w, []⟩)
    (hroot : root ∈ [Anchor.stop, Anchor.start, Anchor.bad])
    (h : visitFrom g w root = .ok w') :
    Sound g ⟨w', []⟩ ∧ w'.live.contains root = true ∧
      ∀ n, w.live.contains n = true → w'.live.contains n = true := by
  unfold visitFrom at h
  split at h
  next hl =>
    cases h
    exact ⟨hw, hl, fun _ hn => hn⟩
  next hl =>
    have hl : w.live.contains root = false := by simpa using hl
    cases hnode : g.node root with
    | error e => simp [hnode, bind, Except.bind] at h
    | ok x =>
      simp only [hnode, bind, Except.bind] at h
      split at h
      next => cases h
      next s hs =>
        obtain ⟨hsound, hbegun, hmono⟩ :=
          hw.enter (Graph.node_eq_ok hnode) ⟨root, hroot, .refl⟩ hl hs
        have hend := ends_of_iterate
          (I := fun s => Sound g s ∧ ∀ n, n = root ∨ w.live.contains n = true → Begun s n)
          (fun s t hinv hst => ⟨hinv.1.step hst, fun n hn => (hinv.2 n hn).step hinv.1 hst⟩)
          ⟨hsound, fun n hn => ?_⟩ h
        · refine ⟨hend.1, (hend.2 root (.inl rfl)).resolve_right List.not_mem_nil, fun n hn => ?_⟩
          exact (hend.2 n (.inr hn)).resolve_right List.not_mem_nil
        · rcases hn with rfl | hn
          · exact hbegun
          · exact .inl (hmono n hn)

theorem Sound.begin (g : Graph) : Sound g ⟨begin g, []⟩ where
  capacity := rfl
  listed n hn := by cases hn
  found n hn := by simp [Walk.begin] at hn
  nodup := List.nodup_nil
  needed n hn := by simp [Walk.begin] at hn
  nested := trivial
  settled n hn := by cases hn
  before n hn := by cases hn
  dangling u t hut := by cases hut

/-- A walk that ends lists exactly the live nodes, inputs first. -/
theorem complete_of_run {g : Graph} {w : Walk} (h : run g = .ok w) : Complete g w := by
  simp only [run, List.foldlM_cons, List.foldlM_nil, bind, Except.bind] at h
  split at h
  next => cases h
  next w₁ h₁ =>
    split at h
    next => cases h
    next w₂ h₂ =>
      split at h
      next => cases h
      next w₃ h₃ =>
        cases h
        obtain ⟨hs₁, hstop, -⟩ := visitFrom_eq_ok (Sound.begin g) (by simp) h₁
        obtain ⟨hs₂, hstart, hmono₂⟩ := visitFrom_eq_ok hs₁ (by simp) h₂
        obtain ⟨hs, hbad, hmono₃⟩ := visitFrom_eq_ok hs₂ (by simp) h₃
        have hlisted : ∀ n, w.live.contains n = true → n ∈ w.order :=
          fun n hn => (hs.found n hn).resolve_right List.not_mem_nil
        have hlive : ∀ n, g.Live n → w.live.contains n = true := by
          rintro n ⟨root, hroot, hpath⟩
          induction hpath with
          | refl =>
            rcases (by simpa using hroot : root = 3 ∨ root = 2 ∨ root = 4) with rfl | rfl | rfl
            · exact hmono₃ _ (hmono₂ _ hstop)
            · exact hmono₃ _ hstart
            · exact hbad
          | tail _ hneed ih => exact (hs.settled _ (hlisted _ ih) _ hneed.1).lives hneed.2
        exact
          { capacity := hs.capacity
            contains_iff := fun n => ⟨hs.needed n, hlive n⟩
            mem_order := fun n => ⟨fun hn => hs.needed n (hs.listed n hn),
              fun hn => hlisted n (hlive n hn)⟩
            nodup := (List.nodup_append.mp hs.nodup).1
            before := hs.before
            mem_dangling := fun u t => ⟨hs.dangling u t, fun ⟨hu, ht, hret⟩ =>
              (hs.settled u (hlisted u (hlive u hu)) t ht).dangles hret⟩ }

end Walk

end SeaOfNodes
