import SeaOfNodes.Graph.Builder
import SeaOfNodes.Proofs.Cleaning
import SeaOfNodes.Proofs.Faults

/-!
Graphs that the builder makes.

The builder closes loops after the fact, so nothing in a single call rules out an illegal cycle.
What does is an order (`Graph.Ordered`): a node that is neither a phi nor a block is made after its
operands and gets none later, except the stop node, which no node depends on. Every construction
keeps the order (`Builder.Makes`), and an ordered graph has no illegal cycle and no edge that leads
nowhere. So whatever was built by calls that make sense can be walked, analyzed and scheduled
(`Builder.runAll_analyzable`).
-/

namespace SeaOfNodes

namespace Graph

variable {g h : Graph} {n : NodeId} {op : Op}

/-- The kind of the node in slot `n`. -/
def kind? (g : Graph) (n : NodeId) : Option Op := g.nodes[n]?.map Node.op

theorem kind?_eq_shape (g : Graph) (n : NodeId) : g.kind? n = (g.shape? n).map Shape.op := by
  rw [kind?, shape?, Option.map_map]
  rfl

theorem lt_size_of_kind? (hn : g.kind? n = some op) : n < g.size := by
  obtain ⟨x, hx, -⟩ := Option.map_eq_some_iff.mp hn
  exact lt_size_of_getElem? hx

/-- The nodes of `g` are in `h` and of the same kinds. -/
def KindsStay (g h : Graph) : Prop := ∀ n op, g.kind? n = some op → h.kind? n = some op

theorem KindsStay.refl (g : Graph) : g.KindsStay g := fun _ _ hn => hn

theorem KindsStay.trans {k : Graph} (hgh : g.KindsStay h) (hhk : h.KindsStay k) :
    g.KindsStay k := fun n op hn => hhk n op (hgh n op hn)

theorem KindsStay.lt_size (hgh : g.KindsStay h) (hn : n < g.size) : n < h.size := by
  obtain ⟨x, hx⟩ := exists_node_of_lt hn
  have hkind : g.kind? n = some x.op := by rw [kind?, hx]; rfl
  exact lt_size_of_kind? (hgh n x.op hkind)

/-- The node `n` may be an operand. -/
def Offers (g : Graph) (n : NodeId) : Prop := n < g.size ∧ n ≠ Anchor.stop

instance (g : Graph) (n : NodeId) : Decidable (g.Offers n) :=
  inferInstanceAs (Decidable (n < g.size ∧ n ≠ Anchor.stop))

theorem Offers.stay (hn : g.Offers n) (hgh : g.KindsStay h) : h.Offers n :=
  ⟨hgh.lt_size hn.1, hn.2⟩

/-- Phis, blocks and the stop node may get operands at any time. -/
def Extensible (g : Graph) (n : NodeId) : Prop :=
  n = Anchor.stop ∨ ∃ op, g.kind? n = some op ∧ op.isLoopBreaker = true

theorem Extensible.stay (hn : g.Extensible n) (hgh : g.KindsStay h) : h.Extensible n :=
  hn.imp_right fun ⟨op, hop, hbreak⟩ => ⟨op, hgh n op hop, hbreak⟩

/-- Operands are earlier nodes, except those of nodes that may get more. -/
structure Ordered (g : Graph) : Prop where
  mirrored : g.Mirrored
  anchors : (Graph.new "" 0).KindsStay g
  inUse : ∀ n, g.kind? n ≠ some .retired
  block : ∀ n x b, g.shape? n = some x → x.block = some b → g.kind? b = some .block
  stop : ∀ n x, g.shape? n = some x → Anchor.stop ∉ x.operands
  below : ∀ n x, g.shape? n = some x → ¬ g.Extensible n → ∀ o ∈ x.operands, o < n

/-! ### What keeps the order -/

theorem shape?_new {name : String} {params : Nat} {x : Shape}
    (hx : (new name params).shape? n = some x) :
    x.operands = [] ∧ x.op ≠ .retired ∧
      ∀ b, x.block = some b → b = Anchor.startBlock ∨ b = Anchor.endBlock := by
  match n with
  | 0 | 1 | 2 | 3 | 4 =>
    cases hx
    simp [new, Node.shape]
  | k + 5 => cases hx

theorem ordered_new (name : String) (params : Nat) : (new name params).Ordered where
  mirrored := mirrored_new name params
  anchors n op hn := hn
  inUse n hn := by
    rw [kind?_eq_shape] at hn
    obtain ⟨x, hx, hop⟩ := Option.map_eq_some_iff.mp hn
    exact (shape?_new hx).2.1 hop
  block n x b hx hb := by
    obtain rfl | rfl := (shape?_new hx).2.2 b hb <;> rfl
  stop n x hx := by
    rw [(shape?_new hx).1]
    exact List.not_mem_nil
  below n x hx _ o ho := by
    rw [(shape?_new hx).1] at ho
    cases ho

theorem Ordered.stop_kind (hg : g.Ordered) : g.kind? Anchor.stop = some .stop :=
  hg.anchors _ _ rfl

theorem Ordered.bad_lt (hg : g.Ordered) : Anchor.bad < g.size :=
  lt_size_of_kind? (hg.anchors Anchor.bad .bad rfl)

/-- A new node stands above its operands. -/
theorem Ordered.addNode {mode : Mode} {block : Option NodeId} {operands : List NodeId}
    (hg : g.Ordered) (hop : op ≠ .retired)
    (hblock : ∀ b, block = some b → g.kind? b = some .block)
    (hoperands : ∀ o ∈ operands, g.Offers o)
    (hadd : g.addNode op mode block operands = .ok (n, h)) : h.Ordered ∧ g.KindsStay h := by
  obtain ⟨-, -, hlt, hshape, -⟩ := addNode_eq_ok hadd
  have hstay : g.KindsStay h := by
    intro i k hi
    have hne : i ≠ g.size := Nat.ne_of_lt (lt_size_of_kind? hi)
    rw [kind?_eq_shape, hshape, if_neg hne, ← kind?_eq_shape]
    exact hi
  have hcases : ∀ i x, h.shape? i = some x →
      (i = g.size ∧ x = { op, mode, block, operands }) ∨ g.shape? i = some x := by
    intro i x hx
    rw [hshape] at hx
    split at hx
    next hi => exact .inl ⟨hi, (Option.some.inj hx).symm⟩
    next => exact .inr hx
  refine ⟨⟨hg.mirrored.addNode hadd, hg.anchors.trans hstay, fun i hi => ?_,
    fun i x b hx hb => ?_, fun i x hx => ?_, fun i x hx hfixed o ho => ?_⟩, hstay⟩
  · rw [kind?_eq_shape] at hi
    obtain ⟨x, hx, hret⟩ := Option.map_eq_some_iff.mp hi
    obtain ⟨-, rfl⟩ | hold := hcases i x hx
    · exact hop hret
    · exact hg.inUse i (by rw [kind?_eq_shape, hold, Option.map_some, hret])
  · obtain ⟨-, rfl⟩ | hold := hcases i x hx
    · exact hstay b _ (hblock b hb)
    · exact hstay b _ (hg.block i x b hold hb)
  · obtain ⟨-, rfl⟩ | hold := hcases i x hx
    · exact fun hmem => (hoperands _ hmem).2 rfl
    · exact hg.stop i x hold
  · obtain ⟨rfl, rfl⟩ | hold := hcases i x hx
    · exact hlt o ho
    · exact hg.below i x hold (fun hi => hfixed (hi.stay hstay)) o ho

theorem Ordered.addOperand {o : NodeId} (hg : g.Ordered) (hn : g.Extensible n) (ho : g.Offers o)
    (hadd : g.addOperand n o = .ok h) : h.Ordered ∧ g.KindsStay h := by
  obtain ⟨-, -, -, hshape, -⟩ := addOperand_eq_ok hadd
  -- Only the operands of `n` differ, and `n` is exempt from the order.
  have hcases : ∀ i x, h.shape? i = some x → ∃ y, g.shape? i = some y ∧
      x.block = y.block ∧ (x.operands = y.operands ∨ i = n ∧ x.operands = y.operands ++ [o]) := by
    intro i x hx
    rw [hshape] at hx
    split at hx
    next hi =>
      obtain ⟨y, hy, rfl⟩ := Option.map_eq_some_iff.mp hx
      exact ⟨y, hy, rfl, .inr ⟨hi, rfl⟩⟩
    next => exact ⟨x, hx, rfl, .inl rfl⟩
  have hkind : ∀ i, h.kind? i = g.kind? i := by
    intro i
    rw [kind?_eq_shape, kind?_eq_shape, hshape]
    split
    · rw [Option.map_map]
      rfl
    · rfl
  have hstay : g.KindsStay h := fun i k hi => (hkind i).trans hi
  refine ⟨⟨hg.mirrored.addOperand hadd, hg.anchors.trans hstay, fun i hi => ?_,
    fun i x b hx hb => ?_, fun i x hx => ?_, fun i x hx hfixed m hm => ?_⟩, hstay⟩
  · exact hg.inUse i ((hkind i).symm.trans hi)
  · obtain ⟨y, hy, hxy, -⟩ := hcases i x hx
    exact hstay b _ (hg.block i y b hy (hxy ▸ hb))
  · obtain ⟨y, hy, -, hsame | ⟨-, hmore⟩⟩ := hcases i x hx
    · exact hsame ▸ hg.stop i y hy
    · rw [hmore, List.mem_append, List.mem_singleton]
      rintro (hmem | hstop)
      · exact hg.stop i y hy hmem
      · exact ho.2 hstop.symm
  · obtain ⟨y, hy, -, hsame | ⟨rfl, -⟩⟩ := hcases i x hx
    · exact hg.below i y hy (fun hi => hfixed (hi.stay hstay)) m (hsame ▸ hm)
    · exact absurd (hn.stay hstay) hfixed

/-! ### What the order gives -/

theorem Ordered.isRetired (hg : g.Ordered) (hn : n < g.size) : g.isRetired n = false := by
  obtain ⟨x, hx⟩ := exists_node_of_lt hn
  refine isRetired_eq_false.mpr ⟨x, hx, fun hret => hg.inUse n ?_⟩
  rw [kind?, hx, Option.map_some, hret]

/-- No edge leads nowhere. -/
theorem Ordered.input_inUse (hg : g.Ordered) {i : NodeId} (hi : i ∈ g.inputs n) :
    g.isRetired i = false := by
  obtain ⟨x, hx, hblock | hoperand⟩ := mem_inputs.mp hi
  · exact hg.isRetired (lt_size_of_kind? (hg.block n x i hx hblock))
  · refine hg.isRetired (hg.mirrored.lt_size (u := n) ?_)
    rw [operands_of_shape?, hx]
    exact hoperand

/-- What a node binds is an operand of it and had all its operands when it was made. -/
theorem Ordered.binds (hg : g.Ordered) {m : NodeId} (hb : g.Binds n m) :
    ¬ g.Extensible m ∧ (¬ g.Extensible n → m < n) := by
  obtain ⟨⟨hin, -⟩, y, hy, hbreak⟩ := hb
  have hkind : g.kind? m = some y.op := by rw [kind?, hy]; rfl
  have hplain : ∀ op, g.kind? m = some op → op.isLoopBreaker = false := by
    intro op hop
    rw [hkind] at hop
    exact Option.some.inj hop ▸ hbreak
  obtain ⟨x, hx, hblock | hoperand⟩ := mem_inputs.mp hin
  · exact absurd (hplain _ (hg.block n x m hx hblock)) (by decide)
  · refine ⟨?_, fun hn => hg.below n x hx hn m hoperand⟩
    rintro (rfl | ⟨op, hop, htrue⟩)
    · exact hg.stop n x hx hoperand
    · exact absurd htrue (Bool.eq_false_iff.mp (hplain op hop))

/-- Along a cycle the ids would have to descend. -/
theorem Ordered.acyclic (hg : g.Ordered) (n : NodeId) : ¬ Relation.TransGen g.Binds n n := by
  intro hcycle
  have hfixed : ∀ m, Relation.TransGen g.Binds n m → ¬ g.Extensible m := by
    intro m hpath
    cases hpath with
    | single hb => exact (hg.binds hb).1
    | tail _ hb => exact (hg.binds hb).1
  have hdown : ∀ m, Relation.TransGen g.Binds n m → m < n := by
    intro m hpath
    induction hpath with
    | single hb => exact (hg.binds hb).2 (hfixed n hcycle)
    | tail hpath hb ih => exact Nat.lt_trans ((hg.binds hb).2 (hfixed _ hpath)) ih
  exact Nat.lt_irrefl n (hdown n hcycle)

theorem Ordered.not_knotted (hg : g.Ordered) : ¬ g.Knotted :=
  fun ⟨n, _, hcycle⟩ => hg.acyclic n hcycle

theorem Ordered.not_dangles (hg : g.Ordered) : ¬ g.Dangles := by
  rintro (⟨n, m, -, hm, hret⟩ | ⟨n, hn, hret⟩)
  · rw [hg.input_inUse hm] at hret
    cases hret
  · have hroot : ∀ n ∈ [Anchor.stop, Anchor.start, Anchor.bad], n ≤ Anchor.bad := by decide
    rw [hg.isRetired (Nat.lt_of_le_of_lt (hroot n hn) hg.bad_lt)] at hret
    cases hret

theorem Ordered.exists_walk (hg : g.Ordered) : ∃ w, Walk.run g = .ok w ∧ w.dangling = [] := by
  obtain ⟨w, hw⟩ := Walk.exists_run hg.bad_lt hg.not_knotted
  refine ⟨w, hw, List.eq_nil_iff_forall_not_mem.mpr fun ⟨u, t⟩ hmem => ?_⟩
  obtain ⟨-, ht, hret⟩ := ((Walk.complete_of_run hw).mem_dangling u t).mp hmem
  rw [hg.input_inUse ht] at hret
  cases hret

theorem Ordered.exists_analyze (hg : g.Ordered) : ∃ r, g.analyze = .ok r := by
  obtain ⟨hdangles, -⟩ | ⟨-, hr⟩ := analyze_of_not_knotted hg.mirrored hg.bad_lt hg.not_knotted
  · exact absurd hdangles hg.not_dangles
  · exact hr

end Graph

namespace Builder

variable {α β : Type} {g h : Graph} {P : α → Graph → Prop} {Q : β → Graph → Prop}

/-! ### Constructions -/

/-- On `g` the construction succeeds, keeps the order and the kinds, and makes `Q` true. -/
def Makes (g : Graph) (x : Build α) (Q : α → Graph → Prop) : Prop :=
  ∃ a h, x g = .ok (a, h) ∧ h.Ordered ∧ g.KindsStay h ∧ Q a h

/-- The id handed out can be used. -/
abbrev Gives (g : Graph) (x : Build NodeId) : Prop := Makes g x fun n h => h.Offers n

theorem Makes.pure {a : α} (hg : g.Ordered) (ha : P a g) : Makes g (pure a) P :=
  ⟨a, g, rfl, hg, .refl g, ha⟩

theorem Makes.bind {x : Build α} {f : α → Build β} (hx : Makes g x P)
    (hf : ∀ a h, h.Ordered → g.KindsStay h → P a h → Makes h (f a) Q) : Makes g (x >>= f) Q := by
  obtain ⟨a, h, hrun, hh, hgh, ha⟩ := hx
  obtain ⟨b, k, hrun', hk, hhk, hb⟩ := hf a h hh hgh ha
  refine ⟨b, k, ?_, hk, hgh.trans hhk, hb⟩
  show (x g >>= fun p => f p.1 p.2) = _
  rw [bind_of_ok hrun]
  exact hrun'

theorem gives_add {op : Op} {mode : Mode} {block : Option NodeId} {operands : List NodeId}
    (hg : g.Ordered) (hop : op ≠ .retired)
    (hblock : ∀ b, block = some b → g.kind? b = some .block)
    (hoperands : ∀ o ∈ operands, g.Offers o) : Gives g (add op mode block operands) := by
  have hall : operands.all (· < g.size) = true := by
    simpa using fun o ho => (hoperands o ho).1
  obtain ⟨⟨n, h⟩, hadd⟩ : ∃ r, g.addNode op mode block operands = .ok r := by
    rw [Graph.addNode, if_pos hall]
    exact ⟨_, rfl⟩
  obtain ⟨hh, hgh⟩ := hg.addNode hop hblock hoperands hadd
  obtain ⟨rfl, hsize, -⟩ := Graph.addNode_eq_ok hadd
  have hstop : Anchor.stop < g.size := Nat.lt_trans (by decide) hg.bad_lt
  exact ⟨_, h, hadd, hh, hgh, hsize ▸ Nat.lt_succ_self _, Nat.ne_of_gt hstop⟩

/-- A node in a block. -/
theorem gives_addIn {op : Op} {mode : Mode} {b : NodeId} {operands : List NodeId} (hg : g.Ordered)
    (hop : op ≠ .retired) (hb : g.kind? b = some .block) (hoperands : ∀ o ∈ operands, g.Offers o) :
    Gives g (add op mode (some b) operands) :=
  gives_add hg hop (fun _ hc => Option.some.inj hc ▸ hb) hoperands

theorem makes_link {n o : NodeId} (hg : g.Ordered) (hn : g.Extensible n) (ho : g.Offers o) :
    Makes g (link n o) fun _ _ => True := by
  have hlt : n < g.size := by
    obtain rfl | ⟨op, hop, -⟩ := hn
    · exact Graph.lt_size_of_kind? hg.stop_kind
    · exact Graph.lt_size_of_kind? hop
  obtain ⟨h, hadd⟩ : ∃ h, g.addOperand n o = .ok h := by
    rw [Graph.addOperand, if_pos ⟨hlt, ho.1⟩]
    exact ⟨_, rfl⟩
  obtain ⟨hh, hgh⟩ := hg.addOperand hn ho hadd
  refine ⟨(), h, ?_, hh, hgh, trivial⟩
  rw [link, hadd]
  rfl

theorem makes_modeOf {n : NodeId} (hg : g.Ordered) (hn : g.Offers n) :
    Makes g (modeOf n) fun _ _ => True := by
  obtain ⟨x, hx⟩ := Graph.exists_node_of_lt hn.1
  refine ⟨x.mode, g, ?_, hg, .refl g, trivial⟩
  rw [modeOf, Graph.node_eq_ok_iff.mpr hx]
  rfl

/-- A projection of the start node is found or made. -/
theorem gives_fromStart (kind : Projection) (mode : Mode) (hg : g.Ordered) :
    Gives g (fromStart kind mode) := by
  have hstart : g.Offers Anchor.start := ⟨Nat.lt_trans (by decide) hg.bad_lt, by decide⟩
  obtain ⟨x, hx⟩ := Graph.exists_node_of_lt hstart.1
  obtain ⟨found, hfound⟩ := Graph.exists_select (·.op == .proj kind) (hg.mirrored.user_lt hx)
  have hproj : g.proj Anchor.start kind = .ok found.head? := by
    rw [Graph.proj, bind_of_ok (Graph.node_eq_ok_iff.mpr hx), bind_of_ok hfound]
    rfl
  refine Makes.bind (P := fun p h => h = g ∧ p = found.head?)
    ⟨found.head?, g, congrArg (Except.map fun p => (p, g)) hproj, hg, .refl g, rfl, rfl⟩ ?_
  rintro p h - - ⟨rfl, rfl⟩
  cases hhead : found.head? with
  | some n =>
    obtain ⟨-, y, hy, hop⟩ := (Graph.mem_select hfound).mp (List.mem_of_head? hhead)
    refine .pure hg ⟨Graph.lt_size_of_getElem? hy, ?_⟩
    rintro rfl
    have hkind := hg.stop_kind
    rw [Graph.kind?, hy, Option.map_some, beq_iff_eq.mp hop] at hkind
    cases hkind
  | none => exact gives_addIn hg (by nofun) (hg.anchors _ _ rfl) (by simpa using hstart)

/-- A node that acts on memory; both ids can be used. -/
theorem makes_acting {b : NodeId} {op : Op} {operands : List NodeId} (hg : g.Ordered)
    (hop : op ≠ .retired) (hb : g.kind? b = some .block) (hoperands : ∀ o ∈ operands, g.Offers o) :
    Makes g (acting b op operands) fun p h => h.Offers p.1 ∧ h.Offers p.2 := by
  refine (gives_addIn hg hop hb hoperands).bind fun tuple h hh hgh htuple => ?_
  refine (gives_addIn hh (by nofun) (hgh b _ hb) (by simpa using htuple)).bind
    fun after k hk hhk hafter => ?_
  exact .pure hk ⟨htuple.stay hhk, hafter⟩

theorem gives_result {b tuple : NodeId} {mode : Mode} (hg : g.Ordered)
    (hb : g.kind? b = some .block) (htuple : g.Offers tuple) : Gives g (result b tuple mode) :=
  gives_addIn hg (by nofun) hb (by simpa using htuple)

/-- A node that acts on memory and has a result. -/
theorem makes_actingResult {b : NodeId} {op : Op} {operands : List NodeId} {mode : Mode}
    (hg : g.Ordered) (hop : op ≠ .retired) (hb : g.kind? b = some .block)
    (hoperands : ∀ o ∈ operands, g.Offers o) :
    Makes g (do
      let (tuple, after) ← acting b op operands
      return (after, ← result b tuple mode)) fun p h => h.Offers p.1 ∧ h.Offers p.2 := by
  refine (makes_acting hg hop hb hoperands).bind fun ⟨tuple, after⟩ h hh hgh hp => ?_
  refine (gives_result hh (hgh b _ hb) hp.1).bind fun r k hk hhk hr => ?_
  exact .pure hk ⟨hp.2.stay hhk, hr⟩

theorem makes_division {b mem left right : NodeId} {op : Op} (hg : g.Ordered)
    (hop : op ≠ .retired) (hb : g.kind? b = some .block)
    (hoperands : ∀ o ∈ [mem, left, right], g.Offers o) :
    Makes g (division op b mem left right) fun p h => h.Offers p.1 ∧ h.Offers p.2 := by
  refine (makes_modeOf hg (hoperands left (by simp))).bind fun mode h hh hgh _ => ?_
  exact makes_actingResult hh hop (hgh b _ hb) fun o ho => (hoperands o ho).stay hgh

theorem makes_cond {b selector : NodeId} (hg : g.Ordered) (hb : g.kind? b = some .block)
    (hselector : g.Offers selector) :
    Makes g (cond b selector) fun p h => h.Offers p.1 ∧ h.Offers p.2 := by
  refine (gives_addIn hg (by nofun) hb (by simpa using hselector)).bind
    fun branch h hh hgh hbranch => ?_
  refine (gives_addIn hh (by nofun) (hgh b _ hb) (by simpa using hbranch)).bind
    fun onTrue k hk hhk htrue => ?_
  refine (gives_addIn hk (by nofun) (hhk b _ (hgh b _ hb)) (by simpa using hbranch.stay hhk)).bind
    fun onFalse l hl hkl hfalse => ?_
  exact .pure hl ⟨htrue.stay hkl, hfalse⟩

theorem makes_call {b mem : NodeId} {callee : String} {args : List NodeId} {mode : Option Mode}
    (hg : g.Ordered) (hb : g.kind? b = some .block) (hoperands : ∀ o ∈ mem :: args, g.Offers o) :
    Makes g (call b mem callee args mode) fun p h => ∀ n ∈ p.1 :: p.2.toList, h.Offers n := by
  refine (makes_acting hg (by nofun) hb hoperands).bind fun ⟨tuple, after⟩ h hh hgh hp => ?_
  cases mode with
  | none => exact .pure hh (by simpa using hp.2)
  | some m =>
    refine (gives_result hh (hgh b _ hb) hp.1).bind fun r k hk hhk hr => ?_
    exact .pure hk (by simpa using ⟨hp.2.stay hhk, hr⟩)

theorem gives_ret {b mem : NodeId} {values : List NodeId} (hg : g.Ordered)
    (hb : g.kind? b = some .block) (hoperands : ∀ o ∈ mem :: values, g.Offers o) :
    Gives g (ret b mem values) := by
  refine (gives_addIn hg (by nofun) hb hoperands).bind fun n h hh _ hn => ?_
  have hexit : h.Extensible Anchor.endBlock := .inr ⟨.block, hh.anchors _ _ rfl, rfl⟩
  exact (makes_link hh hexit hn).bind fun _ k hk hhk _ => .pure hk (hn.stay hhk)

/-! ### Calls -/

/-- The ids that a call takes as operands. -/
def Call.operands : Call → List NodeId
  | .memory | .argument .. | .constant _ | .jump _ => []
  | .block preds => preds
  | .addPred _ n | .cond _ n | .addPhiOperand _ n | .unary _ _ n | .conv _ n _ | .keepAlive n => [n]
  | .phi _ operands _ => operands
  | .binary _ _ left right | .cmp _ _ left right => [left, right]
  | .div _ mem left right | .modulo _ mem left right => [mem, left, right]
  | .load _ mem address _ => [mem, address]
  | .store _ mem address value => [mem, address, value]
  | .call _ mem _ args _ => mem :: args
  | .ret _ mem values => mem :: values

/-- The ids that a call takes for blocks. -/
def Call.blocks : Call → List NodeId
  | .memory | .argument .. | .constant _ | .block _ | .addPhiOperand .. | .keepAlive _ => []
  | .addPred b _ | .jump b | .cond b _ | .phi b _ _ | .binary b _ _ _ | .cmp b _ _ _
  | .unary b _ _ | .conv b _ _ | .div b _ _ _ | .modulo b _ _ _ | .load b _ _ _ | .store b _ _ _
  | .call b _ _ _ _ | .ret b _ _ => [b]

/-- The ids that a call takes for phis. -/
def Call.phis : Call → List NodeId
  | .addPhiOperand p _ => [p]
  | _ => []

/-- The kind that a call asks for by itself. -/
def Call.kinds : Call → List Op
  | .unary _ op _ => [op]
  | _ => []

/-- The call makes sense on the graph built so far. -/
structure Call.Allowed (c : Call) (g : Graph) : Prop where
  operands : ∀ n ∈ c.operands, g.Offers n
  blocks : ∀ b ∈ c.blocks, g.kind? b = some .block
  phis : ∀ p ∈ c.phis, g.kind? p = some .phi
  kinds : ∀ op ∈ c.kinds, op = .minus ∨ op = .not

instance (c : Call) (g : Graph) : Decidable (c.Allowed g) :=
  decidable_of_iff ((∀ n ∈ c.operands, g.Offers n) ∧ (∀ b ∈ c.blocks, g.kind? b = some .block) ∧
      (∀ p ∈ c.phis, g.kind? p = some .phi) ∧ ∀ op ∈ c.kinds, op = .minus ∨ op = .not)
    ⟨fun ⟨ho, hb, hp, hk⟩ => ⟨ho, hb, hp, hk⟩, fun h => ⟨h.operands, h.blocks, h.phis, h.kinds⟩⟩

/-- What each call hands out can be used. -/
abbrev Call.Works (c : Call) (g : Graph) : Prop := Makes g c.run fun ids h => ∀ n ∈ ids, h.Offers n

theorem Gives.one {x : Build NodeId} (hx : Gives g x) :
    Makes g (do return [← x]) fun ids h => ∀ n ∈ ids, h.Offers n :=
  hx.bind fun _ _ hh _ hn => .pure hh (by simpa using hn)

theorem Makes.two {x : Build (NodeId × NodeId)}
    (hx : Makes g x fun p h => h.Offers p.1 ∧ h.Offers p.2) :
    Makes g (do
      let (a, b) ← x
      return [a, b]) fun ids h => ∀ n ∈ ids, h.Offers n :=
  hx.bind fun _ _ hh _ hp => .pure hh (by simpa using hp)

theorem Makes.nothing {x : Build Unit} (hx : Makes g x fun _ _ => True) :
    Makes g (do
      x
      return []) fun (ids : List NodeId) h => ∀ n ∈ ids, h.Offers n :=
  hx.bind fun _ _ hh _ _ => .pure hh nofun

theorem Call.Allowed.works {c : Call} (hc : c.Allowed g) (hg : g.Ordered) : c.Works g := by
  obtain ⟨hoperands, hblocks, hphis, hkinds⟩ := hc
  have hentry : g.kind? Anchor.startBlock = some .block := hg.anchors _ _ rfl
  cases c with
  | memory => exact (gives_fromStart .memory .memory hg).one
  | argument i m => exact (gives_fromStart (.argument i) m hg).one
  | constant v => exact (gives_addIn hg (by nofun) hentry (by nofun)).one
  | block ps => exact (gives_add hg (by nofun) (by nofun) hoperands).one
  | addPred b p =>
    have hb : g.Extensible b := .inr ⟨.block, hblocks b (.head _), rfl⟩
    exact (makes_link hg hb (hoperands p (.head _))).nothing
  | jump b => exact (gives_addIn hg (by nofun) (hblocks b (.head _)) (by nofun)).one
  | cond b s =>
    exact (makes_cond hg (hblocks b (.head _))
      (hoperands s (.head _))).two
  | phi b os m =>
    exact (gives_addIn hg (by nofun) (hblocks b (.head _)) hoperands).one
  | addPhiOperand p o =>
    have hp : g.Extensible p := .inr ⟨.phi, hphis p (.head _), rfl⟩
    exact (makes_link hg hp (hoperands o (.head _))).nothing
  | binary b op l r =>
    refine Gives.one ((makes_modeOf hg (hoperands l (.head _))).bind
      fun m h hh hgh _ => ?_)
    exact gives_addIn hh (by nofun) (hgh b _ (hblocks b (.head _)))
      fun o ho => (hoperands o ho).stay hgh
  | cmp b r x y =>
    exact (gives_addIn hg (by nofun) (hblocks b (.head _)) hoperands).one
  | unary b op x =>
    have hop : op ≠ .retired := by
      obtain rfl | rfl := hkinds op (.head _) <;> nofun
    refine Gives.one ((makes_modeOf hg (hoperands x (.head _))).bind
      fun m h hh hgh _ => ?_)
    exact gives_addIn hh hop (hgh b _ (hblocks b (.head _)))
      fun o ho => (hoperands o ho).stay hgh
  | conv b x m =>
    exact (gives_addIn hg (by nofun) (hblocks b (.head _)) hoperands).one
  | div b m l r =>
    exact (makes_division hg (by nofun) (hblocks b (.head _)) hoperands).two
  | modulo b m l r =>
    exact (makes_division hg (by nofun) (hblocks b (.head _)) hoperands).two
  | load b m p mode =>
    exact Makes.two
      (makes_actingResult hg (by nofun) (hblocks b (.head _)) hoperands)
  | store b m p v =>
    refine Gives.one ((makes_acting hg (by nofun) (hblocks b (.head _))
      hoperands).bind fun _ _ hh _ hp => ?_)
    exact .pure hh hp.2
  | call b m f as mode =>
    refine (makes_call hg (hblocks b (.head _)) hoperands).bind
      fun _ _ hh _ hp => ?_
    exact .pure hh hp
  | ret b m vs => exact (gives_ret hg (hblocks b (.head _)) hoperands).one
  | keepAlive n =>
    exact (makes_link hg (.inl rfl) (hoperands n (.head _))).nothing

/-! ### Runs -/

/-- Carries out calls one after another and lists the ids they hand out. -/
def runAll : List Call → Build (List NodeId)
  | [] => return []
  | c :: cs => return (← c.run) ++ (← runAll cs)

/-- Each call makes sense when its turn comes. -/
def AllAllowed : List Call → Graph → Prop
  | [], _ => True
  | c :: cs, g => c.Allowed g ∧ ∀ r ∈ (c.run g).toOption, AllAllowed cs r.2

instance decidableAllAllowed : (cs : List Call) → (g : Graph) → Decidable (AllAllowed cs g)
  | [], _ => .isTrue trivial
  | c :: cs, g =>
    have (h : Graph) : Decidable (AllAllowed cs h) := decidableAllAllowed cs h
    inferInstanceAs (Decidable (c.Allowed g ∧ ∀ r ∈ (c.run g).toOption, AllAllowed cs r.2))

theorem makes_runAll {calls : List Call} (hg : g.Ordered) (hcalls : AllAllowed calls g) :
    Makes g (runAll calls) fun ids h => ∀ n ∈ ids, h.Offers n := by
  induction calls generalizing g with
  | nil => exact .pure hg nofun
  | cons c cs ih =>
    obtain ⟨ids, h, hrun, hh, hgh, hids⟩ := hcalls.1.works hg
    obtain ⟨rest, k, hrest, hk, hhk, hfit⟩ := ih hh (hcalls.2 (ids, h) (by rw [hrun]; rfl))
    refine ⟨ids ++ rest, k, ?_, hk, hgh.trans hhk, fun n hn => ?_⟩
    · show (c.run g >>= fun p => runAll cs p.2 >>= fun q => .ok (p.1 ++ q.1, q.2)) = _
      rw [bind_of_ok hrun, bind_of_ok hrest]
    · obtain hn | hn := List.mem_append.mp hn
      · exact (hids n hn).stay hhk
      · exact hfit n hn

/-- Calls that make sense all succeed, and what they build has no edge that leads nowhere and no
cycle without a phi or block: it can be walked, analyzed and scheduled. -/
theorem runAll_analyzable (name : String) (params : Nat) (calls : List Call)
    (hcalls : AllAllowed calls (.new name params)) :
    ∃ ids g, runAll calls (.new name params) = .ok (ids, g) ∧ (∀ n ∈ ids, g.Offers n) ∧
      (∀ n, ∀ i ∈ g.inputs n, g.isRetired i = false) ∧
      (∀ n, ¬ Relation.TransGen g.Binds n n) ∧
      (∃ w, Walk.run g = .ok w ∧ w.dangling = []) ∧ (∃ r, g.analyze = .ok r) ∧
      ∃ s, Execution.schedule g = .ok s := by
  obtain ⟨ids, g, hrun, hg, -, hids⟩ := makes_runAll (Graph.ordered_new name params) hcalls
  exact ⟨ids, g, hrun, hids, fun _ _ => hg.input_inUse, hg.acyclic, hg.exists_walk,
    hg.exists_analyze, Execution.exists_schedule hg.bad_lt hg.not_knotted⟩

/-- A loop that divides while the quotient is small; its back edges are added at the end. -/
def dividingLoop : List Call :=
  [.memory, .constant (.int .i32 7), .jump Anchor.startBlock, .block [7],
    .phi 8 [6] (.int .i32), .phi 8 [5] .memory, .div 8 10 9 6, .cmp 8 .less 13 6, .cond 8 14,
    .addPred 8 16, .addPhiOperand 9 13, .addPhiOperand 10 12,
    .block [17], .unary 18 .minus 9, .ret 18 12 [19], .keepAlive 8]

theorem runAll_analyzable_dividingLoop :
    AllAllowed dividingLoop (.new "divide" 0) ∧
    ∃ ids g, runAll dividingLoop (.new "divide" 0) = .ok (ids, g) ∧ (∀ n ∈ ids, g.Offers n) ∧
      (∀ n, ∀ i ∈ g.inputs n, g.isRetired i = false) ∧
      (∀ n, ¬ Relation.TransGen g.Binds n n) ∧
      (∃ w, Walk.run g = .ok w ∧ w.dangling = []) ∧ (∃ r, g.analyze = .ok r) ∧
      ∃ s, Execution.schedule g = .ok s := by
  have hallowed : AllAllowed dividingLoop (.new "divide" 0) := by decide +kernel
  exact ⟨hallowed, runAll_analyzable "divide" 0 dividingLoop hallowed⟩

end Builder

end SeaOfNodes
