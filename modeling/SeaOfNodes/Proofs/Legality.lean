import SeaOfNodes.Proofs.Sweeping

/-!
The check of a graph decides which graphs are legal (`Graph.Built.verify_iff_legal`).

`Graph.Legal` states the rules without the walk, the table of consumed states and the search that
the check runs with. Three facts tie them together. The walk ends without a dangling edge exactly if
there is no knot and nothing live has a retired input. The table holds the states that the nodes
looked at so far consume (`Graph.Noted`), so it meets every fork, whatever the order of the nodes. And
the search from the entry finds the blocks that paths of control edges lead to.
-/

namespace SeaOfNodes

namespace Graph

/-- The first operand of `x` is `m`, and `m` has the given mode. -/
def Starts (g : Graph) (x : Node) (mode : Mode) (m : NodeId) : Prop :=
  x.operands.head? = some m ∧ ∃ y, g.nodes[m]? = some y ∧ y.mode = mode

/-- Number of projections of the memory state that the users of `n` make. -/
def memoryProjections (g : Graph) (n : NodeId) : Nat :=
  (g.users n).countP fun u => g.nodes[u]?.any (·.op == .proj .memory)

/-- Branches select on booleans, and the nodes that act on memory form chains. -/
structure Chained (g : Graph) : Prop where
  selector : ∀ n x, g.Live n → g.nodes[n]? = some x → x.op = .cond → ∃ s, g.Starts x .bool s
  memory : ∀ n x, g.Live n → g.nodes[n]? = some x → x.op.usesMemory = true →
    ∃ m, g.Starts x .memory m
  unforked : ∀ n n' x x' b m, g.Live n → g.Live n' → g.nodes[n]? = some x →
    g.nodes[n']? = some x' → x.op.usesMemory = true → x'.op.usesMemory = true →
    x.block = some b → x'.block = some b → x.operands.head? = some m →
    x'.operands.head? = some m → n = n'
  result : ∀ n x, g.Live n → g.nodes[n]? = some x → x.op.producesMemory = true →
    g.memoryProjections n = 1

/-- The rules that a graph has to obey, as far as its live nodes go. -/
structure Legal (g : Graph) : Prop extends Chained g where
  unknotted : ¬ g.Knotted
  inUse : ∀ n m, g.Live n → m ∈ g.inputs n → g.isRetired m = false
  users : ∀ n o, g.Live n → o ∈ g.operands n → (g.operands n).count o = (g.users o).count n
  predecessor : ∀ b x, g.Live b → g.nodes[b]? = some x → x.op = .block →
    ∀ p ∈ x.operands, p ≠ Anchor.bad ∧ ∃ y, g.nodes[p]? = some y ∧ entersBlock b y.op = true
  phi : ∀ n x, g.Live n → g.nodes[n]? = some x → x.op = .phi →
    ∃ b y, x.block = some b ∧ g.nodes[b]? = some y ∧ y.op = .block ∧
      x.operands.length = y.operands.length
  connected : g.Connected

/-! ### One node -/

/-- What the check asks of the node `n` by itself. -/
structure Ruled (g : Graph) (n : NodeId) (x : Node) : Prop where
  predecessor : x.op = .block →
    ∀ p ∈ x.operands, p ≠ Anchor.bad ∧ ∃ y, g.nodes[p]? = some y ∧ entersBlock n y.op = true
  phi : x.op = .phi → ∃ b y, x.block = some b ∧ g.nodes[b]? = some y ∧ y.op = .block ∧
    x.operands.length = y.operands.length
  selector : x.op = .cond → ∃ s, g.Starts x .bool s
  memory : x.op.usesMemory = true → ∃ m, g.Starts x .memory m
  result : x.op.producesMemory = true → g.memoryProjections n = 1

variable {g : Graph} {n : NodeId} {x : Node}

theorem exists_firstHasMode (hm : g.Mirrored) (hx : g.nodes[n]? = some x) (mode : Mode) :
    ∃ first, g.firstHasMode x mode = .ok first ∧ ∀ m, first = some m ↔ g.Starts x mode m := by
  cases hhead : x.operands.head? with
  | none => exact ⟨none, by rw [firstHasMode, hhead], fun m => by simp [Starts, hhead]⟩
  | some o =>
    have ho : o ∈ g.operands n := by
      rw [operands_eq hx]
      exact List.mem_of_mem_head? hhead
    obtain ⟨y, hy⟩ := exists_node_of_lt (hm.lt_size ho)
    refine ⟨if y.mode = mode then some o else none, ?_, fun m => ?_⟩
    · rw [firstHasMode, hhead]
      exact bind_of_ok (node_eq_ok_iff.mpr hy)
    · rw [Starts, hhead, Option.some_inj]
      constructor
      · intro h
        split at h
        next hmode =>
          cases h
          exact ⟨rfl, y, hy, hmode⟩
        next => cases h
      · rintro ⟨rfl, z, hz, hmode⟩
        rw [hy] at hz
        cases hz
        exact if_pos hmode

theorem checkPredecessors_eq_ok_iff {b : NodeId} :
    g.checkPredecessors b x = .ok () ↔
      ∀ p ∈ x.operands, p ≠ Anchor.bad ∧ ∃ y, g.nodes[p]? = some y ∧ entersBlock b y.op = true := by
  refine ⟨checkPredecessors_eq_ok, fun h => forM_of_eq_ok fun p hp => ?_⟩
  obtain ⟨hbad, y, hy, henters⟩ := h p hp
  rw [if_neg hbad, bind_of_ok (node_eq_ok_iff.mpr hy)]
  exact if_pos henters

theorem checkPhi_eq_ok_iff :
    g.checkPhi n x = .ok () ↔ ∃ b y, x.block = some b ∧ g.nodes[b]? = some y ∧ y.op = .block ∧
      x.operands.length = y.operands.length := by
  refine ⟨checkPhi_eq_ok, ?_⟩
  rintro ⟨b, y, hb, hy, hop, hlen⟩
  rw [checkPhi, hb]
  show (g.node b >>= fun y => _) = _
  rw [bind_of_ok (node_eq_ok_iff.mpr hy), if_neg (not_not.mpr hop)]
  exact if_pos hlen

theorem checkKind_eq_ok_iff (hm : g.Mirrored) (hx : g.nodes[n]? = some x) :
    g.checkKind n x = .ok () ↔
      (x.op = .block → ∀ p ∈ x.operands,
        p ≠ Anchor.bad ∧ ∃ y, g.nodes[p]? = some y ∧ entersBlock n y.op = true) ∧
      (x.op = .phi → ∃ b y, x.block = some b ∧ g.nodes[b]? = some y ∧ y.op = .block ∧
        x.operands.length = y.operands.length) ∧
      (x.op = .cond → ∃ s, g.Starts x .bool s) := by
  unfold checkKind
  split
  next hop => simp [hop, checkPredecessors_eq_ok_iff]
  next hop => simp [hop, checkPhi_eq_ok_iff]
  next hop =>
    obtain ⟨first, hfirst, hiff⟩ := exists_firstHasMode hm hx .bool
    rw [bind_of_ok hfirst]
    simp only [hop, reduceCtorEq, false_imp_iff, true_and, forall_const, ← hiff]
    cases first with
    | none => exact iff_of_false (fun h => by cases h) (by simp)
    | some s => exact iff_of_true rfl ⟨s, rfl⟩
  next hblock hphi hcond =>
    exact iff_of_true rfl
      ⟨fun h => absurd h hblock, fun h => absurd h hphi, fun h => absurd h hcond⟩

/-- A node that acts on memory has its state noted together with its block, if it stands in one. -/
theorem checkMemoryUse_eq_ok_iff (hm : g.Mirrored) (hx : g.nodes[n]? = some x) {c c' : Consumers} :
    g.checkMemoryUse c n x = .ok c' ↔
      x.op.usesMemory = false ∧ c' = c ∨
      x.op.usesMemory = true ∧ ∃ m, g.Starts x .memory m ∧
        (x.block = none ∧ c' = c ∨
          ∃ b, x.block = some b ∧ c.lookup (b, m) = none ∧ c' = ((b, m), n) :: c) := by
  unfold checkMemoryUse
  cases hop : x.op.usesMemory with
  | false =>
    simp only [Bool.false_eq_true, if_false, true_and, false_and, or_false]
    exact ⟨fun h => (Except.ok.inj h).symm, fun h => h ▸ rfl⟩
  | true =>
    obtain ⟨first, hfirst, hiff⟩ := exists_firstHasMode hm hx .memory
    rw [if_pos rfl, bind_of_ok hfirst]
    simp only [Bool.true_eq_false, false_and, true_and, false_or, ← hiff]
    cases first with
    | none => exact iff_of_false (fun h => by cases h) (by simp)
    | some m =>
      simp only [Option.some_inj, exists_eq_left']
      cases hb : x.block with
      | none =>
        simp only [true_and, reduceCtorEq, false_and, exists_false, or_false]
        exact ⟨fun h => (Except.ok.inj h).symm, fun h => h ▸ rfl⟩
      | some b =>
        simp only [reduceCtorEq, false_and, Option.some_inj, exists_eq_left', false_or]
        cases hlook : c.lookup (b, m) with
        | some other => exact iff_of_false (fun h => by cases h) (by simp)
        | none =>
          simp only [true_and]
          exact ⟨fun h => (Except.ok.inj h).symm, fun h => h ▸ rfl⟩

theorem checkMemoryResult_eq_ok_iff (hm : g.Mirrored) (hx : g.nodes[n]? = some x) :
    g.checkMemoryResult n x = .ok () ↔
      (x.op.producesMemory = true → g.memoryProjections n = 1) := by
  unfold checkMemoryResult
  split
  next hop =>
    obtain ⟨out, hout⟩ := exists_select (·.op == .proj .memory) (hm.user_lt hx)
    have hcount : out.length = g.memoryProjections n := by
      rw [select_eq_filter hout, memoryProjections, users_eq hx, List.countP_eq_length_filter]
    rw [bind_of_ok hout, hcount]
    split
    next hone => exact iff_of_true rfl fun _ => hone
    next hne => exact iff_of_false (fun h => by cases h) fun h => hne (h hop)
  next hop => exact iff_of_true rfl fun h => absurd h hop

/-- A node passes if it obeys the rules and nothing before it consumed its state. -/
theorem checkNode_eq_ok_iff (hm : g.Mirrored) (hx : g.nodes[n]? = some x) {c c' : Consumers} :
    g.checkNode c n = .ok c' ↔ g.Ruled n x ∧ g.checkMemoryUse c n x = .ok c' := by
  have hstart (h : g.checkMemoryUse c n x = .ok c') (hop : x.op.usesMemory = true) :
      ∃ m, g.Starts x .memory m := by
    rcases (checkMemoryUse_eq_ok_iff hm hx).mp h with ⟨hno, -⟩ | ⟨-, m, hstart, -⟩
    · rw [hop] at hno
      cases hno
    · exact ⟨m, hstart⟩
  unfold checkNode
  rw [bind_of_ok (node_eq_ok_iff.mpr hx), bind_of_ok (checkUsers_eq_ok hm hx)]
  constructor
  · intro h
    obtain ⟨⟨⟩, hkind, h⟩ := bind_eq_ok.mp h
    obtain ⟨c₁, huse, h⟩ := bind_eq_ok.mp h
    obtain ⟨⟨⟩, hresult, h⟩ := bind_eq_ok.mp h
    cases h
    obtain ⟨hblock, hphi, hcond⟩ := (checkKind_eq_ok_iff hm hx).mp hkind
    exact ⟨⟨hblock, hphi, hcond, hstart huse, (checkMemoryResult_eq_ok_iff hm hx).mp hresult⟩, huse⟩
  · rintro ⟨hruled, huse⟩
    rw [bind_of_ok ((checkKind_eq_ok_iff hm hx).mpr
        ⟨hruled.predecessor, hruled.phi, hruled.selector⟩), bind_of_ok huse,
      bind_of_ok ((checkMemoryResult_eq_ok_iff hm hx).mpr hruled.result)]
    rfl

/-! ### All nodes -/

/-- What is known of the states noted so far: the nodes that were looked at and consume one are
noted, and nothing else is. -/
structure Noted (g : Graph) (done : List NodeId) (c : Consumers) : Prop where
  noted : ∀ n ∈ done, ∀ x b m, g.nodes[n]? = some x → x.op.usesMemory = true → x.block = some b →
    x.operands.head? = some m → c.lookup (b, m) = some n
  only : ∀ b m n, c.lookup (b, m) = some n → n ∈ done ∧ ∃ x, g.nodes[n]? = some x ∧
    x.op.usesMemory = true ∧ x.block = some b ∧ x.operands.head? = some m

/-- A node that consumes no state in a block leaves the table as it is. -/
theorem Noted.pass {done : List NodeId} {c : Consumers} (hc : g.Noted done c)
    (hx : g.nodes[n]? = some x) (hidle : x.op.usesMemory = false ∨ x.block = none) :
    g.Noted (done ++ [n]) c := by
  refine ⟨fun k hk y b m hy hyop hyb => ?_, fun b m k hk =>
    (hc.only b m k hk).imp_left (List.mem_append_left _)⟩
  rcases List.mem_append.mp hk with hk | hk
  · exact hc.noted k hk y b m hy hyop hyb
  · obtain rfl := List.mem_singleton.mp hk
    rw [hx] at hy
    cases hy
    rcases hidle with hop | hb
    · rw [hop] at hyop
      cases hyop
    · rw [hb] at hyb
      cases hyb

/-- A node that consumes a state in a block is noted, if no other node was for that state. -/
theorem Noted.note {done : List NodeId} {c : Consumers} (hc : g.Noted done c)
    (hx : g.nodes[n]? = some x) (hop : x.op.usesMemory = true) {b m : NodeId}
    (hb : x.block = some b) (hm : x.operands.head? = some m) (hnone : c.lookup (b, m) = none) :
    g.Noted (done ++ [n]) (((b, m), n) :: c) := by
  refine ⟨fun k hk y b' m' hy hyop hyb hym => ?_, fun b' m' k hk => ?_⟩
  · rw [List.lookup_cons]
    rcases List.mem_append.mp hk with hk | hk
    · have hlook := hc.noted k hk y b' m' hy hyop hyb hym
      have hne : ((b', m') == (b, m)) = false := by
        rw [beq_eq_false_iff_ne]
        intro heq
        rw [heq, hnone] at hlook
        cases hlook
      rw [hne]
      exact hlook
    · obtain rfl := List.mem_singleton.mp hk
      rw [hx] at hy
      cases hy
      obtain rfl := Option.some.inj (hb.symm.trans hyb)
      obtain rfl := Option.some.inj (hm.symm.trans hym)
      rw [beq_self_eq_true]
  · rw [List.lookup_cons] at hk
    split at hk
    next heq =>
      cases hk
      cases beq_iff_eq.mp heq
      exact ⟨List.mem_append_right _ List.mem_cons_self, x, hx, hop, hb, hm⟩
    next => exact (hc.only b' m' k hk).imp_left (List.mem_append_left _)

theorem Noted.check (hm : g.Mirrored) {done : List NodeId} {c c' : Consumers}
    (hc : g.Noted done c) (hx : g.nodes[n]? = some x) (h : g.checkMemoryUse c n x = .ok c') :
    g.Noted (done ++ [n]) c' := by
  rcases (checkMemoryUse_eq_ok_iff hm hx).mp h with
    ⟨hop, rfl⟩ | ⟨hop, m, hstart, ⟨hb, rfl⟩ | ⟨b, hb, hnone, rfl⟩⟩
  · exact hc.pass hx (.inl hop)
  · exact hc.pass hx (.inr hb)
  · exact hc.note hx hop hb hstart.1 hnone

/-- The live nodes pass if each of them obeys the rules and no two consume the same state in one
block, and only then. -/
theorem checkNodes_iff (hm : g.Mirrored) (hsize : Anchor.bad < g.size) {order : List NodeId}
    (hnodup : order.Nodup) (hmem : ∀ n, n ∈ order ↔ g.Live n) :
    (∃ c, order.foldlM g.checkNode [] = .ok c) ↔
      (∀ n x, g.Live n → g.nodes[n]? = some x → g.Ruled n x) ∧
      ∀ n n' x x' b m, g.Live n → g.Live n' → g.nodes[n]? = some x → g.nodes[n']? = some x' →
        x.op.usesMemory = true → x'.op.usesMemory = true → x.block = some b →
        x'.block = some b → x.operands.head? = some m → x'.operands.head? = some m → n = n' := by
  have hnode : ∀ n, g.Live n → ∃ x, g.nodes[n]? = some x := fun n hn =>
    exists_node_of_lt (hn.lt_size hsize)
  have hempty : g.Noted [] [] := ⟨by simp, by simp⟩
  constructor
  · rintro ⟨c, hc⟩
    obtain ⟨hall, hnoted⟩ := foldlM_eq_ok
      (I := fun done c => (∀ n ∈ done, ∀ x, g.nodes[n]? = some x → g.Ruled n x) ∧ g.Noted done c)
      hc ⟨by simp, hempty⟩ fun done n rest c c' hsplit hdone hturn => by
        obtain ⟨x, hx⟩ := hnode n ((hmem n).mp (by simp [hsplit]))
        obtain ⟨hruled, huse⟩ := (checkNode_eq_ok_iff hm hx).mp hturn
        refine ⟨fun k hk y hy => ?_, hdone.2.check hm hx huse⟩
        rcases List.mem_append.mp hk with hk | hk
        · exact hdone.1 k hk y hy
        · obtain rfl := List.mem_singleton.mp hk
          rw [hx] at hy
          cases hy
          exact hruled
    refine ⟨fun n x hn hx => hall n ((hmem n).mpr hn) x hx, ?_⟩
    intro n n' x x' b m hn hn' hx hx' hop hop' hb hb' hhead hhead'
    have hlook := hnoted.noted n ((hmem n).mpr hn) x b m hx hop hb hhead
    rw [hnoted.noted n' ((hmem n').mpr hn') x' b m hx' hop' hb' hhead'] at hlook
    exact (Option.some.inj hlook).symm
  · rintro ⟨hruled, hunforked⟩
    refine (exists_foldlM (I := g.Noted) hempty fun done n rest c hsplit hdone => ?_).imp
      fun _ h => h.1
    have hn : g.Live n := (hmem n).mp (by simp [hsplit])
    obtain ⟨x, hx⟩ := hnode n hn
    have huse : ∃ c', g.checkMemoryUse c n x = .ok c' := by
      simp only [checkMemoryUse_eq_ok_iff hm hx]
      cases hop : x.op.usesMemory with
      | false => exact ⟨c, .inl ⟨rfl, rfl⟩⟩
      | true =>
        obtain ⟨m, hstart⟩ := (hruled n x hn hx).memory hop
        cases hb : x.block with
        | none => exact ⟨c, .inr ⟨rfl, m, hstart, .inl ⟨rfl, rfl⟩⟩⟩
        | some b =>
          refine ⟨_, .inr ⟨rfl, m, hstart, .inr ⟨b, rfl, ?_, rfl⟩⟩⟩
          -- Another consumer in the block would be a node that was looked at before.
          cases hlook : c.lookup (b, m) with
          | none => rfl
          | some k =>
            obtain ⟨hk, y, hy, hyop, hyb, hym⟩ := hdone.only b m k hlook
            have hklive : g.Live k := (hmem k).mp (by simp [hsplit, hk])
            obtain rfl := hunforked n k x y b m hn hklive hx hy hop hyop hb hyb hstart.1 hym
            rw [hsplit, List.nodup_append] at hnodup
            exact absurd rfl (hnodup.2.2 n hk n List.mem_cons_self)
    obtain ⟨c', huse⟩ := huse
    exact ⟨c', (checkNode_eq_ok_iff hm hx).mpr ⟨hruled n x hn hx, huse⟩, hdone.check hm hx huse⟩

/-! ### The whole check -/

/-- A walk that leaves no edge dangling has found neither a knot nor a retired input. -/
theorem exists_walk_iff (hsize : Anchor.bad < g.size) :
    (∃ w, Walk.run g = .ok w ∧ w.dangling = []) ↔
      ¬ g.Knotted ∧ ∀ n m, g.Live n → m ∈ g.inputs n → g.isRetired m = false := by
  constructor
  · rintro ⟨w, hw, hdangling⟩
    have hcomplete := Walk.complete_of_run hw
    refine ⟨hcomplete.not_knotted, fun n m hn hm => ?_⟩
    cases hret : g.isRetired m with
    | false => rfl
    | true =>
      have hmem := (hcomplete.mem_dangling n m).mpr ⟨hn, hm, hret⟩
      rw [hdangling] at hmem
      cases hmem
  · rintro ⟨hknot, huse⟩
    obtain ⟨w, hw⟩ := Walk.exists_run hsize hknot
    refine ⟨w, hw, List.eq_nil_iff_forall_not_mem.mpr fun ⟨n, m⟩ hmem => ?_⟩
    obtain ⟨hn, hm, hret⟩ := ((Walk.complete_of_run hw).mem_dangling n m).mp hmem
    rw [huse n m hn hm] at hret
    cases hret

/-- After such a walk the check is about the nodes one by one, and about control flow. -/
theorem verify_iff_of_walk (hsize : Anchor.bad < g.size) {w : Walk} (hw : Walk.run g = .ok w)
    (hdangling : w.dangling = []) :
    g.verify = .ok () ↔ (∃ c, w.order.foldlM g.checkNode [] = .ok c) ∧ g.Connected := by
  have hcomplete := Walk.complete_of_run hw
  have horder : ∀ n ∈ w.order, n < g.size := fun n hn =>
    ((hcomplete.mem_order n).mp hn).lt_size hsize
  obtain ⟨blocks, hblocks⟩ := exists_select (g := g) (·.op == .block) horder
  have hmem : ∀ b, b ∈ blocks ↔ g.Live b ∧ ∃ x, g.shape? b = some x ∧ x.op = .block := by
    intro b
    rw [mem_select hblocks, hcomplete.mem_order]
    simp [shape?, Node.shape]
  obtain ⟨reachable, hreach⟩ := exists_reachableBlocks (g := g)
    (Nat.lt_of_le_of_lt (Nat.zero_le _) hsize) fun b hb => ((hmem b).mp hb).1.lt_size hsize
  have hflow (b : NodeId) : reachable.contains b = true ↔
      Relation.ReflTransGen g.Flows Anchor.startBlock b := by
    rw [contains_reachableBlocks hreach]
    refine iff_of_eq (congrArg (fun r => Relation.ReflTransGen r Anchor.startBlock b) ?_)
    funext s t
    simp only [Follows, Flows, FlowsAmong, hmem, and_assoc]
  have hconnected : (blocks.find? fun b => b != Anchor.endBlock && !reachable.contains b) = none ↔
      g.Connected := by
    simp only [List.find?_eq_none, hmem, Bool.and_eq_true, bne_iff_ne, Bool.not_eq_true', not_and,
      Bool.not_eq_false, hflow]
    constructor
    · intro h b x hb hx hop hend
      exact h b ⟨hb, x, hx, hop⟩ hend
    · rintro h b ⟨hb, x, hx, hop⟩ hend
      exact h b x hb hx hop hend
  unfold verify
  simp only [hw, hdangling]
  rw [← hconnected]
  constructor
  · intro h
    obtain ⟨c, hc, h⟩ := bind_eq_ok.mp h
    rw [bind_of_ok hblocks, bind_of_ok hreach] at h
    refine ⟨⟨c, hc⟩, ?_⟩
    split at h
    next => cases h
    next hnone => exact hnone
  · rintro ⟨⟨c, hc⟩, hnone⟩
    rw [bind_of_ok hc, bind_of_ok hblocks, bind_of_ok hreach, hnone]
    rfl

/-- The check accepts a graph that the primitives made exactly if it is legal. -/
theorem Built.verify_iff_legal (hg : g.Built) : g.verify = .ok () ↔ g.Legal := by
  have hsize := hg.bad_lt_size
  constructor
  · intro h
    have hwalk : ∃ w, Walk.run g = .ok w ∧ w.dangling = [] := by
      unfold verify at h
      split at h
      next => cases h
      next => cases h
      next w hw =>
        split at h
        next => cases h
        next hdangling => exact ⟨w, hw, hdangling⟩
    obtain ⟨hknot, huse⟩ := (exists_walk_iff hsize).mp hwalk
    obtain ⟨w, hw, hdangling⟩ := hwalk
    have hcomplete := Walk.complete_of_run hw
    obtain ⟨hnodes, hconnected⟩ := (verify_iff_of_walk hsize hw hdangling).mp h
    obtain ⟨hruled, hunforked⟩ :=
      (checkNodes_iff hg.mirrored hsize hcomplete.nodup hcomplete.mem_order).mp hnodes
    exact
      { unknotted := hknot
        inUse := huse
        users := fun n o _ _ => (hg.mirrored n o).symm
        predecessor := fun b x hb hx => (hruled b x hb hx).predecessor
        phi := fun n x hn hx => (hruled n x hn hx).phi
        selector := fun n x hn hx => (hruled n x hn hx).selector
        memory := fun n x hn hx => (hruled n x hn hx).memory
        unforked := hunforked
        result := fun n x hn hx => (hruled n x hn hx).result
        connected := hconnected }
  · intro h
    obtain ⟨w, hw, hdangling⟩ := (exists_walk_iff hsize).mpr ⟨h.unknotted, h.inUse⟩
    have hcomplete := Walk.complete_of_run hw
    rw [verify_iff_of_walk hsize hw hdangling,
      checkNodes_iff hg.mirrored hsize hcomplete.nodup hcomplete.mem_order]
    exact ⟨⟨fun n x hn hx => ⟨h.predecessor n x hn hx, h.phi n x hn hx, h.selector n x hn hx,
      h.memory n x hn hx, h.result n x hn hx⟩, h.unforked⟩, h.connected⟩

/-- Both ways of a branch return with the state that the function began with. -/
def sharedState : List Edit :=
  [.addNode (.proj .memory) .memory (some Anchor.startBlock) [Anchor.start],
    .addNode (.proj (.argument 0)) .bool (some Anchor.startBlock) [Anchor.start],
    .addNode .cond .tuple (some Anchor.startBlock) [6],
    .addNode (.proj (.arm true)) .control (some Anchor.startBlock) [7],
    .addNode (.proj (.arm false)) .control (some Anchor.startBlock) [7],
    .addNode .block .block none [8],
    .addNode .block .block none [9],
    .addNode .ret .control (some 10) [5],
    .addNode .ret .control (some 11) [5],
    .addOperand Anchor.endBlock 12,
    .addOperand Anchor.endBlock 13]

/-- The same with one more return in block 10. -/
def forkedState : List Edit :=
  sharedState ++ [.addNode .ret .control (some 10) [5], .addOperand Anchor.endBlock 14]

/-- The state may be shared between blocks, but not within one. -/
theorem Built.verify_iff_legal_sharedState :
    (∃ g, sharedState.foldlM Graph.apply (.new "f" 1) = .ok g ∧ g.Built ∧ g.Legal) ∧
    ∃ g, forkedState.foldlM Graph.apply (.new "f" 1) = .ok g ∧ g.Built ∧ ¬ g.Legal := by
  have hshared : (sharedState.foldlM Graph.apply (.new "f" 1) >>= Graph.verify) = .ok () := by
    decide +kernel
  have hforked : (do
      let g ← forkedState.foldlM Graph.apply (.new "f" 1)
      return g.verify) = .ok (.error (.invalidGraph "f" (some 14) (.memoryFork 12 14 5))) := by
    decide +kernel
  obtain ⟨g, hg, hverify⟩ := bind_eq_ok.mp hshared
  obtain ⟨h, hh, hfork⟩ := bind_eq_ok.mp hforked
  have hbuilt : g.Built := (Built.new "f" 1).foldlM hg
  have hbuilt' : h.Built := (Built.new "f" 1).foldlM hh
  refine ⟨⟨g, hg, hbuilt, hbuilt.verify_iff_legal.mp hverify⟩, h, hh, hbuilt', fun hlegal => ?_⟩
  have hfork := Except.ok.inj hfork
  rw [hbuilt'.verify_iff_legal.mpr hlegal] at hfork
  cases hfork

end Graph

end SeaOfNodes
