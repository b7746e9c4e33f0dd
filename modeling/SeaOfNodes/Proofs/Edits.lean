import SeaOfNodes.Graph.Edit
import SeaOfNodes.Proofs.Loops

/-!
What the primitives do to a graph.

A slot has a *shape*, everything about its node but who uses it, and a list of users. For each
primitive there is one equation for the shapes and one for the number of user entries. From these
follows that user lists mirror operand lists in every graph the primitives can make
(`Built.mirrored`), and what an exchange does to the operands of every other node
(`shape?_exchange`).
-/

namespace SeaOfNodes

/-! ### Lists of users -/

theorem count_swapErase (a b : Nat) (l : List Nat) :
    (swapErase a l).count b = l.count b - if b = a then 1 else 0 := by
  induction l with
  | nil => simp [swapErase]
  | cons c l ih =>
    unfold swapErase
    by_cases hc : c = a
    · have hhead : (c :: l).count b - (if b = a then 1 else 0) = l.count b := by
        rw [List.count_cons, hc]
        by_cases hb : b = a
        · simp [hb]
        · simp [hb, Ne.symm hb]
      rw [if_pos hc, hhead]
      -- the last element only changes its place
      cases hl : l.getLast? with
      | none => rw [List.getLast?_eq_none_iff.mp hl]
      | some z =>
        obtain ⟨front, rfl⟩ := List.getLast?_eq_some_iff.mp hl
        simp only [List.dropLast_concat, List.count_append, List.count_cons, List.count_nil]
        omega
    · rw [if_neg hc, List.count_cons, List.count_cons, ih]
      by_cases hb : b = a
      · have hcb : ¬ c = b := fun h => hc (h.trans hb)
        simp [hb, hc]
      · simp [hb]

theorem count_eraseIdx {l : List Nat} {k a : Nat} (h : l[k]? = some a) (b : Nat) :
    (l.eraseIdx k).count b = l.count b - if b = a then 1 else 0 := by
  induction l generalizing k with
  | nil => cases h
  | cons c l ih =>
    cases k with
    | zero =>
      obtain rfl : c = a := by simpa using h
      rw [List.eraseIdx_cons_zero, List.count_cons]
      by_cases hb : b = c
      · simp [hb]
      · simp [hb, Ne.symm hb]
    | succ k =>
      have hk : l[k]? = some a := by simpa using h
      rw [List.eraseIdx_cons_succ, List.count_cons, List.count_cons, ih hk]
      by_cases hb : b = a
      · have hpos : 0 < l.count a := List.count_pos_iff.mpr (List.mem_of_getElem? hk)
        subst hb
        rw [if_pos rfl]
        omega
      · simp [hb]

section Ascending

variable {α : Type} [LT α] [DecidableLT α] [Std.Trichotomous (α := α) (· < ·)]

theorem mem_insertAscending {a b : α} {l : List α} :
    b ∈ insertAscending a l ↔ b = a ∨ b ∈ l := by
  induction l with
  | nil => simp [insertAscending]
  | cons c l ih =>
    unfold insertAscending
    split
    next => simp
    next hac =>
      split
      next =>
        simp only [List.mem_cons, ih]
        exact or_left_comm
      next hca => simp [Std.Trichotomous.trichotomous a c hac hca]

@[simp] theorem mem_ascending {a : α} {l : List α} : a ∈ ascending l ↔ a ∈ l := by
  induction l with
  | nil => simp [ascending]
  | cons b l ih =>
    show a ∈ insertAscending b (ascending l) ↔ a ∈ b :: l
    rw [mem_insertAscending, ih, List.mem_cons]

end Ascending

/-! ### Shapes and users -/

/-- A node apart from who uses it. -/
structure Shape where
  op : Op
  mode : Mode
  block : Option NodeId
  operands : List NodeId
deriving DecidableEq

namespace Shape

/-- The shape after every edge to `old` was pointed at `new`. -/
def redirect (x : Shape) (old new : NodeId) : Shape :=
  { x with operands := x.operands.map fun o => if o = old then new else o }

theorem redirect_of_not_mem {x : Shape} {old : NodeId} (h : old ∉ x.operands) (new : NodeId) :
    x.redirect old new = x := by
  have hmap : (x.operands.map fun o => if o = old then new else o) = x.operands := by
    refine (List.map_congr_left fun o ho => ?_).trans (List.map_id _)
    exact if_neg fun heq : o = old => h (heq ▸ ho)
  rw [redirect, hmap]

theorem not_mem_redirect {x : Shape} {old new : NodeId} (hne : old ≠ new) :
    old ∉ (x.redirect old new).operands := by
  intro hmem
  obtain ⟨o, -, ho⟩ := List.mem_map.mp hmem
  split at ho
  next => exact hne ho.symm
  next hold => exact hold ho

theorem count_redirect {x : Shape} {old new : NodeId} (hne : old ≠ new) (i : NodeId) :
    (x.redirect old new).operands.count i =
      if i = old then 0
      else x.operands.count i + if i = new then x.operands.count old else 0 := by
  obtain ⟨op, mode, block, operands⟩ := x
  simp only [redirect]
  induction operands with
  | nil => simp
  | cons o l ih =>
    rw [List.map_cons, List.count_cons, ih, List.count_cons, List.count_cons]
    by_cases ho : o = old
    · subst ho
      by_cases hi : i = o
      · simp [hi, Ne.symm hne]
      · by_cases hn : i = new
        · have hio : (i = o) = False := eq_false hi
          have hoi : (o = i) = False := eq_false (Ne.symm hi)
          subst hn
          simp only [beq_iff_eq, hio, hoi, if_true, if_false] at ih ⊢
          omega
        · simp [hi, hn, Ne.symm hi, Ne.symm hn]
    · by_cases hi : i = old
      · simp [hi, ho]
      · simp [hi, ho]
        omega

/-- The shape of a node removed from the graph. -/
def retire (x : Shape) : Shape := { x with op := .retired, operands := [] }

/-- What stays of a slot whatever is done to the graph: it may only be retired. -/
structure Keeps (x y : Shape) : Prop where
  op : y.op = x.op ∨ y.op = .retired
  mode : y.mode = x.mode
  block : y.block = x.block

theorem Keeps.refl (x : Shape) : x.Keeps x := ⟨.inl rfl, rfl, rfl⟩

theorem Keeps.trans {x y z : Shape} (hxy : x.Keeps y) (hyz : y.Keeps z) : x.Keeps z := by
  refine ⟨?_, hyz.mode.trans hxy.mode, hyz.block.trans hxy.block⟩
  rcases hyz.op with hop | hop
  · exact hxy.op.imp hop.trans hop.trans
  · exact .inr hop

end Shape

def Node.shape (x : Node) : Shape :=
  { op := x.op, mode := x.mode, block := x.block, operands := x.operands }

namespace Graph

/-- The shape in slot `n`. -/
def shape? (g : Graph) (n : NodeId) : Option Shape := g.nodes[n]?.map Node.shape

def operands (g : Graph) (n : NodeId) : List NodeId := (g.nodes[n]?.map Node.operands).getD []

def users (g : Graph) (n : NodeId) : List NodeId := (g.nodes[n]?.map Node.users).getD []

theorem node_eq_ok_iff {g : Graph} {n : NodeId} {x : Node} :
    g.node n = .ok x ↔ g.nodes[n]? = some x := by
  refine ⟨node_eq_ok, fun h => ?_⟩
  rw [Graph.node, h]

theorem operands_eq {g : Graph} {n : NodeId} {x : Node} (h : g.nodes[n]? = some x) :
    g.operands n = x.operands := by
  rw [operands, h]
  rfl

theorem users_eq {g : Graph} {n : NodeId} {x : Node} (h : g.nodes[n]? = some x) :
    g.users n = x.users := by
  rw [users, h]
  rfl

theorem shape?_eq {g : Graph} {n : NodeId} {x : Node} (h : g.nodes[n]? = some x) :
    g.shape? n = some x.shape := by
  rw [shape?, h]
  rfl

theorem operands_of_shape? {g : Graph} {n : NodeId} :
    g.operands n = ((g.shape? n).map Shape.operands).getD [] := by
  rw [operands, shape?, Option.map_map]
  rfl

theorem getElem?_eq_none_of_size_le {g : Graph} {n : NodeId} (h : g.size ≤ n) :
    g.nodes[n]? = none := Array.getElem?_eq_none h

theorem users_of_size_le {g : Graph} {n : NodeId} (h : g.size ≤ n) : g.users n = [] := by
  rw [users, getElem?_eq_none_of_size_le h]
  rfl

theorem operands_of_size_le {g : Graph} {n : NodeId} (h : g.size ≤ n) : g.operands n = [] := by
  rw [operands, getElem?_eq_none_of_size_le h]
  rfl

theorem exists_node_of_lt {g : Graph} {n : NodeId} (h : n < g.size) :
    ∃ x, g.nodes[n]? = some x := ⟨_, Array.getElem?_eq_getElem h⟩

theorem lt_size_of_getElem? {g : Graph} {n : NodeId} {x : Node} (h : g.nodes[n]? = some x) :
    n < g.size := (Array.getElem?_eq_some_iff.mp h).1

/-! ### Changes of one slot -/

theorem getElem?_update (g : Graph) (n : NodeId) (f : Node → Node) (i : NodeId) :
    (g.update n f).nodes[i]? = if i = n then g.nodes[i]?.map f else g.nodes[i]? := by
  rw [update, Array.getElem?_modify]
  by_cases h : i = n
  · subst h
    simp
  · simp [h, Ne.symm h]

@[simp] theorem size_update (g : Graph) (n : NodeId) (f : Node → Node) :
    (g.update n f).size = g.size := Array.size_modify

theorem shape?_update (g : Graph) (n : NodeId) (f : Node → Node) (i : NodeId) :
    (g.update n f).shape? i =
      if i = n then (g.nodes[i]?.map f).map Node.shape else g.shape? i := by
  rw [shape?, getElem?_update]
  split <;> rfl

/-- A change that acts on shapes by `F`. -/
theorem shape?_update_of {f : Node → Node} {F : Shape → Shape}
    (hf : ∀ x, (f x).shape = F x.shape) (g : Graph) (n i : NodeId) :
    (g.update n f).shape? i = if i = n then (g.shape? i).map F else g.shape? i := by
  rw [shape?_update]
  split
  · rw [shape?, Option.map_map, Option.map_map]
    congr 1
    funext x
    exact hf x
  · rfl

@[simp] theorem size_addUser (g : Graph) (n u : NodeId) : (g.addUser n u).size = g.size :=
  size_update ..

@[simp] theorem size_dropUser (g : Graph) (n u : NodeId) : (g.dropUser n u).size = g.size :=
  size_update ..

@[simp] theorem shape?_addUser (g : Graph) (n u i : NodeId) :
    (g.addUser n u).shape? i = g.shape? i := by
  rw [addUser, shape?_update]
  split
  · rw [Option.map_map]
    rfl
  · rfl

@[simp] theorem shape?_dropUser (g : Graph) (n u i : NodeId) :
    (g.dropUser n u).shape? i = g.shape? i := by
  rw [dropUser, shape?_update]
  split
  · rw [Option.map_map]
    rfl
  · rfl

theorem users_update (g : Graph) (n : NodeId) (f : Node → Node) (i : NodeId) :
    (g.update n f).users i =
      if i = n then ((g.nodes[i]?.map f).map Node.users).getD [] else g.users i := by
  rw [users, getElem?_update]
  split <;> rfl

/-- Users stay when a change leaves them alone. -/
theorem users_update_of_eq (g : Graph) (n : NodeId) (f : Node → Node) (i : NodeId)
    (hf : ∀ x, (f x).users = x.users) : (g.update n f).users i = g.users i := by
  rw [users_update]
  split
  · rw [Option.map_map, users]
    congr 2
    funext x
    exact hf x
  · rfl

theorem count_users_addUser (g : Graph) (n u i v : NodeId) :
    ((g.addUser n u).users i).count v =
      (g.users i).count v + if i = n ∧ n < g.size ∧ v = u then 1 else 0 := by
  rw [addUser, users_update]
  by_cases hi : i = n
  · subst hi
    rw [if_pos rfl]
    cases hx : g.nodes[i]? with
    | none =>
      have : ¬ i < g.size := fun h => by
        obtain ⟨x, hx'⟩ := exists_node_of_lt h
        rw [hx] at hx'
        cases hx'
      simp [users, hx, this]
    | some x =>
      have hlt := lt_size_of_getElem? hx
      simp only [users, hx, Option.map_some, Option.getD_some, List.count_append, List.count_cons,
        List.count_nil, hlt, true_and]
      by_cases hv : v = u
      · simp [hv]
      · simp [hv, Ne.symm hv]
  · simp [hi]

theorem count_users_dropUser (g : Graph) (n u i v : NodeId) :
    ((g.dropUser n u).users i).count v =
      (g.users i).count v - if i = n ∧ v = u then 1 else 0 := by
  rw [dropUser, users_update]
  by_cases hi : i = n
  · subst hi
    rw [if_pos rfl]
    cases hx : g.nodes[i]? with
    | none => simp [users, hx]
    | some x =>
      simp only [users, hx, Option.map_some, Option.getD_some, count_swapErase, true_and]
  · simp [hi]

/-! ### Many users at once -/

@[simp] theorem shape?_foldl_addUser (u : NodeId) (l : List NodeId) (g : Graph) (i : NodeId) :
    (l.foldl (fun h o => h.addUser o u) g).shape? i = g.shape? i := by
  induction l generalizing g with
  | nil => rfl
  | cons o l ih => rw [List.foldl_cons, ih, shape?_addUser]

@[simp] theorem size_foldl_addUser (u : NodeId) (l : List NodeId) (g : Graph) :
    (l.foldl (fun h o => h.addUser o u) g).size = g.size := by
  induction l generalizing g with
  | nil => rfl
  | cons o l ih => rw [List.foldl_cons, ih, size_addUser]

theorem count_users_foldl_addUser (u : NodeId) (l : List NodeId) (g : Graph) (i v : NodeId) :
    ((l.foldl (fun h o => h.addUser o u) g).users i).count v =
      (g.users i).count v + if v = u ∧ i < g.size then l.count i else 0 := by
  induction l generalizing g with
  | nil => simp
  | cons o l ih =>
    rw [List.foldl_cons, ih, count_users_addUser, size_addUser, List.count_cons]
    by_cases hv : v = u
    · by_cases hi : i < g.size
      · by_cases ho : o = i
        · subst ho
          simp [hv, hi]
          omega
        · simp [hv, hi, ho, Ne.symm ho]
      · by_cases ho : i = o
        · subst ho
          simp [hi]
        · simp [hi, ho]
    · simp [hv]

@[simp] theorem shape?_foldl_dropUser (u : NodeId) (l : List NodeId) (g : Graph) (i : NodeId) :
    (l.foldl (fun h o => h.dropUser o u) g).shape? i = g.shape? i := by
  induction l generalizing g with
  | nil => rfl
  | cons o l ih => rw [List.foldl_cons, ih, shape?_dropUser]

@[simp] theorem size_foldl_dropUser (u : NodeId) (l : List NodeId) (g : Graph) :
    (l.foldl (fun h o => h.dropUser o u) g).size = g.size := by
  induction l generalizing g with
  | nil => rfl
  | cons o l ih => rw [List.foldl_cons, ih, size_dropUser]

theorem count_users_foldl_dropUser (u : NodeId) (l : List NodeId) (g : Graph) (i v : NodeId) :
    ((l.foldl (fun h o => h.dropUser o u) g).users i).count v =
      (g.users i).count v - if v = u then l.count i else 0 := by
  induction l generalizing g with
  | nil => simp
  | cons o l ih =>
    rw [List.foldl_cons, ih, count_users_dropUser, List.count_cons]
    by_cases hv : v = u
    · by_cases ho : o = i
      · simp [hv, ho]
        omega
      · simp [hv, ho, Ne.symm ho]
    · simp [hv]

/-! ### Primitives -/

/-- A node added has no users yet, and is entered with each of its operands. -/
theorem addNode_eq_ok {g g' : Graph} {op : Op} {mode : Mode} {block : Option NodeId}
    {operands : List NodeId} {n : NodeId} (h : g.addNode op mode block operands = .ok (n, g')) :
    n = g.size ∧ g'.size = g.size + 1 ∧ (∀ o ∈ operands, o < g.size) ∧
      (∀ i, g'.shape? i = if i = g.size then some { op, mode, block, operands }
        else g.shape? i) ∧
      ∀ i v, (g'.users i).count v =
        (g.users i).count v + if v = g.size then operands.count i else 0 := by
  unfold addNode at h
  split at h
  next hall =>
    cases h
    have hlt : ∀ o ∈ operands, o < g.size := by simpa using hall
    let linked := operands.foldl (fun h o => h.addUser o g.size) g
    have hsize : linked.nodes.size = g.size := size_foldl_addUser g.size operands g
    have hget : ∀ (x : Node) (i : NodeId), (linked.nodes.push x)[i]? =
        if i = g.size then some x else linked.nodes[i]? := by
      intro x i
      rw [Array.getElem?_push, hsize]
    refine ⟨rfl, ?_, hlt, fun i => ?_, fun i v => ?_⟩
    · show (linked.nodes.push _).size = g.size + 1
      rw [Array.size_push, hsize]
    · rw [shape?, hget]
      split
      · rfl
      · exact shape?_foldl_addUser g.size operands g i
    · rw [users, hget]
      by_cases hi : i = g.size
      · subst hi
        have hnot : g.size ∉ operands := fun hmem => Nat.lt_irrefl _ (hlt _ hmem)
        simp [users_of_size_le, List.count_eq_zero.mpr hnot]
      · rw [if_neg hi]
        show (linked.users i).count v = _
        rw [count_users_foldl_addUser]
        by_cases hlt' : i < g.size
        · simp [hlt']
        · have hnot : i ∉ operands := fun hmem => hlt' (hlt _ hmem)
          simp [hlt', List.count_eq_zero.mpr hnot]
  next => cases h

section addNode

variable {g g' : Graph} {op : Op} {mode : Mode} {block : Option NodeId} {operands : List NodeId}
  {n : NodeId}

theorem shape?_addNode_self (h : g.addNode op mode block operands = .ok (n, g')) :
    g'.shape? n = some { op, mode, block, operands } := by
  obtain ⟨rfl, -, -, hshape, -⟩ := addNode_eq_ok h
  rw [hshape, if_pos rfl]

theorem shape?_addNode_of_ne (h : g.addNode op mode block operands = .ok (n, g')) {i : NodeId}
    (hi : i ≠ n) : g'.shape? i = g.shape? i := by
  obtain ⟨rfl, -, -, hshape, -⟩ := addNode_eq_ok h
  rw [hshape, if_neg hi]

/-- The slot of a new node was not there before. -/
theorem ne_of_addNode (h : g.addNode op mode block operands = .ok (n, g')) {i : NodeId} {x : Shape}
    (hx : g.shape? i = some x) : i ≠ n := by
  obtain ⟨rfl, -⟩ := addNode_eq_ok h
  rintro rfl
  rw [shape?, getElem?_eq_none_of_size_le (Nat.le_refl _)] at hx
  cases hx

/-- A node without operands leaves all operands as they are. -/
theorem operands_addNode (h : g.addNode op mode block [] = .ok (n, g')) (i : NodeId) :
    g'.operands i = g.operands i := by
  by_cases hi : i = n
  · have hnil : g.operands i = [] :=
      operands_of_size_le (Nat.le_of_eq ((addNode_eq_ok h).1.symm.trans hi.symm))
    rw [operands_of_shape?, hi, shape?_addNode_self h, ← hi, hnil]
    rfl
  · rw [operands_of_shape?, operands_of_shape?, shape?_addNode_of_ne h hi]

end addNode

/-- Setting an operand moves one user entry, unless the operand is there already. -/
theorem setOperand_eq_ok {g g' : Graph} {n : NodeId} {k : Nat} {new : NodeId}
    (h : g.setOperand n k new = .ok g') :
    ∃ old, (g.operands n)[k]? = some old ∧ (old = new → g' = g) ∧
      (old ≠ new → new < g.size) ∧ g'.size = g.size ∧
      (∀ i, g'.shape? i = if i = n then (g.shape? i).map fun x =>
        { x with operands := x.operands.set k new } else g.shape? i) ∧
      (old ≠ new → ∀ i v, (g'.users i).count v = (g.users i).count v -
        (if i = old ∧ v = n then 1 else 0) + if i = new ∧ v = n then 1 else 0) := by
  obtain ⟨x, hx, h⟩ := bind_eq_ok.mp h
  have hops := operands_eq (node_eq_ok hx)
  split at h
  next => cases h
  next old hold =>
    refine ⟨old, hops ▸ hold, ?_⟩
    split at h
    next heq =>
      cases h
      refine ⟨fun _ => rfl, fun hne => absurd heq hne, rfl, fun i => ?_,
        fun hne => absurd heq hne⟩
      split
      next hi =>
        subst hi heq
        rw [shape?_eq (node_eq_ok hx), Option.map_some]
        obtain ⟨hk, hget⟩ := List.getElem?_eq_some_iff.mp hold
        simp only [Node.shape]
        rw [← hget, List.set_getElem_self]
      next => rfl
    next hne =>
      split at h
      next hnew =>
        cases h
        refine ⟨fun heq => absurd heq hne, fun _ => hnew, by simp, fun i => ?_, fun _ i v => ?_⟩
        · rw [shape?_addUser]
          have := shape?_update_of (F := fun y => { y with operands := y.operands.set k new })
            (f := fun y => { y with operands := y.operands.set k new }) (fun _ => rfl)
            (g.dropUser old n) n i
          rwa [shape?_dropUser] at this
        · rw [count_users_addUser, users_update_of_eq, count_users_dropUser, size_update,
            size_dropUser]
          · simp [hnew]
          · intro y
            rfl
      next => cases h

/-- Appending an operand adds one user entry. -/
theorem addOperand_eq_ok {g g' : Graph} {n operand : NodeId}
    (h : g.addOperand n operand = .ok g') :
    n < g.size ∧ operand < g.size ∧ g'.size = g.size ∧
      (∀ i, g'.shape? i = if i = n then (g.shape? i).map fun x =>
        { x with operands := x.operands ++ [operand] } else g.shape? i) ∧
      ∀ i v, (g'.users i).count v =
        (g.users i).count v + if i = operand ∧ v = n then 1 else 0 := by
  unfold addOperand at h
  split at h
  next hlt =>
    cases h
    refine ⟨hlt.1, hlt.2, by simp, fun i => ?_, fun i v => ?_⟩
    · rw [shape?_addUser]
      exact shape?_update_of (fun _ => rfl) g n i
    · rw [count_users_addUser, users_update_of_eq, size_update]
      · simp [hlt.2]
      · intro y
        rfl
  next => cases h

/-- Removing an operand moves those behind it up and takes one user entry away. -/
theorem removeOperand_eq_ok {g g' : Graph} {n : NodeId} {k : Nat}
    (h : g.removeOperand n k = .ok g') :
    ∃ old, (g.operands n)[k]? = some old ∧ g'.size = g.size ∧
      (∀ i, g'.shape? i = if i = n then (g.shape? i).map fun x =>
        { x with operands := x.operands.eraseIdx k } else g.shape? i) ∧
      ∀ i v, (g'.users i).count v = (g.users i).count v - if i = old ∧ v = n then 1 else 0 := by
  unfold removeOperand at h
  cases hnode : g.node n with
  | error e => simp [hnode, bind, Except.bind] at h
  | ok x =>
    simp only [hnode, bind, Except.bind] at h
    split at h
    next => cases h
    next old hold =>
      cases h
      refine ⟨old, ?_, by simp, fun i => ?_, fun i v => ?_⟩
      · rw [operands_eq (node_eq_ok hnode)]
        exact hold
      · rw [shape?_dropUser]
        exact shape?_update_of (fun _ => rfl) g n i
      · rw [count_users_dropUser, users_update_of_eq]
        intro y
        rfl

/-- Retiring a node takes its entries out of the user lists of its operands. -/
theorem kill_eq_ok {g g' : Graph} {n : NodeId} (h : g.kill n = .ok g') :
    n < g.size ∧ g'.size = g.size ∧
      (∀ i, g'.shape? i = if i = n then (g.shape? i).map Shape.retire else g.shape? i) ∧
      ∀ i v, (g'.users i).count v =
        (g.users i).count v - if v = n then (g.operands n).count i else 0 := by
  unfold kill at h
  cases hnode : g.node n with
  | error e => simp [hnode, bind, Except.bind] at h
  | ok x =>
    simp only [hnode, bind, Except.bind, pure, Except.pure] at h
    cases h
    have hx := node_eq_ok hnode
    refine ⟨lt_size_of_getElem? hx, by simp [detach], fun i => ?_, fun i v => ?_⟩
    · have hmark (h : Graph) : (h.update n fun y => { y with op := .retired }).shape? i =
          if i = n then (h.shape? i).map fun y => { y with op := .retired } else h.shape? i :=
        shape?_update_of (fun _ => rfl) h n i
      have hcut : (g.update n fun y => { y with operands := [] }).shape? i =
          if i = n then (g.shape? i).map fun y => { y with operands := [] } else g.shape? i :=
        shape?_update_of (fun _ => rfl) g n i
      rw [detach, hmark, shape?_foldl_dropUser, hcut]
      by_cases hi : i = n
      · rw [if_pos hi, if_pos hi, if_pos hi, Option.map_map]
        rfl
      · rw [if_neg hi, if_neg hi, if_neg hi]
    · rw [detach, users_update_of_eq, count_users_foldl_dropUser, users_update_of_eq,
        operands_eq hx]
      · intro y
        rfl
      · intro y
        rfl

/-! ### Exchanging -/

@[simp] theorem size_redirect (g : Graph) (old new user : NodeId) :
    (g.redirect old new user).size = g.size := by
  have hfold (k : Nat) (h : Graph) :
      ((List.replicate k user).foldl (fun h u => h.addUser new u) h).size = h.size := by
    induction k generalizing h with
    | zero => rfl
    | succ k ih => rw [List.replicate_succ, List.foldl_cons, ih, size_addUser]
  rw [redirect, hfold, size_update]

theorem shape?_redirect (g : Graph) (old new user i : NodeId) :
    (g.redirect old new user).shape? i =
      if i = user then (g.shape? i).map fun x => x.redirect old new else g.shape? i := by
  have hfold (k : Nat) (h : Graph) :
      ((List.replicate k user).foldl (fun h u => h.addUser new u) h).shape? i = h.shape? i := by
    induction k generalizing h with
    | zero => rfl
    | succ k ih => rw [List.replicate_succ, List.foldl_cons, ih, shape?_addUser]
  rw [redirect, hfold]
  exact shape?_update_of (fun _ => rfl) g user i

theorem count_users_redirect (g : Graph) (old new user i v : NodeId) :
    ((g.redirect old new user).users i).count v = (g.users i).count v +
      if i = new ∧ new < g.size ∧ v = user then (g.operands user).count old else 0 := by
  have hfold (k : Nat) (h : Graph) :
      (((List.replicate k user).foldl (fun h u => h.addUser new u) h).users i).count v =
        (h.users i).count v + if i = new ∧ new < h.size ∧ v = user then k else 0 := by
    induction k generalizing h with
    | zero => simp
    | succ k ih =>
      rw [List.replicate_succ, List.foldl_cons, ih, count_users_addUser, size_addUser]
      split
      · omega
      · omega
  have hcount : ((g.nodes[user]?).map fun x => x.operands.count old).getD 0 =
      (g.operands user).count old := by
    rw [operands]
    cases g.nodes[user]? <;> rfl
  rw [redirect, hfold, users_update_of_eq, size_update, hcount]
  intro x
  rfl

theorem size_foldl_redirect (old new : NodeId) (us : List NodeId) (g : Graph) :
    (us.foldl (fun h u => h.redirect old new u) g).size = g.size := by
  induction us generalizing g with
  | nil => rfl
  | cons u us ih => rw [List.foldl_cons, ih, size_redirect]

theorem shape?_foldl_redirect {old new : NodeId} (hne : old ≠ new) (us : List NodeId) (g : Graph)
    (i : NodeId) :
    (us.foldl (fun h u => h.redirect old new u) g).shape? i =
      if i ∈ us then (g.shape? i).map fun x => x.redirect old new else g.shape? i := by
  induction us generalizing g with
  | nil => rfl
  | cons u us ih =>
    rw [List.foldl_cons, ih, shape?_redirect]
    by_cases hu : i = u
    · -- a second redirection of the same node finds nothing
      subst hu
      rw [if_pos rfl, if_pos List.mem_cons_self, Option.map_map]
      split
      · congr 1
        funext x
        exact Shape.redirect_of_not_mem (Shape.not_mem_redirect hne) new
      · rfl
    · simp [hu]

theorem operands_redirect {old new : NodeId} (hne : old ≠ new) (g : Graph) (user v : NodeId) :
    ((g.redirect old new user).operands v).count old =
      if v = user then 0 else (g.operands v).count old := by
  rw [operands_of_shape?, shape?_redirect, operands_of_shape?]
  split
  · cases hx : g.shape? v with
    | none => simp
    | some x => simpa using List.count_eq_zero.mpr (Shape.not_mem_redirect (x := x) hne)
  · rfl

theorem count_users_foldl_redirect {old new : NodeId} (hne : old ≠ new) (us : List NodeId)
    (g : Graph) (i v : NodeId) :
    ((us.foldl (fun h u => h.redirect old new u) g).users i).count v = (g.users i).count v +
      if i = new ∧ new < g.size ∧ v ∈ us then (g.operands v).count old else 0 := by
  induction us generalizing g with
  | nil => simp
  | cons u us ih =>
    rw [List.foldl_cons, ih, count_users_redirect, size_redirect, operands_redirect hne]
    by_cases hi : i = new ∧ new < g.size
    · by_cases hu : v = u
      · subst hu
        simp [hi]
      · simp [hi, hu]
    · have h1 (p : Prop) : ¬ (i = new ∧ new < g.size ∧ p) := fun h => hi ⟨h.1, h.2.1⟩
      rw [if_neg (h1 _), if_neg (h1 _), if_neg (h1 _)]

/-- Redirecting edges adds users to the new node only. -/
theorem users_redirect (g : Graph) (old user : NodeId) {new i : NodeId} (hi : i ≠ new) :
    (g.redirect old new user).users i = g.users i := by
  have hfold (us : List NodeId) (h : Graph) :
      (us.foldl (fun h u => h.addUser new u) h).users i = h.users i := by
    induction us generalizing h with
    | nil => rfl
    | cons u us ih => rw [List.foldl_cons, ih, addUser, users_update, if_neg hi]
  rw [redirect, hfold, users_update_of_eq]
  intro x
  rfl

theorem users_foldl_redirect (old : NodeId) (us : List NodeId) (g : Graph) {new i : NodeId}
    (hi : i ≠ new) : (us.foldl (fun h u => h.redirect old new u) g).users i = g.users i := by
  induction us generalizing g with
  | nil => rfl
  | cons u us ih => rw [List.foldl_cons, ih, users_redirect g old u hi]

/-! ### Users mirror operands -/

/-- Each node is listed with the users of another as often as it has that other as an operand. -/
def Mirrored (g : Graph) : Prop := ∀ u o, (g.users o).count u = (g.operands u).count o

theorem Mirrored.mem_users {g : Graph} (h : g.Mirrored) {u o : NodeId} :
    u ∈ g.users o ↔ o ∈ g.operands u := by
  rw [← List.count_pos_iff, ← List.count_pos_iff, h u o]

theorem Mirrored.lt_size {g : Graph} (h : g.Mirrored) {u o : NodeId} (ho : o ∈ g.operands u) :
    o < g.size := by
  refine Nat.lt_of_not_le fun hle => ?_
  have := h.mem_users.mpr ho
  rw [users_of_size_le hle] at this
  cases this

theorem Mirrored.addNode {g g' : Graph} {op : Op} {mode : Mode} {block : Option NodeId}
    {operands : List NodeId} {n : NodeId} (hm : g.Mirrored)
    (h : g.addNode op mode block operands = .ok (n, g')) : g'.Mirrored := by
  obtain ⟨-, -, -, hshape, hcount⟩ := addNode_eq_ok h
  intro u o
  rw [hcount, operands_of_shape?, hshape]
  by_cases hu : u = g.size
  · subst hu
    have hnone : (g.users o).count g.size = 0 := by
      rw [hm, operands_of_size_le (Nat.le_refl _)]
      rfl
    simp [hnone]
  · rw [if_neg hu, if_neg hu, ← operands_of_shape?, hm u o, Nat.add_zero]

theorem Mirrored.setOperand {g g' : Graph} {n : NodeId} {k : Nat} {new : NodeId} (hm : g.Mirrored)
    (h : g.setOperand n k new = .ok g') : g'.Mirrored := by
  obtain ⟨old, hold, hsame, -, -, hshape, hcount⟩ := setOperand_eq_ok h
  by_cases hne : old = new
  · rw [hsame hne]
    exact hm
  · intro u o
    rw [hcount hne, hm u o, operands_of_shape? (g := g'), hshape]
    by_cases hu : u = n
    · subst hu
      rw [operands_of_shape?] at hold ⊢
      cases hx : g.shape? u with
      | none => simp [hx] at hold
      | some x =>
        simp only [hx, Option.map_some, Option.getD_some] at hold ⊢
        obtain ⟨hk, hget⟩ := List.getElem?_eq_some_iff.mp hold
        rw [if_pos trivial, Option.map_some, Option.getD_some, List.count_set hk, hget]
        simp only [beq_iff_eq, and_true, @eq_comm _ o]
    · rw [if_neg hu, ← operands_of_shape?]
      simp [hu]

theorem Mirrored.addOperand {g g' : Graph} {n operand : NodeId} (hm : g.Mirrored)
    (h : g.addOperand n operand = .ok g') : g'.Mirrored := by
  obtain ⟨hn, -, -, hshape, hcount⟩ := addOperand_eq_ok h
  intro u o
  rw [hcount, hm u o, operands_of_shape? (g := g'), hshape]
  by_cases hu : u = n
  · subst hu
    obtain ⟨x, hx⟩ := exists_node_of_lt hn
    rw [if_pos rfl, shape?_eq hx, operands_eq hx]
    simp only [Node.shape, Option.map_some, Option.getD_some, List.count_append, List.count_cons,
      List.count_nil, Nat.zero_add, beq_iff_eq, and_true, @eq_comm _ o]
  · rw [if_neg hu, ← operands_of_shape?]
    simp [hu]

theorem Mirrored.removeOperand {g g' : Graph} {n : NodeId} {k : Nat} (hm : g.Mirrored)
    (h : g.removeOperand n k = .ok g') : g'.Mirrored := by
  obtain ⟨old, hold, -, hshape, hcount⟩ := removeOperand_eq_ok h
  intro u o
  rw [hcount, hm u o, operands_of_shape? (g := g'), hshape]
  by_cases hu : u = n
  · subst hu
    rw [operands_of_shape?] at hold ⊢
    cases hx : g.shape? u with
    | none => simp [hx] at hold
    | some x =>
      simp only [hx, Option.map_some, Option.getD_some] at hold ⊢
      rw [if_pos trivial, Option.map_some, Option.getD_some, count_eraseIdx hold]
      simp
  · rw [if_neg hu, ← operands_of_shape?]
    simp [hu]

theorem Mirrored.kill {g g' : Graph} {n : NodeId} (hm : g.Mirrored) (h : g.kill n = .ok g') :
    g'.Mirrored := by
  obtain ⟨-, -, hshape, hcount⟩ := kill_eq_ok h
  intro u o
  rw [hcount, hm u o, operands_of_shape? (g := g'), hshape]
  by_cases hu : u = n
  · subst hu
    rw [if_pos rfl, if_pos rfl, Nat.sub_self]
    cases g.shape? u <;> rfl
  · rw [if_neg hu, if_neg hu, ← operands_of_shape?, Nat.sub_zero]

/-! ### Moving users -/

/-- Every user of `old` has `new` in its place, and `old` is left without users. -/
def moveUsers (g : Graph) (old new : NodeId) (users : List NodeId) : Graph :=
  (ascending users).foldl (fun h u => h.redirect old new u)
    (g.update old fun y => { y with users := [] })

theorem size_moveUsers (g : Graph) (old new : NodeId) (users : List NodeId) :
    (g.moveUsers old new users).size = g.size := by
  rw [moveUsers, size_foldl_redirect, size_update]

theorem shape?_forget_users (g : Graph) (old i : NodeId) :
    (g.update old fun y => { y with users := [] }).shape? i = g.shape? i := by
  have := shape?_update_of (F := id) (f := fun y : Node => { y with users := [] })
    (fun _ => rfl) g old i
  simpa using this

section moveUsers

variable {g : Graph} {old new : NodeId} {x : Node}

theorem users_forget_users (hx : g.nodes[old]? = some x) (i : NodeId) :
    (g.update old fun y => { y with users := [] }).users i =
      if i = old then [] else g.users i := by
  rw [users_update]
  split
  next hi =>
    subst hi
    rw [hx]
    rfl
  next => rfl

theorem users_moveUsers (hx : g.nodes[old]? = some x) {i : NodeId} (hi : i ≠ new) :
    (g.moveUsers old new x.users).users i = if i = old then [] else g.users i := by
  rw [moveUsers, users_foldl_redirect old _ _ hi, users_forget_users hx]

/-- The users of a node are those that have it as an operand. -/
theorem Mirrored.mem_ascending_users (hm : g.Mirrored) (hx : g.nodes[old]? = some x)
    (v : NodeId) : v ∈ ascending x.users ↔ old ∈ g.operands v := by
  rw [mem_ascending, ← hm.mem_users, users_eq hx]

theorem shape?_moveUsers (hm : g.Mirrored) (hne : old ≠ new) (hx : g.nodes[old]? = some x)
    (i : NodeId) : (g.moveUsers old new x.users).shape? i =
      (g.shape? i).map fun y => y.redirect old new := by
  rw [moveUsers, shape?_foldl_redirect hne, shape?_forget_users]
  split
  next => rfl
  next hi =>
    cases hs : g.shape? i with
    | none => rfl
    | some y =>
      have hnot : old ∉ y.operands := by
        intro hmem
        refine hi ((hm.mem_ascending_users hx i).mpr ?_)
        rw [operands_of_shape?, hs]
        exact hmem
      rw [Option.map_some, Shape.redirect_of_not_mem hnot]

theorem count_operands_moveUsers (hm : g.Mirrored) (hne : old ≠ new)
    (hx : g.nodes[old]? = some x) (v o : NodeId) :
    ((g.moveUsers old new x.users).operands v).count o = if o = old then 0
      else (g.operands v).count o + if o = new then (g.operands v).count old else 0 := by
  rw [operands_of_shape?, shape?_moveUsers hm hne hx, operands_of_shape?]
  cases g.shape? v with
  | none => simp
  | some y => exact Shape.count_redirect hne o

/-- Where the new node exists, or nothing has to be moved to it, its users are kept up to date. -/
theorem Mirrored.moveUsers (hm : g.Mirrored) (hne : old ≠ new) (hx : g.nodes[old]? = some x)
    (hnew : new < g.size ∨ ascending x.users = []) :
    (g.moveUsers old new x.users).Mirrored := by
  intro v o
  have hops : (g.update old fun y => { y with users := [] }).operands v = g.operands v := by
    rw [operands_of_shape?, operands_of_shape?, shape?_forget_users]
  rw [count_operands_moveUsers hm hne hx, Graph.moveUsers, count_users_foldl_redirect hne,
    users_forget_users hx, hops, size_update]
  by_cases ho : o = old
  · simp [ho, hne]
  · rw [if_neg ho, if_neg ho, hm v o]
    by_cases hn : o = new
    · by_cases hv : v ∈ ascending x.users
      · have hlt : new < g.size := by
          refine hnew.resolve_right fun hnil => ?_
          rw [hnil] at hv
          cases hv
        simp [hn, hv, hlt]
      · have hzero : (g.operands v).count old = 0 :=
          List.count_eq_zero.mpr fun hmem => hv ((hm.mem_ascending_users hx v).mpr hmem)
        simp [hzero]
    · simp [hn]

end moveUsers

/-- An exchange moves the users of the old node over, then retires it. -/
theorem exchange_eq_ok {g g' : Graph} {old new : NodeId} (hm : g.Mirrored) (hne : old ≠ new)
    (h : g.exchange old new = .ok g') :
    ∃ moved : Graph, moved.kill old = .ok g' ∧ moved.size = g.size ∧ moved.Mirrored ∧
      (∀ i, moved.shape? i = (g.shape? i).map fun x => x.redirect old new) ∧
      ∀ i, i ≠ new → moved.users i = if i = old then [] else g.users i := by
  unfold exchange at h
  rw [if_neg hne] at h
  obtain ⟨x, hnode, h⟩ := bind_eq_ok.mp h
  have hx := node_eq_ok hnode
  dsimp only at h
  split at h
  next hnew =>
    exact ⟨g.moveUsers old new x.users, h, size_moveUsers g old new x.users,
      hm.moveUsers hne hx hnew, shape?_moveUsers hm hne hx, fun i => users_moveUsers hx⟩
  next => cases h

theorem Mirrored.exchange {g g' : Graph} {old new : NodeId} (hm : g.Mirrored)
    (h : g.exchange old new = .ok g') : g'.Mirrored := by
  by_cases hne : old = new
  · rw [Graph.exchange, if_pos hne] at h
    cases h
    exact hm
  · obtain ⟨moved, hkill, -, hmirror, -⟩ := exchange_eq_ok hm hne h
    exact hmirror.kill hkill

theorem size_exchange {g g' : Graph} {old new : NodeId} (hm : g.Mirrored)
    (h : g.exchange old new = .ok g') : g'.size = g.size := by
  by_cases hne : old = new
  · rw [Graph.exchange, if_pos hne] at h
    cases h
    rfl
  · obtain ⟨moved, hkill, hsize, -, -⟩ := exchange_eq_ok hm hne h
    rw [(kill_eq_ok hkill).2.1, hsize]

/-- After an exchange the old node is retired, and every other node has the new one in its
place. -/
theorem shape?_exchange {g g' : Graph} {old new : NodeId} (hm : g.Mirrored) (hne : old ≠ new)
    (h : g.exchange old new = .ok g') (i : NodeId) :
    g'.shape? i = if i = old then (g.shape? i).map Shape.retire
      else (g.shape? i).map fun x => x.redirect old new := by
  obtain ⟨moved, hkill, -, -, hmoved, -⟩ := exchange_eq_ok hm hne h
  rw [(kill_eq_ok hkill).2.2.1, hmoved]
  split
  · rw [Option.map_map]
    rfl
  · rfl

/-! ### Graphs the primitives make -/

/-- Made from the anchors by calls of the primitives. -/
inductive Built : Graph → Prop where
  | new (name : String) (params : Nat) : Built (new name params)
  | edit {g g' : Graph} {e : Edit} : Built g → g.apply e = .ok g' → Built g'

theorem Mirrored.apply {g g' : Graph} {e : Edit} (hm : g.Mirrored) (h : g.apply e = .ok g') :
    g'.Mirrored := by
  cases e with
  | addNode op mode block operands =>
    simp only [Graph.apply] at h
    cases hadd : g.addNode op mode block operands with
    | error e => simp [hadd, Except.map] at h
    | ok r =>
      rw [hadd] at h
      cases h
      exact hm.addNode hadd
  | setOperand n k new => exact hm.setOperand h
  | addOperand n o => exact hm.addOperand h
  | removeOperand n k => exact hm.removeOperand h
  | keepAlive n => exact hm.addOperand h
  | exchange old new => exact hm.exchange h
  | kill n => exact hm.kill h

theorem mirrored_new (name : String) (params : Nat) : (new name params).Mirrored := by
  intro u o
  have hnil : ∀ i, (new name params).operands i = [] ∧ (new name params).users i = [] := by
    intro i
    match i with
    | 0 | 1 | 2 | 3 | 4 => exact ⟨rfl, rfl⟩
    | k + 5 => exact ⟨rfl, rfl⟩
  rw [(hnil u).1, (hnil o).2]
  rfl

theorem Built.mirrored {g : Graph} (h : Built g) : g.Mirrored := by
  induction h with
  | new name params => exact mirrored_new name params
  | edit _ hedit ih => exact ih.apply hedit

/-- A sequence of calls makes a graph from a graph. -/
theorem Built.foldlM {g g' : Graph} {edits : List Edit} (hg : Built g)
    (h : edits.foldlM Graph.apply g = .ok g') : Built g' :=
  foldlM_eq_ok (I := fun _ g => Built g) h hg fun _ _ _ _ _ _ hs ht => .edit hs ht

/-- No primitive changes the kind, mode or block of a slot, except that it may retire it. -/
theorem keeps_of_apply {g g' : Graph} {e : Edit} (hm : g.Mirrored) (h : g.apply e = .ok g')
    {i : NodeId} {x : Shape} (hx : g.shape? i = some x) : ∃ y, g'.shape? i = some y ∧ x.Keeps y := by
  cases e with
  | addNode op mode block operands =>
    obtain ⟨⟨n, k⟩, hadd, h⟩ := bind_eq_ok.mp h
    cases h
    exact ⟨x, by rw [shape?_addNode_of_ne hadd (ne_of_addNode hadd hx), hx], .refl x⟩
  | setOperand n k new =>
    obtain ⟨old, -, -, -, -, hshape, -⟩ := setOperand_eq_ok h
    rw [hshape, hx]
    split
    · exact ⟨_, rfl, .inl rfl, rfl, rfl⟩
    · exact ⟨x, rfl, .refl x⟩
  | addOperand n o =>
    rw [(addOperand_eq_ok h).2.2.2.1, hx]
    split
    · exact ⟨_, rfl, .inl rfl, rfl, rfl⟩
    · exact ⟨x, rfl, .refl x⟩
  | removeOperand n k =>
    obtain ⟨old, -, -, hshape, -⟩ := removeOperand_eq_ok h
    rw [hshape, hx]
    split
    · exact ⟨_, rfl, .inl rfl, rfl, rfl⟩
    · exact ⟨x, rfl, .refl x⟩
  | keepAlive n =>
    rw [(addOperand_eq_ok h).2.2.2.1, hx]
    split
    · exact ⟨_, rfl, .inl rfl, rfl, rfl⟩
    · exact ⟨x, rfl, .refl x⟩
  | exchange old new =>
    by_cases hne : old = new
    · rw [Graph.apply, Graph.exchange, if_pos hne] at h
      cases h
      exact ⟨x, hx, .refl x⟩
    · rw [shape?_exchange hm hne h, hx]
      split
      · exact ⟨_, rfl, .inr rfl, rfl, rfl⟩
      · exact ⟨_, rfl, .inl rfl, rfl, rfl⟩
  | kill n =>
    rw [(kill_eq_ok h).2.2.1, hx]
    split
    · exact ⟨_, rfl, .inr rfl, rfl, rfl⟩
    · exact ⟨x, rfl, .refl x⟩

/-- The anchors keep their places. -/
theorem Built.keeps_anchor {g : Graph} (h : Built g) {i : NodeId} {x : Shape}
    (hx : (Graph.new "" 0).shape? i = some x) : ∃ y, g.shape? i = some y ∧ x.Keeps y := by
  induction h with
  | new name params => exact ⟨x, hx, .refl x⟩
  | edit hbuilt hedit ih =>
    obtain ⟨y, hy, hkeep⟩ := ih
    obtain ⟨z, hz, hkeep'⟩ := keeps_of_apply hbuilt.mirrored hedit hy
    exact ⟨z, hz, hkeep.trans hkeep'⟩

/-- Whatever calls of the primitives a graph was made by, retired nodes included: a node is listed
with the users of another as often as it has that other as an operand. -/
theorem count_users_eq_count_operands {name : String} {params : Nat} {edits : List Edit}
    {g : Graph} (h : edits.foldlM Graph.apply (Graph.new name params) = .ok g) {u o : NodeId}
    {x y : Node} (hx : g.nodes[u]? = some x) (hy : g.nodes[o]? = some y) :
    y.users.count u = x.operands.count o := by
  have hm := ((Built.new name params).foldlM h).mirrored u o
  rwa [users_eq hy, operands_eq hx] at hm

/-- Repeated edges that are redirected, a phi that uses itself, and a node retired while it is kept
alive. -/
def tangledEdits : List Edit :=
  [.addNode (.const (.bool true)) .bool (some Anchor.startBlock) [],
    .addNode .phi .bool (some Anchor.startBlock) [5, 5, 5],
    .addOperand 6 6,
    .addNode .not .bool (some Anchor.startBlock) [6],
    .setOperand 6 0 7,
    .removeOperand 6 2,
    .keepAlive 7,
    .exchange 6 5,
    .keepAlive 7,
    .kill 7]

theorem count_users_eq_count_operands_tangledEdits :
    ∃ g x y, tangledEdits.foldlM Graph.apply (.new "f" 0) = .ok g ∧
      g.nodes[Anchor.stop]? = some x ∧ g.nodes[7]? = some y ∧ y.op = .retired ∧
      x.operands.count 7 = 2 ∧ y.users.count Anchor.stop = x.operands.count 7 := by
  have hok : (tangledEdits.foldlM Graph.apply (.new "f" 0)).map (fun g =>
      (g.nodes[7]?.map Node.op, g.nodes[Anchor.stop]?.map fun x => x.operands.count 7)) =
      .ok (some .retired, some 2) := by
    decide +kernel
  cases hg : tangledEdits.foldlM Graph.apply (.new "f" 0) with
  | error e =>
    rw [hg] at hok
    cases hok
  | ok g =>
    rw [hg] at hok
    obtain ⟨hretired, hcount⟩ := Prod.mk.inj (Except.ok.inj hok)
    obtain ⟨y, hy, hop⟩ := Option.map_eq_some_iff.mp hretired
    obtain ⟨x, hx, htwo⟩ := Option.map_eq_some_iff.mp hcount
    exact ⟨g, x, y, rfl, hx, hy, hop, htwo, count_users_eq_count_operands hg hx hy⟩

end Graph

end SeaOfNodes
