import SeaOfNodes.Proofs.Soundness

/-!
What happens while the members of a block act.

`Passes` is a run of some members, one after the other, that does not end the function; it is what
`runBody` computes (`passes_of_runBody`, `Passes.through`). What a member does depends only on the
values of its operands and on memory (`choose_congr`), and memory only on the members that touch it
(`Passes.states`).
-/

namespace SeaOfNodes

namespace Execution

/-- The value of a node, if it has one. -/
def Machine.value (m : Machine) (n : NodeId) : Option Literal := m.env[n]?.join

/-- Memory and what was seen. -/
def Machine.state (m : Machine) : List (BitVec 64 × Literal) × Array Effect :=
  (m.memory, m.effects)

variable {handler : Handler} {args : List Literal} {m m' m₁ : Machine} {n : NodeId} {v : Literal}

theorem value_eq_some : m.value n = some v ↔ m.env[n]? = some (some v) := by
  simp [Machine.value, Option.join_eq_some_iff]

theorem get_eq_ok_iff : m.get n = .ok v ↔ m.value n = some v := by
  constructor
  · exact fun h => value_eq_some.mpr (get_eq_ok h)
  · intro h
    have h := value_eq_some.mp h
    unfold Machine.get Machine.get?
    rw [h]
    rfl

theorem value_set (h : m.set n v = .ok m') (k : NodeId) :
    m'.value k = if k = n then some v else m.value k := by
  obtain ⟨hn, rfl⟩ := set_eq_ok h
  unfold Machine.value
  by_cases hk : k = n
  · subst hk
    simp [hn]
  · rw [if_neg hk, Array.getElem?_setIfInBounds_ne (fun heq => hk heq.symm)]

theorem state_set (h : m.set n v = .ok m') : m'.state = m.state := by
  obtain ⟨-, rfl⟩ := set_eq_ok h
  rfl

theorem size_set (h : m.set n v = .ok m') : m'.env.size = m.env.size := by
  obtain ⟨-, rfl⟩ := set_eq_ok h
  simp

/-! ### Schedules -/

/-- The live nodes of a graph, each once and after those of its inputs that cannot stand on a
cycle. -/
structure Schedule.Lists (g : Graph) (s : Schedule) : Prop where
  mem_iff : ∀ n x, (n, x) ∈ s ↔ g.Live n ∧ g.nodes[n]? = some x
  nodup : (s.map Prod.fst).Nodup
  before : ∀ l₁ n x l₂, s = l₁ ++ (n, x) :: l₂ → ∀ i y, g.Needs n i → g.nodes[i]? = some y →
    y.op.isLoopBreaker = false → (i, y) ∈ l₁

theorem schedule_keys {g : Graph} {s : Schedule} (h : schedule g = .ok s) :
    ∃ walk, Walk.run g = .ok walk ∧ s.map Prod.fst = walk.order := by
  obtain ⟨walk, hwalk, h⟩ := bind_eq_ok.mp h
  refine ⟨walk, hwalk, ?_⟩
  have hall : List.Forall₂ (fun n e => n = e.1) walk.order s := by
    refine (mapM_eq_ok h).imp fun n e hturn => ?_
    obtain ⟨x, -, hturn⟩ := bind_eq_ok.mp hturn
    cases hturn
    rfl
  rw [← List.forall₂_map_right_iff, List.forall₂_eq_eq_eq] at hall
  exact hall.symm

theorem schedule_lists {g : Graph} {s : Schedule} (h : schedule g = .ok s) : s.Lists g := by
  have hwithin := schedule_eq_ok h
  obtain ⟨walk, hwalk, hkeys⟩ := schedule_keys h
  have hcomplete := Walk.complete_of_run hwalk
  have hmem {n : NodeId} {x : Node} (hn : n ∈ s.map Prod.fst) (hx : g.nodes[n]? = some x) :
      (n, x) ∈ s := by
    obtain ⟨⟨n, y⟩, he, rfl⟩ := List.mem_map.mp hn
    have hy := (hwithin _ he).2
    rw [hx] at hy
    cases hy
    exact he
  refine ⟨fun n x => ⟨hwithin (n, x), fun ⟨hn, hx⟩ => hmem ?_ hx⟩, hkeys ▸ hcomplete.nodup,
    fun l₁ n x l₂ hsplit i y hneeds hy hbreaker => ?_⟩
  · rw [hkeys]
    exact (hcomplete.mem_order n).mpr hn
  · have hn : n ∈ walk.order := by rw [← hkeys, hsplit]; simp
    obtain ⟨A, B, horder, hi⟩ := hcomplete.before n hn i y hneeds hy hbreaker
    rw [← hkeys, hsplit, List.map_append, List.map_cons] at horder
    have hnodup : (l₁.map Prod.fst ++ n :: l₂.map Prod.fst).Nodup := by
      have hnodup := hcomplete.nodup
      rwa [← hkeys, hsplit, List.map_append, List.map_cons] at hnodup
    obtain ⟨-, hlater, hapart⟩ := List.nodup_append.mp hnodup
    obtain ⟨rfl, -⟩ := (List.append_cons_inj_of_notMem
      (fun hmem => hapart n hmem n List.mem_cons_self rfl) (List.nodup_cons.mp hlater).1).mp horder
    obtain ⟨⟨i, z⟩, he, rfl⟩ := List.mem_map.mp hi
    have hz := (hwithin (i, z) (hsplit ▸ List.mem_append_left _ he)).2
    rw [hy] at hz
    cases hz
    exact he

section Lists

variable {g : Graph} {s : Schedule} {b : NodeId} {x : Node} (hs : s.Lists g)

include hs

theorem Schedule.Lists.mem_body :
    (n, x) ∈ s.body b ↔ (g.Live n ∧ g.nodes[n]? = some x) ∧ x.block = some b ∧ x.op ≠ .phi := by
  rw [Schedule.body, List.mem_filter, hs.mem_iff]
  simp

theorem Schedule.Lists.mem_phis :
    (n, x) ∈ s.phis b ↔ (g.Live n ∧ g.nodes[n]? = some x) ∧
      (x.block = some b ∧ x.op = .phi) ∧ x.mode.isData = true := by
  rw [Schedule.phis, List.mem_filter, hs.mem_iff]
  simp

theorem Schedule.Lists.nodup_body : ((s.body b).map Prod.fst).Nodup :=
  hs.nodup.sublist (List.filter_sublist.map _)

theorem Schedule.Lists.nodup_phis : ((s.phis b).map Prod.fst).Nodup :=
  hs.nodup.sublist (List.filter_sublist.map _)

omit hs in
/-- What acts before a member of a block stands before it in the schedule. -/
theorem Schedule.split_body {l₁ l₂ : Schedule} (hsplit : s.body b = l₁ ++ (n, x) :: l₂) :
    ∃ t₁ t₂, s = t₁ ++ (n, x) :: t₂ ∧ Schedule.body t₁ b = l₁ := by
  obtain ⟨t₁, t₂, rfl, rfl, hlast⟩ := List.filter_eq_append_iff.mp hsplit
  obtain ⟨t₃, t₄, rfl, hnone, -, -⟩ := List.filter_eq_cons_iff.mp hlast
  refine ⟨t₁ ++ t₃, t₄, by simp, ?_⟩
  rw [Schedule.body, List.filter_append, List.filter_eq_nil_iff.mpr hnone, List.append_nil]

/-- Inputs of a member that stand in its block act before it. -/
theorem Schedule.Lists.before_body {l₁ l₂ : Schedule} (hsplit : s.body b = l₁ ++ (n, x) :: l₂)
    {i : NodeId} {y : Node} (hneeds : g.Needs n i) (hy : g.nodes[i]? = some y)
    (hblock : y.block = some b) (hbreaker : y.op.isLoopBreaker = false) : (i, y) ∈ l₁ := by
  obtain ⟨t₁, t₂, rfl, rfl⟩ := Schedule.split_body hsplit
  have hphi : y.op ≠ .phi := by
    intro hop
    rw [hop] at hbreaker
    exact absurd hbreaker (by decide)
  exact List.mem_filter.mpr
    ⟨hs.before t₁ n x t₂ rfl i y hneeds hy hbreaker, by simp [hblock, hphi]⟩

/-- What acts first in a block contains its own inputs. -/
theorem Schedule.Lists.closed_body {l₁ l₂ : Schedule} (hsplit : s.body b = l₁ ++ l₂)
    (hn : (n, x) ∈ l₁) {i : NodeId} {y : Node} (hneeds : g.Needs n i) (hy : g.nodes[i]? = some y)
    (hblock : y.block = some b) (hbreaker : y.op.isLoopBreaker = false) : (i, y) ∈ l₁ := by
  obtain ⟨t₁, t₂, rfl⟩ := List.append_of_mem hn
  rw [List.append_assoc, List.cons_append] at hsplit
  exact List.mem_append_left _ (hs.before_body hsplit hneeds hy hblock hbreaker)

end Lists

/-! ### One member -/

/-- What an action does to the machine. -/
def Action.perform (handler : Handler) (n : NodeId) (m : Machine) : Action → Except Error Machine
  | .value v => m.set n v
  | .write a v => .ok (m.store a v)
  | .invoke callee vs =>
    { m with effects := m.effects.push (.call callee vs) }.set n (handler m.effects callee vs)
  | .nothing | .leave | .finish _ => .ok m

/-- The exit chosen so far, after an action of `n`. -/
def Action.exit (n : NodeId) (exit : Option NodeId) : Action → Option NodeId
  | .leave => some n
  | _ => exit

/-- Whether an action ends the run. -/
def Action.ends : Action → Bool
  | .finish _ => true
  | _ => false

/-- The value an action gives its node. -/
def Action.gives (handler : Handler) (m : Machine) : Action → Option Literal
  | .value v => some v
  | .invoke callee vs => some (handler m.effects callee vs)
  | _ => none

theorem value_perform {action : Action} (h : action.perform handler n m = .ok m') (k : NodeId) :
    m'.value k = if k = n then (action.gives handler m).or (m.value k) else m.value k := by
  cases action with
  | value v =>
    rw [value_set h]
    rfl
  | invoke callee vs =>
    rw [value_set h]
    rfl
  | write a w =>
    cases h
    split <;> rfl
  | _ =>
    cases h
    split <;> rfl

theorem size_perform {action : Action} (h : action.perform handler n m = .ok m') :
    m'.env.size = m.env.size := by
  cases action with
  | value v => exact size_set h
  | invoke callee vs =>
    have hsize := size_set h
    exact hsize
  | write a w =>
    cases h
    rfl
  | _ =>
    cases h
    rfl

/-- An action can be performed if its node is in the arena. -/
theorem exists_perform {action : Action} (hn : n < m.env.size) :
    ∃ m', action.perform handler n m = .ok m' := by
  cases action with
  | value v => exact ⟨_, by rw [Action.perform, Machine.set, if_pos hn]⟩
  | invoke callee vs => exact ⟨_, by rw [Action.perform, Machine.set, if_pos hn]⟩
  | _ => exact ⟨_, rfl⟩

/-- The kinds that read or change memory or are seen. -/
def touches : Op → Bool
  | .load | .store | .call _ => true
  | _ => false

/-- The kinds that give themselves a value when they act. -/
def givesValue : Op → Bool
  | .const _ | .proj (.argument _) | .proj .result | .conv | .binary _ | .cmp _ | .minus | .not
  | .cond | .div | .mod | .load | .call _ => true
  | _ => false

/-- A node of kind `op` may do this. -/
def Action.Fits (op : Op) : Action → Prop
  | .value _ => givesValue op = true ∧ ∀ f, op ≠ .call f
  | .nothing => givesValue op = false ∧ touches op = false
  | .leave => op = .jump ∨ ∃ side, op = .proj (.arm side)
  | .write _ _ => op = .store
  | .invoke f _ => op = .call f
  | .finish (.returned _) => op = .ret
  | .finish .trapped => op = .div ∨ op = .mod
  | .finish .outOfFuel => False

theorem choose_fits {x : Node} {action : Action} (h : choose args m n x = .ok action) :
    action.Fits x.op := by
  cases chooses_of_choose h with
  | const hop | argument hop | result hop | conv hop | binary hop | cmp hop | minus hop | not hop
  | cond hop | load hop => exact ⟨by rw [hop]; rfl, by simp [hop]⟩
  | quotient hop =>
    rcases hop with ⟨hop, -⟩ | ⟨hop, -⟩ <;> exact ⟨by rw [hop]; rfl, by simp [hop]⟩
  | trap hop => exact hop.imp And.left And.left
  | leave hop => exact .inr ⟨_, hop⟩
  | stay hop => exact ⟨by rw [hop]; rfl, by rw [hop]; rfl⟩
  | jump hop => exact .inl hop
  | store hop | call hop | ret hop => exact hop
  | idle hop =>
    simp only [List.mem_cons, List.not_mem_nil, or_false] at hop
    rcases hop with hop | hop | hop | hop | hop | hop <;> simp [Action.Fits, hop, givesValue, touches]

theorem operand_eq_ok {x : Node} {i : Nat} (h : operand m n x i = .ok v) :
    ∃ o, x.operands[i]? = some o ∧ m.value o = some v := by
  unfold operand at h
  split at h
  next => cases h
  next o ho => exact ⟨o, ho, get_eq_ok_iff.mp h⟩

/-- Control leaves through an arm if the branch decides for its side. -/
theorem choose_arm {x : Node} {side : Bool} {action : Action} (hop : x.op = .proj (.arm side))
    (h : choose args m n x = .ok action) :
    ∃ c v decision, x.operands[0]? = some c ∧ m.value c = some v ∧ v.toBool? = some decision ∧
      action = if decision = side then .leave else .nothing := by
  rw [choose, hop] at h
  obtain ⟨v, hv, h⟩ := bind_eq_ok.mp h
  obtain ⟨c, hc, hv⟩ := operand_eq_ok hv
  split at h
  next => cases h
  next decision hdecision =>
    cases h
    exact ⟨c, v, decision, hc, hv, hdecision, rfl⟩

/-- What is read in one machine can be read in another. -/
theorem mapM_get_congr {os os' : List NodeId} (hlen : os'.length = os.length)
    (hread : ∀ (i : Nat) o v, os[i]? = some o → m.get o = .ok v →
      ∃ o', os'[i]? = some o' ∧ m'.get o' = .ok v) {vs : List Literal}
    (h : os.mapM m.get = .ok vs) : os'.mapM m'.get = .ok vs := by
  induction os generalizing os' vs with
  | nil =>
    obtain rfl := List.length_eq_zero_iff.mp hlen
    exact h
  | cons o os ih =>
    cases os' with
    | nil => cases hlen
    | cons o' os' =>
      rw [List.mapM_cons] at h ⊢
      obtain ⟨v, hv, h⟩ := bind_eq_ok.mp h
      obtain ⟨ws, hws, h⟩ := bind_eq_ok.mp h
      obtain ⟨o'', ho'', hv'⟩ := hread 0 o v rfl hv
      cases ho''
      rw [bind_of_ok hv', bind_of_ok (ih (Nat.succ.inj hlen)
        (fun i p w hp hw => hread (i + 1) p w hp hw) hws)]
      exact h

/-- What a node does depends on its kind and mode, on what its operands are worth, and on memory if
it touches that. -/
theorem choose_congr {x y : Node} {action : Action} (hop : y.op = x.op) (hmode : y.mode = x.mode)
    (hlen : y.operands.length = x.operands.length)
    (hread : ∀ (i : Nat) o v, x.operands[i]? = some o → m.get o = .ok v →
      ∃ o', y.operands[i]? = some o' ∧ m'.get o' = .ok v)
    (hmemory : touches x.op = true → m'.state = m.state)
    (h : choose args m n x = .ok action) : choose args m' n y = .ok action := by
  have hoperand {i : Nat} {v : Literal} (hv : operand m n x i = .ok v) :
      operand m' n y i = .ok v := by
    unfold operand at hv ⊢
    split at hv
    next => cases hv
    next o ho =>
      obtain ⟨o', ho', hv'⟩ := hread i o v ho hv
      rw [ho']
      exact hv'
  have hrest {vs : List Literal} (hvs : (x.operands.drop 1).mapM m.get = .ok vs) :
      (y.operands.drop 1).mapM m'.get = .ok vs := by
    refine mapM_get_congr (by simp [hlen]) (fun i o v ho hv => ?_) hvs
    rw [List.getElem?_drop] at ho ⊢
    exact hread (1 + i) o v ho hv
  obtain ⟨op, mode, block, operands, users⟩ := x
  obtain ⟨op', mode', block', operands', users'⟩ := y
  obtain rfl : op' = op := hop
  obtain rfl : mode' = mode := hmode
  cases op' with
  | const v => exact h
  | binary | cmp | div | mod | store =>
    obtain ⟨c, hc, h⟩ := bind_eq_ok.mp h
    obtain ⟨d, hd, h⟩ := bind_eq_ok.mp h
    exact (bind_of_ok (hoperand hc)).trans ((bind_of_ok (hoperand hd)).trans h)
  | minus | not | conv | cond =>
    obtain ⟨c, hc, h⟩ := bind_eq_ok.mp h
    exact (bind_of_ok (hoperand hc)).trans h
  | load =>
    obtain ⟨c, hc, h⟩ := bind_eq_ok.mp h
    have hload : m'.load c.extend = m.load c.extend := by
      unfold Machine.load
      rw [show m'.memory = m.memory from congrArg Prod.fst (hmemory rfl)]
    refine (bind_of_ok (hoperand hc)).trans ?_
    rw [hload]
    exact h
  | call | ret =>
    obtain ⟨vs, hvs, h⟩ := bind_eq_ok.mp h
    exact (bind_of_ok (hrest hvs)).trans h
  | proj kind =>
    cases kind with
    | memory | argument => exact h
    | arm | result =>
      obtain ⟨c, hc, h⟩ := bind_eq_ok.mp h
      exact (bind_of_ok (hoperand hc)).trans h
  | jump | start | stop | bad | phi | block | retired => exact h

/-! ### Some members -/

/-- The members of `l` act one after the other, and none of them ends the run. -/
inductive Passes (handler : Handler) (args : List Literal) :
    Schedule → Machine → Option NodeId → Machine → Option NodeId → Prop where
  | nil {m : Machine} {exit : Option NodeId} : Passes handler args [] m exit m exit
  | cons {n : NodeId} {x : Node} {rest : Schedule} {m m₁ m' : Machine}
    {exit exit' : Option NodeId} {action : Action} : choose args m n x = .ok action →
    action.ends = false → action.perform handler n m = .ok m₁ →
    Passes handler args rest m₁ (action.exit n exit) m' exit' →
    Passes handler args ((n, x) :: rest) m exit m' exit'

theorem runBody_cons (n : NodeId) (x : Node) (rest : Schedule) (m : Machine)
    (exit : Option NodeId) :
    runBody handler args ((n, x) :: rest) m exit = (do
      let action ← choose args m n x
      match action with
      | .finish o => .ok (.finished m o)
      | _ => runBody handler args rest (← action.perform handler n m) (action.exit n exit)) := by
  rw [runBody]
  congr 1
  funext action
  cases action <;> rfl

theorem Passes.through {l : Schedule} {exit exit' : Option NodeId}
    (h : Passes handler args l m exit m' exit') (rest : Schedule) :
    runBody handler args (l ++ rest) m exit = runBody handler args rest m' exit' := by
  induction h with
  | nil => rfl
  | @cons n x l m m₁ m' exit exit' action hchoose hends hperform _ ih =>
    rw [List.cons_append, runBody_cons, hchoose]
    have hstep : (do
        let m ← action.perform handler n m
        runBody handler args (l ++ rest) m (action.exit n exit)) =
        runBody handler args rest m' exit' := by
      rw [hperform]
      exact ih
    cases action with
    | finish o => cases hends
    | _ => exact hstep

/-- What a run of a body consists of: members that pass, and perhaps one that ends the run. -/
theorem passes_of_runBody {l : Schedule} {exit : Option NodeId} {ending : Ending}
    (h : runBody handler args l m exit = .ok ending) :
    (∃ m' exit', ending = .through m' exit' ∧ Passes handler args l m exit m' exit') ∨
      ∃ l₁ n x l₂ m' exit' o, l = l₁ ++ (n, x) :: l₂ ∧ Passes handler args l₁ m exit m' exit' ∧
        choose args m' n x = .ok (.finish o) ∧ ending = .finished m' o := by
  induction l generalizing m exit with
  | nil =>
    cases h
    exact .inl ⟨m, exit, rfl, .nil⟩
  | cons e l ih =>
    obtain ⟨n, x⟩ := e
    rw [runBody_cons] at h
    obtain ⟨action, hchoose, h⟩ := bind_eq_ok.mp h
    cases hends : action.ends with
    | true =>
      cases action with
      | finish o =>
        cases h
        exact .inr ⟨[], n, x, l, m, exit, o, rfl, .nil, hchoose, rfl⟩
      | _ => cases hends
    | false =>
      have h : (do
          let m₁ ← action.perform handler n m
          runBody handler args l m₁ (action.exit n exit)) = .ok ending := by
        cases action with
        | finish o => cases hends
        | _ => exact h
      obtain ⟨m₁, hperform, h⟩ := bind_eq_ok.mp h
      rcases ih h with ⟨m', exit', hend, hpass⟩ | ⟨l₁, k, y, l₂, m', exit', o, rfl, hpass, hend⟩
      · exact .inl ⟨m', exit', hend, .cons hchoose hends hperform hpass⟩
      · exact .inr ⟨(n, x) :: l₁, k, y, l₂, m', exit', o, rfl,
          .cons hchoose hends hperform hpass, hend⟩

theorem Passes.split {l₁ l₂ : Schedule} {exit exit' : Option NodeId}
    (h : Passes handler args (l₁ ++ l₂) m exit m' exit') :
    ∃ m₁ exit₁, Passes handler args l₁ m exit m₁ exit₁ ∧
      Passes handler args l₂ m₁ exit₁ m' exit' := by
  induction l₁ generalizing m exit with
  | nil => exact ⟨m, exit, .nil, h⟩
  | cons e l₁ ih =>
    cases h with
    | cons hchoose hends hperform hrest =>
      obtain ⟨m₁, exit₁, hfirst, hlast⟩ := ih hrest
      exact ⟨m₁, exit₁, .cons hchoose hends hperform hfirst, hlast⟩

theorem Passes.append {l₁ l₂ : Schedule} {exit exit₁ exit' : Option NodeId}
    (h₁ : Passes handler args l₁ m exit m₁ exit₁)
    (h₂ : Passes handler args l₂ m₁ exit₁ m' exit') :
    Passes handler args (l₁ ++ l₂) m exit m' exit' := by
  induction h₁ with
  | nil => exact h₂
  | cons hchoose hends hperform _ ih => exact .cons hchoose hends hperform (ih h₂)

/-- Running the members ends in one way. -/
theorem Passes.unique {l : Schedule} {m₂ : Machine} {exit exit₁ exit₂ : Option NodeId}
    (h₁ : Passes handler args l m exit m₁ exit₁) (h₂ : Passes handler args l m exit m₂ exit₂) :
    m₁ = m₂ ∧ exit₁ = exit₂ := by
  have h := h₁.through []
  rw [h₂.through []] at h
  cases h
  exact ⟨rfl, rfl⟩

theorem Passes.size {l : Schedule} {exit exit' : Option NodeId}
    (h : Passes handler args l m exit m' exit') : m'.env.size = m.env.size := by
  induction h with
  | nil => rfl
  | cons _ _ hperform _ ih => rw [ih, size_perform hperform]

/-- Only the members get values. -/
theorem Passes.value_of_not_mem {l : Schedule} {exit exit' : Option NodeId}
    (h : Passes handler args l m exit m' exit') (hn : n ∉ l.map Prod.fst) :
    m'.value n = m.value n := by
  induction h with
  | nil => rfl
  | cons _ _ hperform _ ih =>
    rw [List.map_cons, List.mem_cons, not_or] at hn
    rw [ih hn.2, value_perform hperform, if_neg hn.1]

/-- What a member does in the middle of a run. -/
theorem Passes.at {l₁ l₂ : Schedule} {x : Node} {exit exit' : Option NodeId}
    (h : Passes handler args (l₁ ++ (n, x) :: l₂) m exit m' exit') :
    ∃ m₁ exit₁ action m₂, Passes handler args l₁ m exit m₁ exit₁ ∧
      choose args m₁ n x = .ok action ∧ action.ends = false ∧
      action.perform handler n m₁ = .ok m₂ ∧
      Passes handler args l₂ m₂ (action.exit n exit₁) m' exit' := by
  obtain ⟨m₁, exit₁, hfirst, hlast⟩ := h.split
  cases hlast with
  | cons hchoose hends hperform hrest =>
    exact ⟨m₁, exit₁, _, _, hfirst, hchoose, hends, hperform, hrest⟩

/-- The exit is the member that left last. -/
theorem Passes.exit {l : Schedule} {exit exit' : Option NodeId}
    (h : Passes handler args l m exit m' exit') :
    exit' = exit ∨ ∃ l₁ n x l₂ m₁ exit₁, l = l₁ ++ (n, x) :: l₂ ∧
      Passes handler args l₁ m exit m₁ exit₁ ∧ choose args m₁ n x = .ok .leave ∧
      exit' = some n := by
  induction h with
  | nil => exact .inl rfl
  | @cons n x l m m₁ m' exit exit' action hchoose hends hperform _ ih =>
    rcases ih with heq | ⟨l₁, k, y, l₂, m₂, exit₂, rfl, hpass, hleave, heq⟩
    · cases action with
      | leave => exact .inr ⟨[], n, x, l, m, exit, rfl, .nil, hchoose, heq⟩
      | _ => exact .inl heq
    · exact .inr ⟨(n, x) :: l₁, k, y, l₂, m₂, exit₂, rfl, .cons hchoose hends hperform hpass,
        hleave, heq⟩

theorem Passes.leaves {l : Schedule} {e : NodeId}
    (h : Passes handler args l m none m' (some e)) :
    ∃ l₁ x l₂ m₁ exit, l = l₁ ++ (e, x) :: l₂ ∧ Passes handler args l₁ m none m₁ exit ∧
      choose args m₁ e x = .ok .leave := by
  rcases h.exit with heq | ⟨l₁, n, x, l₂, m₁, exit, hsplit, hfirst, hleave, heq⟩
  · cases heq
  · cases heq
    exact ⟨l₁, x, l₂, m₁, exit, hsplit, hfirst, hleave⟩

theorem Passes.exit_ne_none {l : Schedule} {exit exit' : Option NodeId}
    (h : Passes handler args l m exit m' exit') (hexit : exit ≠ none) : exit' ≠ none := by
  rcases h.exit with heq | ⟨_, n, _, _, _, _, -, -, -, heq⟩ <;> simp [heq, hexit]

/-! ### Memory -/

/-- How many members of `l` touch memory. -/
def Schedule.touching (l : Schedule) : Nat := l.countP fun e => touches e.2.op

theorem choose_touches {x : Node} {action : Action} (h : choose args m n x = .ok action)
    (hop : touches x.op = false) (hperform : action.perform handler n m = .ok m') :
    m'.state = m.state := by
  have hfits := choose_fits h
  cases action with
  | value v => exact state_set hperform
  | write a v =>
    have hfits : x.op = .store := hfits
    rw [hfits] at hop
    cases hop
  | invoke f vs =>
    have hfits : x.op = .call f := hfits
    rw [hfits] at hop
    cases hop
  | nothing | leave | finish =>
    cases hperform
    rfl

/-- An action does to memory what memory and the action say. -/
theorem state_perform {action : Action} {m₂ : Machine} (h : action.perform handler n m = .ok m₁)
    (h' : action.perform handler n m' = .ok m₂) (hstate : m'.state = m.state) :
    m₂.state = m₁.state := by
  obtain ⟨hmemory, heffects⟩ := Prod.mk.inj hstate
  cases action with
  | value v => rw [state_set h, state_set h', hstate]
  | write a v =>
    cases h
    cases h'
    simp only [Machine.state, Machine.store, hmemory, heffects]
  | invoke f vs =>
    rw [state_set h, state_set h']
    simp only [Machine.state, hmemory, heffects]
  | nothing | leave | finish =>
    cases h
    cases h'
    exact hstate

/-- The value an action gives depends on what was seen only if the member touches memory. -/
theorem gives_congr {x : Node} {action : Action} (h : choose args m n x = .ok action)
    (hmemory : touches x.op = true → m'.state = m.state) :
    action.gives handler m' = action.gives handler m := by
  have hfits := choose_fits h
  cases action with
  | invoke f vs =>
    have hfits : x.op = .call f := hfits
    obtain ⟨-, heffects⟩ := Prod.mk.inj (hmemory (by rw [hfits]; rfl))
    simp only [Action.gives, heffects]
  | _ => rfl

/-- Memory at any point of a run depends only on how many members have touched it. -/
theorem Passes.states {l : Schedule} {exit exit' : Option NodeId}
    (h : Passes handler args l m exit m' exit') :
    ∃ state : Nat → List (BitVec 64 × Literal) × Array Effect, state 0 = m.state ∧
      ∀ l₁ l₂ m₁ exit₁, l = l₁ ++ l₂ → Passes handler args l₁ m exit m₁ exit₁ →
        m₁.state = state l₁.touching := by
  induction h with
  | nil =>
    refine ⟨fun _ => _, rfl, fun l₁ l₂ m₁ exit₁ hl h₁ => ?_⟩
    obtain ⟨rfl, -⟩ := List.append_eq_nil_iff.mp hl.symm
    cases h₁
    rfl
  | @cons n x l m m₁ m' exit exit' action hchoose hends hperform hrest ih =>
    obtain ⟨state, hzero, hall⟩ := ih
    cases hop : touches x.op with
    | false =>
      have hsame := choose_touches hchoose hop hperform
      refine ⟨state, by rw [hzero, hsame], fun l₁ l₂ m₂ exit₂ hl h₂ => ?_⟩
      cases h₂ with
      | nil => rw [← hsame, ← hzero]; rfl
      | cons hchoose' _ hperform' hrest' =>
        obtain ⟨heq, rfl⟩ := List.cons_eq_cons.mp hl
        cases heq
        rw [hchoose] at hchoose'
        cases hchoose'
        rw [hperform] at hperform'
        cases hperform'
        rw [hall _ l₂ _ _ rfl hrest', Schedule.touching, Schedule.touching,
          List.countP_cons_of_neg (by simp [hop])]
    | true =>
      refine ⟨fun j => if j = 0 then m.state else state (j - 1), rfl,
        fun l₁ l₂ m₂ exit₂ hl h₂ => ?_⟩
      cases h₂ with
      | nil => rfl
      | cons hchoose' _ hperform' hrest' =>
        obtain ⟨heq, rfl⟩ := List.cons_eq_cons.mp hl
        cases heq
        rw [hchoose] at hchoose'
        cases hchoose'
        rw [hperform] at hperform'
        cases hperform'
        rw [hall _ l₂ _ _ rfl hrest', Schedule.touching, Schedule.touching,
          List.countP_cons_of_pos (by simp [hop])]
        exact (if_neg (Nat.succ_ne_zero _)).symm

/-! ### Entering a block -/

/-- What arrives at a phi along predecessor `k`. -/
def Machine.incoming (m : Machine) (k : Nat) (e : NodeId × Node) : NodeId × Option Literal :=
  (e.1, e.2.operands[k]?.bind m.value)

/-- The phis of a block take the values that their operands at position `k` have. -/
theorem runPhis_eq_ok {phis : Schedule} {k : Nat} (hnodup : (phis.map Prod.fst).Nodup)
    (h : runPhis phis k m = .ok m') :
    m'.state = m.state ∧ m'.env.size = m.env.size ∧
      (∀ n x, (n, x) ∈ phis →
        ∃ o v, x.operands[k]? = some o ∧ m.value o = some v ∧ m'.value n = some v) ∧
      ∀ n, n ∉ phis.map Prod.fst → m'.value n = m.value n := by
  obtain ⟨incoming, hincoming, h⟩ := bind_eq_ok.mp h
  obtain rfl : incoming = phis.map (m.incoming k) := by
    refine mapM_eq_map hincoming fun e _ i hturn => ?_
    obtain ⟨n, x⟩ := e
    simp only at hturn
    unfold Machine.incoming
    split at hturn
    next hnone =>
      cases hturn
      rw [hnone]
      rfl
    next o ho =>
      obtain ⟨w, hw, hturn⟩ := bind_eq_ok.mp hturn
      cases hturn
      rw [ho, Option.bind_some, Machine.value, get?_eq_ok hw]
      rfl
  have hend := foldlM_eq_ok (I := fun done m₁ => m₁.state = m.state ∧ m₁.env.size = m.env.size ∧
      (∀ i ∈ done, ∃ v, i.2 = some v ∧ m₁.value i.1 = some v) ∧
      ∀ n, n ∉ done.map Prod.fst → m₁.value n = m.value n) h
    ⟨rfl, rfl, by simp, fun _ _ => rfl⟩
    fun done i rest m₁ m₂ hsplit ⟨hstate, hsize, hdone, hother⟩ hturn => by
      obtain ⟨n, w⟩ := i
      cases w with
      | none => cases hturn
      | some v =>
        have hset : m₁.set n v = .ok m₂ := hturn
        have hfresh : n ∉ done.map Prod.fst := by
          have hkeys := congrArg (List.map Prod.fst) hsplit
          rw [List.map_map, List.map_append, List.map_cons] at hkeys
          have hnodup : (done.map Prod.fst ++ n :: rest.map Prod.fst).Nodup := hkeys ▸ hnodup
          exact fun hmem => (List.nodup_append.mp hnodup).2.2 n hmem n List.mem_cons_self rfl
        refine ⟨(state_set hset).trans hstate, (size_set hset).trans hsize, fun i hi => ?_,
          fun j hj => ?_⟩
        · rcases List.mem_append.mp hi with hi | hi
          · obtain ⟨w, hw, hvalue⟩ := hdone i hi
            have hne : i.1 ≠ n := fun heq => hfresh (heq ▸ List.mem_map_of_mem hi)
            exact ⟨w, hw, by rw [value_set hset, if_neg hne, hvalue]⟩
          · obtain rfl := List.mem_singleton.mp hi
            exact ⟨v, rfl, by rw [value_set hset, if_pos rfl]⟩
        · rw [List.map_append, List.mem_append, not_or] at hj
          rw [value_set hset, if_neg (by simpa using hj.2), hother j hj.1]
  obtain ⟨hstate, hsize, hdone, hother⟩ := hend
  refine ⟨hstate, hsize, fun n x hmem => ?_, fun n hn => hother n ?_⟩
  · obtain ⟨v, hv, hvalue⟩ := hdone _ (List.mem_map_of_mem hmem)
    obtain ⟨o, ho, hov⟩ := Option.bind_eq_some_iff.mp hv
    exact ⟨o, v, ho, hov, hvalue⟩
  · rw [List.map_map]
    exact hn

/-- The phis of a block can be set if their operands have values. -/
theorem exists_runPhis {phis : Schedule} {k : Nat}
    (h : ∀ n x, (n, x) ∈ phis →
      n < m.env.size ∧ ∃ o v, x.operands[k]? = some o ∧ m.value o = some v) :
    ∃ m', runPhis phis k m = .ok m' := by
  have hincoming : arrivals phis k m = .ok (phis.map (m.incoming k)) := by
    refine mapM_of_eq_ok fun ⟨n, x⟩ he => ?_
    obtain ⟨-, o, v, ho, hv⟩ := h n x he
    have hget : m.get? o = .ok (some v) := by
      unfold Machine.get?
      rw [value_eq_some.mp hv]
    simp only [Machine.incoming, ho, Option.bind_some, hv]
    exact bind_of_ok hget
  have hstore : ∃ m', storeAll (phis.map (m.incoming k)) m = .ok m' ∧
      m'.env.size = m.env.size := by
    refine exists_foldlM (I := fun _ (m₁ : Machine) => m₁.env.size = m.env.size) rfl
      fun done i rest m₁ hsplit hsize => ?_
    have hi : i ∈ phis.map (m.incoming k) := hsplit ▸ List.mem_append_right _ List.mem_cons_self
    obtain ⟨⟨n, x⟩, hmem, rfl⟩ := List.mem_map.mp hi
    obtain ⟨hn, o, v, ho, hv⟩ := h n x hmem
    have hset : m₁.set n v = .ok { m₁ with env := m₁.env.setIfInBounds n (some v) } :=
      if_pos (hsize ▸ hn)
    refine ⟨_, ?_, (size_set hset).trans hsize⟩
    simpa only [Machine.incoming, ho, Option.bind_some, hv] using hset
  obtain ⟨m', hm', -⟩ := hstore
  exact ⟨m', (bind_of_ok hincoming).trans hm'⟩

variable {g : Graph} {s : Schedule} {p : Position}

/-- A block that passes control on. -/
theorem runBlock_eq_inl {q : Position}
    (h : runBlock g s handler args p m = .ok (.inl (q, m'))) :
    ∃ m₀ e, arrive s p m = .ok m₀ ∧ Passes handler args (s.body p.block) m₀ none m' (some e) ∧
      follow g e = .ok q := by
  rw [runBlock_eq] at h
  obtain ⟨m₀, harrive, h⟩ := bind_eq_ok.mp h
  obtain ⟨ending, hbody, h⟩ := bind_eq_ok.mp h
  rcases passes_of_runBody hbody with ⟨m₁, exit, rfl, hpass⟩ | ⟨_, _, _, _, _, _, _, -, -, -, rfl⟩
  · cases exit with
    | none => cases h
    | some e =>
      obtain ⟨q', hfollow, h⟩ := bind_eq_ok.mp h
      cases h
      exact ⟨m₀, e, harrive, hpass, hfollow⟩
  · cases h

/-- A block in which the run ends. -/
theorem runBlock_eq_inr {o : Outcome}
    (h : runBlock g s handler args p m = .ok (.inr (m', o))) :
    ∃ m₀ l₁ n x l₂ exit, arrive s p m = .ok m₀ ∧ s.body p.block = l₁ ++ (n, x) :: l₂ ∧
      Passes handler args l₁ m₀ none m' exit ∧ choose args m' n x = .ok (.finish o) := by
  rw [runBlock_eq] at h
  obtain ⟨m₀, harrive, h⟩ := bind_eq_ok.mp h
  obtain ⟨ending, hbody, h⟩ := bind_eq_ok.mp h
  rcases passes_of_runBody hbody with
    ⟨m₁, exit, rfl, hpass⟩ | ⟨l₁, n, x, l₂, m₁, exit, o', hsplit, hpass, hend, rfl⟩
  · cases exit with
    | none => cases h
    | some e =>
      obtain ⟨q', hfollow, h⟩ := bind_eq_ok.mp h
      cases h
  · cases h
    exact ⟨m₀, l₁, n, x, l₂, exit, harrive, hsplit, hpass, hend⟩

theorem runBlock_of_passes {q : Position} {e : NodeId} (harrive : arrive s p m = .ok m₁)
    (hpass : Passes handler args (s.body p.block) m₁ none m' (some e))
    (hfollow : follow g e = .ok q) : runBlock g s handler args p m = .ok (.inl (q, m')) := by
  have hbody := hpass.through []
  rw [List.append_nil] at hbody
  rw [runBlock_eq]
  exact (bind_of_ok harrive).trans ((bind_of_ok hbody).trans (bind_of_ok hfollow))

theorem runBlock_of_finish {l₁ l₂ : Schedule} {x : Node} {exit : Option NodeId} {o : Outcome}
    (harrive : arrive s p m = .ok m₁) (hsplit : s.body p.block = l₁ ++ (n, x) :: l₂)
    (hpass : Passes handler args l₁ m₁ none m' exit)
    (hfinish : choose args m' n x = .ok (.finish o)) :
    runBlock g s handler args p m = .ok (.inr (m', o)) := by
  have hbody : runBody handler args (s.body p.block) m₁ none = .ok (.finished m' o) := by
    rw [hsplit, hpass.through, runBody_cons, hfinish]
    rfl
  rw [runBlock_eq]
  exact (bind_of_ok harrive).trans (bind_of_ok hbody)

end Execution

end SeaOfNodes
