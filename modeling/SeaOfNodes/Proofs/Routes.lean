import SeaOfNodes.Execution
import SeaOfNodes.Proofs.Flow
import SeaOfNodes.Proofs.Liveness
import SeaOfNodes.Proofs.Verified

/-!
Routes of control, and what a function in proper form promises along them.

A route lists the blocks control passes from the entry on, the last first, each with the predecessor
it was entered through. Routes may be put together where they meet in a block (`Route.paste`). From
that follows that a definition which dominates the only way into a block is not passed again on the
way from that block to one that it dominates (`Route.not_repeated`).
-/

namespace SeaOfNodes

namespace Execution

/-- The blocks passed, the last first. Only edges that satisfy `ok` are followed. -/
inductive Route (g : Graph) (ok : NodeId → Prop) : List Position → Prop where
  | entry : Route g ok [{ block := Anchor.startBlock, via := none }]
  | step {p : Position} {rest : List Position} {b e : NodeId} {k : Nat} {x : Node} :
    Route g ok (p :: rest) → g.Live b → g.nodes[b]? = some x → x.op = .block →
    x.operands[k]? = some e → g.blockOf e = some p.block → ok e →
    Route g ok ({ block := b, via := some k } :: p :: rest)

/-- The blocks of a route. -/
abbrev blocks (route : List Position) : List NodeId := route.map Position.block

variable {g : Graph} {ok ok' : NodeId → Prop}

theorem Route.mono (hok : ∀ e, ok e → ok' e) {route : List Position} (h : Route g ok route) :
    Route g ok' route := by
  induction h with
  | entry => exact .entry
  | step _ hb hx hop hk he hfollow ih => exact .step ih hb hx hop hk he (hok _ hfollow)

/-- What remains of a route when the last blocks are left out is a route. -/
theorem Route.drop (after : List Position) {rest : List Position} {p : Position}
    (h : Route g ok (after ++ p :: rest)) : Route g ok (p :: rest) := by
  induction after with
  | nil => exact h
  | cons q after ih =>
    refine ih ?_
    rw [List.cons_append] at h
    generalize hroute : after ++ p :: rest = route at h
    cases h with
    | entry => simp at hroute
    | step hrest => exact hrest

/-- Two routes that meet in a block may be put together there. -/
theorem Route.paste {after rest rest' : List Position} {p p' : Position}
    (h : Route g ok (after ++ p :: rest)) (h' : Route g ok (p' :: rest'))
    (hmeet : p'.block = p.block) : Route g ok (after ++ p' :: rest') := by
  induction after with
  | nil => exact h'
  | cons q after ih =>
    rw [List.cons_append] at h ⊢
    cases after with
    | nil =>
      cases h with
      | step hrest hb hx hop hk he hfollow =>
        exact .step h' hb hx hop hk (by rw [hmeet]; exact he) hfollow
    | cons q' after =>
      have holder := ih (Route.drop [q] h)
      cases h with
      | step hrest hb hx hop hk he hfollow => exact .step holder hb hx hop hk he hfollow

/-- Every route to `b` passes `c`. -/
def Dominates (g : Graph) (ok : NodeId → Prop) (c b : NodeId) : Prop :=
  ∀ p rest, Route g ok (p :: rest) → p.block = b → c ∈ blocks (p :: rest)

theorem Dominates.mono {b c : NodeId} (hok : ∀ e, ok e → ok' e) (hdom : Dominates g ok' c b) :
    Dominates g ok c b :=
  fun p rest hroute hp => hdom p rest (hroute.mono hok) hp

/-- What dominates a block dominates every block before it, but for the block itself. -/
theorem Dominates.before {b c d e : NodeId} {k : Nat} {x : Node} (hdom : Dominates g ok c b)
    (hne : c ≠ b) (hb : g.Live b) (hx : g.nodes[b]? = some x) (hop : x.op = .block)
    (hk : x.operands[k]? = some e) (he : g.blockOf e = some d) (hfollow : ok e) :
    Dominates g ok c d := by
  intro p rest hroute hp
  -- A route to the block before goes on into this one.
  have hmem := hdom _ _ (Route.step hroute hb hx hop hk (hp ▸ he) hfollow) rfl
  exact (List.mem_cons.mp hmem).resolve_left hne

/-- Whatever is passed on the way into `b` dominates what `b` dominates. -/
theorem Dominates.of_entry {b c d : NodeId} (hdom : Dominates g ok b d)
    (hentry : ∀ q older, Route g ok (q :: older) → q.block = b → c ∈ blocks older) :
    Dominates g ok c d := by
  intro p rest hroute hp
  obtain ⟨q, hq, hqb⟩ := List.mem_map.mp (hdom p rest hroute hp)
  obtain ⟨after, older, hsplit⟩ := List.append_of_mem hq
  rw [hsplit] at hroute
  rw [hsplit, blocks, List.map_append, List.map_cons]
  exact List.mem_append_right _ (List.mem_cons_of_mem _ (hentry q older (hroute.drop after) hqb))

/-- The first time a route passes a block. -/
theorem exists_first {c : NodeId} {route : List Position} (h : c ∈ blocks route) :
    ∃ after p rest, route = after ++ p :: rest ∧ p.block = c ∧ c ∉ blocks rest := by
  induction route with
  | nil => cases h
  | cons q route ih =>
    by_cases hin : c ∈ blocks route
    · obtain ⟨after, p, rest, rfl, hp, hrest⟩ := ih hin
      exact ⟨q :: after, p, rest, rfl, hp, hrest⟩
    · rcases List.mem_cons.mp h with rfl | h
      · exact ⟨[], q, route, rfl, rfl, hin⟩
      · exact absurd h hin

/-- The last time a route passes a block. -/
theorem exists_last {c : NodeId} {route : List Position} (h : c ∈ blocks route) :
    ∃ after p rest, route = after ++ p :: rest ∧ p.block = c ∧ c ∉ blocks after := by
  induction route with
  | nil => cases h
  | cons q route ih =>
    by_cases hq : q.block = c
    · exact ⟨[], q, route, rfl, hq, List.not_mem_nil⟩
    · rcases List.mem_cons.mp h with heq | h
      · exact absurd heq.symm hq
      · obtain ⟨after, p, rest, rfl, hp, hafter⟩ := ih h
        refine ⟨q :: after, p, rest, rfl, hp, fun hmem => ?_⟩
        rcases List.mem_cons.mp hmem with heq | hmem
        · exact hq heq.symm
        · exact hafter hmem

/-- Blocks that dominate each other are the same. -/
theorem Dominates.antisymm {b c : NodeId} (hcb : Dominates g ok c b) (hbc : Dominates g ok b c)
    {p : Position} {rest : List Position} (hroute : Route g ok (p :: rest)) (hp : p.block = b) :
    c = b := by
  obtain ⟨after, q, older, hsplit, hq, hfirst⟩ :=
    @exists_first b (p :: rest) (by simp [blocks, hp])
  rw [hsplit] at hroute
  have hroute := hroute.drop after
  rcases List.mem_cons.mp (hcb q older hroute hq) with heq | hmem
  · exact heq.trans hq
  · -- Otherwise the route to `c` leads around `b`.
    obtain ⟨u, hu, huc⟩ := List.mem_map.mp hmem
    obtain ⟨between, before, rfl⟩ := List.append_of_mem hu
    have hmem := hbc u before (Route.drop (q :: between) hroute) huc
    refine absurd ?_ hfirst
    rw [blocks, List.map_append, List.mem_append]
    exact .inr hmem

/-- Suppose `c` is passed before every entry into `b`, and `b` dominates the last block of a route.
Then `c` is another block, and it is not passed again after `b` is passed last. -/
theorem Route.not_repeated {after rest : List Position} {p : Position} {b c d : NodeId}
    (h : Route g ok (after ++ p :: rest)) (hp : p.block = b) (hafter : b ∉ blocks after)
    (hentry : ∀ q older, Route g ok (q :: older) → q.block = b → c ∈ blocks older)
    (hhead : (after ++ p :: rest).head?.map Position.block = some d)
    (hdom : Dominates g ok b d) : c ≠ b ∧ c ∉ blocks after := by
  -- The route up to the first time `b` is passed, and in it the first time `c` is.
  obtain ⟨later, q, older, hsplit, hq, hfirst⟩ :=
    @exists_first b (p :: rest) (by simp [blocks, hp])
  have hq' : Route g ok (q :: older) := by
    have hrest := h.drop after
    rw [hsplit] at hrest
    exact hrest.drop later
  have hc := hentry q older hq' hq
  refine ⟨fun heq => hfirst (heq ▸ hc), fun hmem => ?_⟩
  obtain ⟨between, u, before, rfl, hu, -⟩ := exists_first hc
  have hu' : Route g ok (u :: before) := Route.drop (q :: between) hq'
  obtain ⟨last, v, more, rfl, hv, -⟩ := exists_first hmem
  -- From there on as the route goes on after it passed `c` again: that way leads around `b`.
  rw [List.append_assoc, List.cons_append] at h hhead
  have haround := h.paste hu' (hu.trans hv.symm)
  have hnot : b ∉ blocks (last ++ u :: before) := by
    intro hb
    rw [blocks, List.map_append, List.mem_append, List.map_cons] at hb
    rcases hb with hb | hb
    · exact hafter (by simp [blocks, hb])
    · exact hfirst (by simp only [blocks, List.map_append, List.map_cons, List.mem_append]
                       exact .inr hb)
  cases last with
  | nil =>
    refine hnot (hdom u before haround ?_)
    simpa [hu, hv] using hhead
  | cons w last =>
    refine hnot (hdom w _ haround ?_)
    simpa using hhead

/-! ### Memory along a route -/

/-- The members of a block that act on memory, in the order in which they act. -/
def Schedule.events (s : Schedule) (block : NodeId) : List NodeId :=
  ((s.body block).filter fun (_, x) => x.op.usesMemory).map Prod.fst

/-- `m` is the state of memory before event `j` of the last block of a route. -/
inductive Current (g : Graph) (s : Schedule) : List Position → Nat → NodeId → Prop where
  /-- The state the function is called in. -/
  | initial {p : Position} {m : NodeId} {x : Node} : g.nodes[m]? = some x →
    x.op = .proj .memory → x.operands = [Anchor.start] → Current g s [p] 0 m
  /-- The state the event before left. -/
  | after {p : Position} {rest : List Position} {j : Nat} {t m : NodeId} {x : Node} :
    (s.events p.block)[j]? = some t → g.nodes[m]? = some x → x.op = .proj .memory →
    x.operands = [t] → Current g s (p :: rest) (j + 1) m
  /-- The state at the end of the block before. -/
  | pass {p q : Position} {rest : List Position} {m : NodeId} :
    g.blockOf m ≠ some p.block → Current g s (q :: rest) (s.events q.block).length m →
    Current g s (p :: q :: rest) 0 m
  /-- A phi of the block, if that state is its operand. -/
  | merge {p q : Position} {rest : List Position} {k : Nat} {m o : NodeId} {x : Node} :
    g.nodes[m]? = some x → x.op = .phi → x.block = some p.block → p.via = some k →
    x.operands[k]? = some o → Current g s (q :: rest) (s.events q.block).length o →
    Current g s (p :: q :: rest) 0 m

end Execution

/-! ### Proper form -/

/-- The kinds of edges that control leaves a block by. -/
def Op.isExit : Op → Bool
  | jump | ret => true
  | proj k => k.isArm
  | _ => false

namespace Graph

open Execution

/-- A live node of `b` that takes part in leaving it. -/
structure Leaves (g : Graph) (b n : NodeId) (x : Node) : Prop where
  live : g.Live n
  slot : g.nodes[n]? = some x
  block : x.block = some b
  kind : x.op = .cond ∨ x.op.isExit = true

/-- Control leaves `b` in one way: by a jump or a return, or by one branch with its two arms. -/
def LeftOnce (g : Graph) (b : NodeId) : Prop :=
  (∃ e x, g.Leaves b e x ∧ (x.op = .jump ∨ x.op = .ret) ∧ ∀ n y, g.Leaves b n y → n = e) ∨
    ∃ (c : NodeId) (x : Node) (arm : Bool → NodeId), g.Leaves b c x ∧ x.op = .cond ∧
      (∀ side, ∃ y, g.Leaves b (arm side) y ∧ y.op = .proj (.arm side) ∧ y.operands = [c]) ∧
      ∀ n y, g.Leaves b n y → n = c ∨ ∃ side, n = arm side

/-- If a jump or a return leaves a block, nothing else does. -/
theorem LeftOnce.eq_of_plain {g : Graph} {b e : NodeId} {x : Node} (h : g.LeftOnce b)
    (he : g.Leaves b e x) (hop : x.op = .jump ∨ x.op = .ret) {n : NodeId} {y : Node}
    (hn : g.Leaves b n y) : n = e := by
  rcases h with ⟨e', x', -, -, hsole⟩ | ⟨c, x', arm, hc, hcop, harm, hall⟩
  · rw [hsole n y hn, hsole e x he]
  · exfalso
    rcases hall e x he with rfl | ⟨side, rfl⟩
    · cases he.slot.symm.trans hc.slot
      rcases hop with hop | hop <;> cases hcop.symm.trans hop
    · obtain ⟨z, hz, hzop, -⟩ := harm side
      cases he.slot.symm.trans hz.slot
      rcases hop with hop | hop <;> cases hzop.symm.trans hop

/-- No control edge leaves the exit block. -/
def Terminal (g : Graph) : Prop :=
  ∀ n x, g.Live n → g.nodes[n]? = some x → x.block = some Anchor.endBlock → x.op.isExit = false

/-- A function in static single assignment form. -/
structure Proper (g : Graph) : Prop where
  /-- Nothing leads back to the entry. -/
  entry : g.operands Anchor.startBlock = []
  /-- Blocks stand nowhere, all other nodes in blocks. -/
  block : ∀ b x, g.Live b → g.nodes[b]? = some x → x.op = .block → x.block = none
  member : ∀ n x, g.Live n → g.nodes[n]? = some x → x.op ≠ .block →
    ∃ b y, x.block = some b ∧ g.nodes[b]? = some y ∧ y.op = .block
  leaf : ∀ (n : NodeId) (x : Node), g.nodes[n]? = some x →
    (∃ v, x.op = .const v) ∨ x.op = .bad → x.operands = []
  projection : ∀ n x k, g.Live n → g.nodes[n]? = some x → x.op = .proj k →
    ∃ t, x.operands = [t]
  exit : ∀ b x, g.Live b → g.nodes[b]? = some x → x.op = .block → b ≠ Anchor.endBlock →
    g.LeftOnce b
  /-- A control edge enters one block, at one position. -/
  edge : ∀ e x, g.Live e → g.nodes[e]? = some x → x.op.isExit = true →
    ∃ (b : NodeId) (y : Node), g.Live b ∧ g.nodes[b]? = some y ∧ y.op = .block ∧
      y.operands.count e = 1 ∧
      ∀ (c : NodeId) (z : Node), g.Live c → g.nodes[c]? = some z → z.op = .block →
        e ∈ z.operands → c = b
  /-- Definitions dominate their uses; what is only kept alive is not used. -/
  operand : ∀ n x o b c, g.Live n → g.nodes[n]? = some x → x.op ≠ .block → x.op ≠ .phi →
    n ≠ Anchor.stop → o ∈ x.operands → x.block = some b → g.blockOf o = some c →
    Dominates g (fun _ => True) c b
  /-- An operand of a phi dominates the edge it belongs to. -/
  phi : ∀ n x b k o c, g.Live n → g.nodes[n]? = some x → x.op = .phi → x.block = some b →
    x.operands[k]? = some o → g.blockOf o = some c →
    ∀ rest, Route g (fun _ => True) ({ block := b, via := some k } :: rest) → c ∈ blocks rest
  /-- What acts on memory consumes the state that what acted before it left. -/
  memory : ∀ s, schedule g = .ok s → ∀ p rest, Route g (fun _ => True) (p :: rest) →
    ∀ j t x m, (s.events p.block)[j]? = some t → g.nodes[t]? = some x →
      x.operands.head? = some m → Current g s (p :: rest) j m

end Graph

end SeaOfNodes
