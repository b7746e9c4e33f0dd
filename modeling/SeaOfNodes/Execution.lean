import SeaOfNodes.Graph.Walk

/-!
Running a function on concrete arguments.

A run enters blocks one after another. Entering a block through its predecessor `k` sets its phis
at once from their operands `k`; then the other members act in the order of the walk. What can be
seen from outside is recorded: stores, calls, and how the run ended. Entering a block costs one
unit of fuel, and a run without fuel left ends there.
-/

namespace SeaOfNodes

/-- Something an observer sees. -/
inductive Effect where
  | store (address : BitVec 64) (value : Literal)
  | call (callee : String) (args : List Literal)
deriving DecidableEq

/-- How a run ended. -/
inductive Outcome where
  | returned (values : List Literal)
  | trapped
  | outOfFuel
deriving DecidableEq

structure Execution where
  effects : Array Effect
  outcome : Outcome
  /-- Number of blocks entered. -/
  steps : Nat
deriving DecidableEq

/-- Answers a call, knowing what was seen before it. -/
abbrev Handler := Array Effect → String → List Literal → Literal

/-- Answers with the sum of the arguments and the length of the name in bytes. -/
def Handler.default : Handler := fun _ callee args =>
  .int .i64 (args.foldl (fun acc v => acc + v.extend) (BitVec.ofNat 64 callee.utf8ByteSize))

namespace Execution

/-- Block entries allowed unless said otherwise. -/
def defaultFuel : Nat := 10000

/-- The live nodes with their records, in the order of the walk. -/
abbrev Schedule := List (NodeId × Node)

def schedule (g : Graph) : Except Error Schedule := do
  let walk ← Walk.run g
  walk.order.mapM fun n => return (n, ← g.node n)

/-- The phis of a block that carry data. -/
def Schedule.phis (s : Schedule) (block : NodeId) : Schedule :=
  s.filter fun (_, x) => x.block == some block && x.op == .phi && x.mode.isData

/-- The members of a block that act after its phis. -/
def Schedule.body (s : Schedule) (block : NodeId) : Schedule :=
  s.filter fun (_, x) => x.block == some block && x.op != .phi

/-- Values of nodes, memory, and what was seen. -/
structure Machine where
  env : Array (Option Literal)
  memory : List (BitVec 64 × Literal)
  effects : Array Effect

namespace Machine

def initial (g : Graph) : Machine where
  env := Array.replicate g.size none
  memory := []
  effects := #[]

/-- The value of a node, if it has one yet. -/
def get? (m : Machine) (n : NodeId) : Except Error (Option Literal) :=
  match m.env[n]? with
  | some v => .ok v
  | none => .error .outOfRange

def get (m : Machine) (n : NodeId) : Except Error Literal := do
  match ← m.get? n with
  | some v => return v
  | none => .error (.undefinedValue n)

def set (m : Machine) (n : NodeId) (v : Literal) : Except Error Machine :=
  if n < m.env.size then .ok { m with env := m.env.setIfInBounds n (some v) }
  else .error .outOfRange

/-- Addresses never written hold zero. -/
def load (m : Machine) (address : BitVec 64) : Literal :=
  (m.memory.lookup address).getD (.int .i64 0)

def store (m : Machine) (address : BitVec 64) (value : Literal) : Machine :=
  { m with
    memory := (address, value) :: m.memory.filter fun e => e.1 != address
    effects := m.effects.push (.store address value) }

end Machine

/-- What a node does when it acts. -/
inductive Action where
  /-- It produces a value. -/
  | value (v : Literal)
  | nothing
  /-- Control leaves the block through it. -/
  | leave
  | write (address : BitVec 64) (value : Literal)
  | invoke (callee : String) (args : List Literal)
  /-- The run ends. -/
  | finish (outcome : Outcome)

/-- The value of the operand of `n` at position `i`. -/
def operand (m : Machine) (n : NodeId) (x : Node) (i : Nat) : Except Error Literal :=
  match x.operands[i]? with
  | none => .error (.malformed (.missingOperand n i))
  | some o => m.get o

/-- A result the operands may not have. -/
def typed (n : NodeId) : Option Literal → Except Error Action
  | some v => .ok (.value v)
  | none => .error (.illTyped n)

/-- Chooses what `n` does. -/
def choose (args : List Literal) (m : Machine) (n : NodeId) (x : Node) : Except Error Action :=
  match x.op with
  | .const v => .ok (.value v)
  | .proj (.argument i) =>
    match args[i]? with
    | none => .error (.missingArgument i)
    | some v => typed n (v.convert? x.mode)
  | .proj .result | .conv => do typed n ((← operand m n x 0).convert? x.mode)
  | .proj (.arm side) => do
    match (← operand m n x 0).toBool? with
    | none => .error (.illTyped n)
    | some b => return if b = side then .leave else .nothing
  | .binary op => do
    let a ← operand m n x 0
    let b ← operand m n x 1
    typed n (op.eval a b)
  | .cmp r => do
    let a ← operand m n x 0
    let b ← operand m n x 1
    typed n ((r.eval a b).map .bool)
  | .minus => do typed n (← operand m n x 0).neg?
  | .not => do return .value (← operand m n x 0).complement
  | .cond => do return .value (← operand m n x 0)
  | .div => do
    let a ← operand m n x 1
    let b ← operand m n x 2
    return ((a.div? b).map .value).getD (.finish .trapped)
  | .mod => do
    let a ← operand m n x 1
    let b ← operand m n x 2
    return ((a.rem? b).map .value).getD (.finish .trapped)
  | .load => do return .value (m.load (← operand m n x 1).extend)
  | .store => do
    let a ← operand m n x 1
    let v ← operand m n x 2
    return .write a.extend v
  | .call callee => do return .invoke callee (← (x.operands.drop 1).mapM m.get)
  | .ret => do return .finish (.returned (← (x.operands.drop 1).mapM m.get))
  | .jump => .ok .leave
  | .proj .memory | .start | .stop | .bad | .phi | .block => .ok .nothing
  | .retired => .error (.retiredNode n)

/-- How the members of a block ended: with the edge control left by, if any, or with the run. -/
inductive Ending where
  | through (machine : Machine) (exit : Option NodeId)
  | finished (machine : Machine) (outcome : Outcome)

/-- Lets the members act one after another; the last edge chosen is the exit. -/
def runBody (handler : Handler) (args : List Literal) :
    Schedule → Machine → Option NodeId → Except Error Ending
  | [], m, exit => .ok (.through m exit)
  | (n, x) :: rest, m, exit => do
    match ← choose args m n x with
    | .value v => runBody handler args rest (← m.set n v) exit
    | .nothing => runBody handler args rest m exit
    | .leave => runBody handler args rest m (some n)
    | .write a v => runBody handler args rest (m.store a v) exit
    | .invoke callee vs =>
      let answer := handler m.effects callee vs
      let seen := { m with effects := m.effects.push (.call callee vs) }
      runBody handler args rest (← seen.set n answer) exit
    | .finish o => .ok (.finished m o)

/-- Sets the phis at once from their operands at position `k`. -/
def runPhis (phis : Schedule) (k : Nat) (m : Machine) : Except Error Machine := do
  let incoming ← phis.mapM fun (n, x) => do
    match x.operands[k]? with
    | none => return (n, none)
    | some o => return (n, ← m.get? o)
  incoming.foldlM (fun m (n, v) =>
    match v with
    | none => .error (.undefinedValue n)
    | some v => m.set n v) m

/-- Where a run stands: about to enter `block`, through its predecessor `via`. -/
structure Position where
  block : NodeId
  via : Option Nat

/-- The block an edge leads to, and the edge's position among its predecessors. -/
def follow (g : Graph) (edge : NodeId) : Except Error Position := do
  let x ← g.node edge
  match (← g.select (·.op == .block) x.users).head? with
  | none => .error (.malformed (.deadEnd edge))
  | some block => return { block, via := (← g.node block).operands.idxOf? edge }

/-- Runs one block. -/
def runBlock (g : Graph) (s : Schedule) (handler : Handler) (args : List Literal)
    (p : Position) (m : Machine) : Except Error ((Position × Machine) ⊕ (Machine × Outcome)) := do
  let m ← match p.via with
    | none => pure m
    | some k => runPhis (s.phis p.block) k m
  match ← runBody handler args (s.body p.block) m none with
  | .finished m o => return .inr (m, o)
  | .through _ none => .error (.malformed (.noExit p.block))
  | .through m (some edge) => return .inl (← follow g edge, m)

/-- Runs blocks until the run ends or the fuel is used up. -/
def runFrom (g : Graph) (s : Schedule) (handler : Handler) (args : List Literal) :
    (fuel steps : Nat) → Position → Machine → Except Error Execution
  | 0, steps, _, m => .ok { effects := m.effects, outcome := .outOfFuel, steps }
  | fuel + 1, steps, p, m => do
    match ← runBlock g s handler args p m with
    | .inl (p, m) => runFrom g s handler args fuel (steps + 1) p m
    | .inr (m, outcome) => return { effects := m.effects, outcome, steps := steps + 1 }

end Execution

/-- Runs the function. -/
def Graph.execute (g : Graph) (args : List Literal) (handler : Handler := Handler.default)
    (fuel : Nat := Execution.defaultFuel) : Except Error Execution := do
  let s ← Execution.schedule g
  Execution.runFrom g s handler args fuel 0 { block := Anchor.startBlock, via := none }
    (Execution.Machine.initial g)

end SeaOfNodes
