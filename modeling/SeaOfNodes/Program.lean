import SeaOfNodes.Graph.Basic

/-!
Programs: the functions of a compilation unit, in order. Names may repeat; the first function of
a name is the one found.
-/

namespace SeaOfNodes

structure Program where
  functions : List Graph

namespace Program

def push (p : Program) (g : Graph) : Program := { functions := p.functions ++ [g] }

def length (p : Program) : Nat := p.functions.length

def names (p : Program) : List String := p.functions.map Graph.name

def find? (p : Program) (name : String) : Option Graph := p.functions.find? fun g => g.name == name

/-- Keeps the functions whose names satisfy the test. -/
def retain (p : Program) (keep : String → Bool) : Program :=
  { functions := p.functions.filter fun g => keep g.name }

end Program

end SeaOfNodes
