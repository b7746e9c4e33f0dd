import SeaOfNodes.Literal

/-!
Facts: what an analysis knows about a value.

A fact is `unknown` (no evidence yet), `constant c` (all evidence agrees on `c`) or `varying`.
`meet` combines evidence; along the order it induces a fact changes at most twice.
-/

namespace SeaOfNodes

inductive Fact where
  | unknown
  | constant (value : Literal)
  | varying
deriving DecidableEq

namespace Fact

def constant? : Fact → Option Literal
  | constant c => some c
  | _ => none

/-- Combines the evidence of two facts. -/
def meet : Fact → Fact → Fact
  | unknown, b => b
  | a, unknown => a
  | constant a, constant b => if a = b then constant a else varying
  | _, _ => varying

/-- Order of knowledge: `a` adds nothing to `b`. -/
def le (a b : Fact) : Bool := a.meet b == b

/-- A computation without a result leaves the value unpredictable. -/
def ofOption : Option Literal → Fact
  | some c => constant c
  | none => varying

/-- Computes with one fact. -/
def map (f : Literal → Option Literal) : Fact → Fact
  | constant c => ofOption (f c)
  | a => a

/-- Computes with two facts. A varying operand decides the result even if the other is unknown. -/
def combine (f : Literal → Literal → Option Literal) : Fact → Fact → Fact
  | varying, _ => varying
  | _, varying => varying
  | unknown, _ => unknown
  | _, unknown => unknown
  | constant a, constant b => ofOption (f a b)

/-- How many changes a fact can still undergo. -/
def height : Fact → Nat
  | unknown => 2
  | constant _ => 1
  | varying => 0

def text : Fact → String
  | unknown => "Unknown"
  | constant c => "Constant(" ++ c.text ++ ")"
  | varying => "NotConstant"

/-- A fact that grows to a different one comes closer to `varying`. -/
theorem height_lt_of_le {a b : Fact} (hle : a.le b = true) (hne : a ≠ b) :
    b.height < a.height := by
  cases a with
  | unknown => cases b <;> simp_all [height]
  | constant x =>
    cases b with
    | unknown => simp [le, meet] at hle
    | constant y =>
      by_cases h : x = y
      · exact absurd (h ▸ rfl) hne
      · simp [le, meet, h] at hle
    | varying => simp [height]
  | varying => cases b <;> simp_all [le, meet]

theorem height_le_two (a : Fact) : a.height ≤ 2 := by
  cases a <;> simp [height]

end Fact

end SeaOfNodes
