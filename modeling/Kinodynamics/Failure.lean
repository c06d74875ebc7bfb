/-
# Failures

A computation on vectors comes to an answer, to a reported error, or to operands
whose sizes do not fit, which no error of the domain describes.

Key definitions: `Failure`, `Outcome`, `Outcome.sizes`, `Outcome.ofOption`.
-/
namespace Kinodynamics

/-- What stops a computation. -/
inductive Failure (ε : Type) where
  /-- An error that callers are told about. -/
  | reported (error : ε)
  /-- Vectors or matrices of unequal size met. -/
  | sizes

/-- The error wrapped into another kind of error. -/
def Failure.map {ε ε' : Type} (f : ε → ε') : Failure ε → Failure ε'
  | .reported e => .reported (f e)
  | .sizes => .sizes

/-- An answer or what stops it. -/
abbrev Outcome (ε α : Type) := Except (Failure ε) α

namespace Outcome

variable {ε ε' α : Type}

/-- The computation stops with a reported error. -/
def fail (e : ε) : Outcome ε α := .error (.reported e)

/-- The computation stops at operands whose sizes do not fit. -/
def sizes : Outcome ε α := .error .sizes

/-- An absent answer stands for sizes that do not fit. -/
def ofOption : Option α → Outcome ε α
  | some a => .ok a
  | none => sizes

/-- The reported error wrapped into another kind of error. -/
def wrap (f : ε → ε') : Outcome ε α → Outcome ε' α
  | .ok a => .ok a
  | .error e => .error (e.map f)

/-- A result with a reported error as an outcome. -/
def ofExcept : Except ε α → Outcome ε α
  | .ok a => .ok a
  | .error e => fail e

end Outcome

end Kinodynamics
