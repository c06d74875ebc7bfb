/-
# Triangular conditionals

A conditional `R x + Σ Sⱼ yⱼ = d` gives one variable in terms of its parents. A
net lists conditionals in elimination order; solving goes from the last to the
first, so the parents of a conditional have their values when it is reached.

Key definitions: `Conditional`, `Conditional.solve`, `BayesNet`, `BayesNet.solve`.
-/
import Kinodynamics.Dense.Triangular
import Kinodynamics.Gaussian.Equation

namespace Kinodynamics

/-- `r x_frontal + Σ Sⱼ x_parentⱼ = d`, with `r` read as upper triangular. -/
structure Conditional (κ α : Type) where
  frontal : κ
  r : Dense α
  parents : List (κ × Dense α)
  d : List α

/-- Conditionals in elimination order. -/
structure BayesNet (κ α : Type) where
  conditionals : List (Conditional κ α)

namespace Conditional

variable {κ α : Type} [Scalar α] [DecidableEq κ]

/-- `d - Σ Sⱼ x_parentⱼ`, parents moved over in order. -/
def reducedRhs (c : Conditional κ α) (x : Solution κ α) :
    Outcome (EliminationError κ) (List α) :=
  c.parents.foldlM (fun rhs (key, block) =>
    match x.get? key with
    | none => Outcome.fail (.missingSolution key)
    | some value =>
      if value.length = block.ncols ∧ block.nrows = rhs.length then
        .ok (List.zipWith (· - ·) rhs (block.mulVec value))
      else Outcome.sizes) c.d

/-- The value of the frontal variable for given values of its parents. Entries of the
right-hand side past the rows of `r` stand as they are. -/
def solve (c : Conditional κ α) (x : Solution κ α) : Outcome (EliminationError κ) (List α) := do
  let rhs ← c.reducedRhs x
  if rhs.length < c.r.nrows then Outcome.sizes
  match c.r.solveUpper rhs with
  | some value => return value ++ rhs.drop c.r.nrows
  | none => Outcome.fail (.singular c.frontal)

end Conditional

namespace BayesNet

variable {κ α : Type}

/-- The number of conditionals. -/
def size (net : BayesNet κ α) : Nat := net.conditionals.length

/-- The frontal keys in elimination order. -/
def ordering (net : BayesNet κ α) : List κ := net.conditionals.map Conditional.frontal

/-- Values for all frontal variables, from the last conditional to the first. -/
def solve [Scalar α] [DecidableEq κ] [LT κ] [DecidableLT κ] (net : BayesNet κ α) :
    Outcome (EliminationError κ) (Solution κ α) :=
  net.conditionals.foldr (fun c rest => do
    let x ← rest
    let value ← c.solve x
    return x.insert c.frontal value) (.ok Assignment.empty)

end BayesNet

end Kinodynamics
