/-
# Errors of the dynamics

One cause for each way in which reading values, linearising or eliminating can
fail, and one wording for each cause.

Key definitions: `ModelError`, `ModelError.kind`, `ModelError.message`.
-/
import Kinodynamics.Gaussian.Equation
import Kinodynamics.Robot

namespace Kinodynamics

/-- Why an operation on a robot, its values or its relations fails. -/
inductive ModelError where
  /-- The variable has no value. -/
  | missingVariable (key : Key)
  /-- The variable has a value of another kind. -/
  | typeMismatch (key : Key) (expected found : ValueKind)
  /-- A link or joint cannot be added or found. -/
  | topology (cause : TopologyError)
  /-- An equation or its elimination is at fault. -/
  | elimination (cause : EliminationError Key)
  /-- A tangent vector of a wrong size. -/
  | tangentDimension (expected actual : Nat)
  /-- A Jacobian with more columns than the variables have directions. -/
  | jacobianColumns (columns expected : Nat)

/-- The kind of the error. -/
def ModelError.kind : ModelError → String
  | missingVariable _ => "MissingVariable"
  | typeMismatch .. => "TypeMismatch"
  | topology _ => "Topology"
  | elimination _ => "Elimination"
  | tangentDimension .. => "Manifold"
  | jacobianColumns .. => "InvalidInput"

/-- What the error is called. -/
def ModelError.message : ModelError → String
  | missingVariable key => "Missing variable: " ++ key.text
  | typeMismatch key expected found =>
    "Type mismatch for " ++ key.text ++ ": expected " ++ expected.text ++ ", found " ++ found.text
  | topology cause => "Topology error: " ++ cause.message
  | elimination cause => "Elimination error: " ++ cause.message Key.text
  | tangentDimension expected actual =>
    s!"Manifold error: Invalid tangent dimension: expected {expected}, got {actual}"
  | jacobianColumns columns expected =>
    s!"Invalid input: Jacobian has {columns} columns, keys expect {expected}"

end Kinodynamics
