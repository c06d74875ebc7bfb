/-
# Nonlinear relations

A relation binds a factor to the variables it reads and to a noise model with one
deviation for each row. An objective lists relations. Its cost is the sum over
them of half the squared weighted residual, and its linear model at given values
has one equation for each of them, in order.

Key definitions: `Relation`, `Relation.make?`, `Relation.evaluate`,
`Relation.error`, `Relation.linearize`, `Objective`, `Objective.keys`,
`Objective.cost`, `Objective.linearize`.
-/
import Kinodynamics.Factor
import Kinodynamics.Values

namespace Kinodynamics

/-- A factor on variables, with the deviations of its rows. -/
structure Relation (α : Type) where
  keys : List Key
  factor : Factor α
  noise : Noise α
  /-- There is one deviation for each row. -/
  dim_noise : noise.dim = factor.dim

namespace Relation

/-- The relation; absent if there is not one deviation for each row. -/
def make? {α : Type} (keys : List Key) (factor : Factor α) (noise : Noise α) :
    Option (Relation α) :=
  if h : noise.dim = factor.dim then some ⟨keys, factor, noise, h⟩ else none

variable {α : Type} [Scalar α]

/-- The parameters of the variables, in order. -/
def parameters (r : Relation α) (values : Values α) : Except ModelError (List (List α)) :=
  r.keys.mapM values.parameters

/-- The residual and its Jacobian, unweighted. -/
def linearization (r : Relation α) (values : Values α) :
    Outcome ModelError (Linearization α) := do
  let parameters ← Outcome.ofExcept (r.parameters values)
  Outcome.ofOption (r.factor.linearize? parameters)

/-- The weighted residual. -/
def weightedResidual (r : Relation α) (values : Values α) : Outcome ModelError (List α) := do
  let l ← r.linearization values
  Outcome.ofOption (r.noise.weigh? l.residual)

/-- The weighted residual and the weighted Jacobian. -/
def evaluate (r : Relation α) (values : Values α) : Outcome ModelError (Linearization α) := do
  let residual ← r.weightedResidual values
  let l ← r.linearization values
  let jacobian ← Outcome.ofOption (r.noise.weighRows? l.jacobian)
  return ⟨residual, jacobian⟩

/-- Half the squared length of the weighted residual. -/
def error (r : Relation α) (values : Values α) : Outcome ModelError α := do
  return 0.5 * Scalar.normSq (← r.weightedResidual values)

/-- The dimension of the tangent directions of all variables side by side. -/
def tangentDim : List Key → Nat
  | [] => 0
  | key :: keys => key.dim + tangentDim keys

/-- The columns of each variable, from column `c` on. -/
def columnBlocks (jacobian : Dense α) : Nat → List Key → List (Key × Dense α)
  | _, [] => []
  | c, key :: keys =>
    (key, jacobian.view 0 c jacobian.nrows key.dim) :: columnBlocks jacobian (c + key.dim) keys

/-- The equation `J δ = -r` on the tangent directions of the variables. -/
def linearize (r : Relation α) (values : Values α) :
    Outcome ModelError (LinearEquation Key α) := do
  let l ← r.evaluate values
  let columns := tangentDim r.keys
  if l.jacobian.ncols < columns then Outcome.sizes
  if l.jacobian.ncols ≠ columns then
    Outcome.fail (.jacobianColumns l.jacobian.ncols columns)
  let equation := LinearEquation.make (columnBlocks l.jacobian 0 r.keys) (l.residual.map (- ·))
    (.unit r.factor.dim)
  (Outcome.ofExcept equation).wrap fun cause => .elimination (.mismatch cause)

end Relation

/-- Relations in order. -/
structure Objective (α : Type) where
  relations : List (Relation α)

namespace Objective

variable {α : Type}

/-- No relations. -/
def empty : Objective α := ⟨[]⟩

/-- The number of relations. -/
def size (s : Objective α) : Nat := s.relations.length

/-- The relations of `s`, then those of `t`. -/
def append (s t : Objective α) : Objective α := ⟨s.relations ++ t.relations⟩

/-- The keys of all relations in order, each once. -/
def keys (s : Objective α) : List Key := sortedKeys (s.relations.flatMap Relation.keys)

variable [Scalar α]

/-- The errors of all relations added up. -/
def cost (s : Objective α) (values : Values α) : Outcome ModelError α :=
  s.relations.foldlM (fun sum r => do return sum + (← r.error values)) 0

/-- The equations of all relations, in order. -/
def linearize (s : Objective α) (values : Values α) :
    Outcome ModelError (LinearSystem Key α) := do
  return ⟨← s.relations.mapM fun r => r.linearize values⟩

end Objective

end Kinodynamics
