/-
# Noise models

A noise model gives each row of a residual a weight. A constrained model marks a
row that has to hold exactly: elimination satisfies it without weighing, and the
nonlinear cost gives it a large weight.

Key definitions: `Noise`, `Noise.dim`, `Noise.weights`, `Noise.weigh`,
`Noise.weighRows`, and `Noise.weigh?`, `Noise.weighRows?`, which refuse
operands of another size.
-/
import Kinodynamics.Dense

namespace Kinodynamics

/-- How far the rows of a residual may be from zero. -/
inductive Noise (α : Type) where
  /-- Weight one on each of `dim` rows. -/
  | unit (dim : Nat)
  /-- The same deviation on each of `dim` rows. -/
  | isotropic (dim : Nat) (sigma : α)
  /-- One deviation for each row. -/
  | diagonal (sigmas : List α)
  /-- Each of `dim` rows holds exactly. -/
  | constrained (dim : Nat)

namespace Noise

variable {α : Type}

/-- The number of rows. -/
def dim : Noise α → Nat
  | unit dim => dim
  | isotropic dim _ => dim
  | diagonal sigmas => sigmas.length
  | constrained dim => dim

/-- The rows hold exactly. -/
def isHard : Noise α → Bool
  | constrained _ => true
  | _ => false

variable [Scalar α]

/-- The weight of a constrained row in the nonlinear cost. -/
def hardWeight : α := 1e6

/-- The weight of each row, one over its deviation. -/
def weights : Noise α → List α
  | unit dim => List.replicate dim 1
  | isotropic dim sigma => List.replicate dim (1 / sigma)
  | diagonal sigmas => sigmas.map (1 / ·)
  | constrained dim => List.replicate dim hardWeight

/-- Each entry times the weight of its row. -/
def weigh (noise : Noise α) (residual : List α) : List α :=
  List.zipWith (· * ·) residual noise.weights

/-- Each row times its weight. -/
def weighRows (noise : Noise α) (a : Dense α) : Dense α :=
  (Dense.diagonal noise.weights).mul a

/-- `weigh` for a residual with one entry for each weight. -/
def weigh? (noise : Noise α) (residual : List α) : Option (List α) :=
  if residual.length = noise.dim then some (noise.weigh residual) else none

/-- `weighRows` for a matrix with one row for each weight. -/
def weighRows? (noise : Noise α) (a : Dense α) : Option (Dense α) :=
  if a.nrows = noise.dim then some (noise.weighRows a) else none

@[simp] theorem length_weights (noise : Noise α) : noise.weights.length = noise.dim := by
  cases noise <;> simp [weights, dim]

theorem length_weigh (noise : Noise α) (residual : List α) :
    (noise.weigh residual).length = min residual.length noise.dim := by
  simp [weigh]

@[simp] theorem nrows_weighRows (noise : Noise α) (a : Dense α) :
    (noise.weighRows a).nrows = noise.dim :=
  length_weights noise

@[simp] theorem ncols_weighRows (noise : Noise α) (a : Dense α) :
    (noise.weighRows a).ncols = a.ncols := rfl

end Noise

end Kinodynamics
