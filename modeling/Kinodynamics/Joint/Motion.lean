/-
# Kinds of joints and their limits

Every kind of joint moves along a constant screw axis in its own frame; a fixed
joint has the zero axis. A limit is an interval with a band inside its ends in
which the penalty already applies.

Key definitions: `Bounds`, `EffortType`, `JointSettings`, `JointMotion`,
`JointMotion.screwAxis`.
-/
import Kinodynamics.Algebra.Spatial

namespace Kinodynamics

/-- Bounds on a number, with the width of the band at both ends. -/
structure Bounds (α : Type) where
  lower : α
  upper : α
  threshold : α

namespace Bounds

variable {α : Type} [Scalar α]

/-- From `-limit` to `limit`. -/
def symmetric (limit threshold : α) : Bounds α := ⟨-limit, limit, threshold⟩

/-- The bounds are in order. -/
def isValid (l : Bounds α) : Bool := decide (l.lower ≤ l.upper)

end Bounds

/-- How the coordinate of a joint is driven. -/
inductive EffortType where
  /-- Its torque is commanded. -/
  | actuated
  /-- It is passive, its torque is zero. -/
  | unactuated
  /-- It is held in place. -/
  | fixed
deriving DecidableEq

/-- The name of the effort type. -/
def EffortType.text : EffortType → String
  | actuated => "Actuated"
  | unactuated => "Unactuated"
  | fixed => "Fixed"

/-- The settings of a joint. -/
structure JointSettings (α : Type) where
  effort : EffortType
  angle : Bounds α
  velocity : Bounds α
  acceleration : Bounds α
  torque : Bounds α

namespace JointSettings

variable {α : Type} [Scalar α]

/-- Actuated, half a turn to both sides, wide limits otherwise. -/
def standard : JointSettings α where
  effort := .actuated
  angle := ⟨-Scalar.pi, Scalar.pi, 1e-9⟩
  velocity := .symmetric 10000.0 0
  acceleration := .symmetric 10000.0 0
  torque := .symmetric 10000.0 0

/-- The limits on angle, velocity, acceleration and torque. -/
def limits (p : JointSettings α) : List (Bounds α) :=
  [p.angle, p.velocity, p.acceleration, p.torque]

end JointSettings

/-- The family of a joint with its axis in the joint frame. -/
inductive JointMotion (α : Type) where
  /-- Rotation about the axis. -/
  | revolute (axis : Vec3 α)
  /-- Sliding along the axis. -/
  | prismatic (axis : Vec3 α)
  /-- Rotation about the axis with an advance of `pitch` for each turn. -/
  | screw (axis : Vec3 α) (pitch : α)
  /-- No motion. -/
  | fixed

namespace JointMotion

variable {α : Type}

/-- The name of the family. -/
def text : JointMotion α → String
  | revolute _ => "revolute"
  | prismatic _ => "prismatic"
  | screw _ _ => "screw"
  | fixed => "fixed"

/-- The joint does not move. -/
def isFixed : JointMotion α → Bool
  | fixed => true
  | _ => false

/-- The screw axis in the joint frame. -/
def screwAxis [Scalar α] : JointMotion α → Spatial α
  | revolute axis => ⟨axis, 0⟩
  | prismatic axis => ⟨0, axis⟩
  | screw axis pitch => ⟨axis, axis.scale (pitch / (2.0 * Scalar.pi))⟩
  | fixed => 0

end JointMotion

end Kinodynamics
