/-
# Screws

Motion along a fixed screw axis, and the maps that carry spatial vectors from
frame to frame.

Key definitions: `Screw.exp`, `Screw.expJacobian`, `Screw.adjointRate`,
`Pose.carryWrench`.
-/
import Kinodynamics.Pose

namespace Kinodynamics

variable {α : Type} [Scalar α]

/-- The motion by `q` along the axis. -/
def Screw.exp (axis : Spatial α) (q : α) : Pose α := PoseTangent.exp (axis.scale q)

/-- Jacobian of `Screw.exp` in `q`: the axis, because it commutes with its own
motion. -/
def Screw.expJacobian (axis : Spatial α) (_q : α) : Spatial α := axis

/-- Derivative of the adjoint matrix of `exp (-axis q) T₀` in `q`, given the pose
at `q`. -/
def Screw.adjointRate (axis : Spatial α) (pose : Pose α) : SpatialMat α :=
  -axis.cross * pose.adjoint

/-- A wrench given in the frame of the pose, in the frame that the pose is given
in. The power it transmits does not change. -/
def Pose.carryWrench (pose : Pose α) (wrench : Spatial α) : Spatial α :=
  pose.inverse.adjoint.transpose.apply wrench

end Kinodynamics
