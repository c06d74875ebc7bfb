/-
# Rigid motions

A pose is a rotation followed by a displacement. Its tangent vectors are spatial
vectors, angular part first, so twists and screw axes are tangent vectors and the
adjoint matrix of a pose carries them from its frame to the frame it is given in.

The coupling block of the Jacobians has coefficients that are `0 / 0` at angle
zero. Below `couplingSmallAngle` their Taylor polynomials stand in for them.

Jacobians are taken with respect to a tangent vector applied on the right.

Key definitions: `Pose`, `Pose.matrix`, `Pose.compose`, `Pose.inverse`,
`Pose.between`, `Pose.adjoint`, `Pose.log`, `Pose.rightPlus`, `Pose.rightMinus`,
`PoseTangent.exp`, `PoseTangent.coupling`, `PoseTangent.rightJacobian`,
`PoseTangent.leftJacobian`.
-/
import Kinodynamics.Algebra.Homogeneous
import Kinodynamics.Algebra.Spatial
import Kinodynamics.Rotation

namespace Kinodynamics

/-- A rigid motion. -/
@[ext]
structure Pose (α : Type) where
  rotation : Rotation α
  position : Vec3 α

namespace PoseTangent

variable {α : Type} [Scalar α]

/-- The generator of the motion as a homogeneous matrix. -/
def hat (v : Spatial α) : Homogeneous α := ⟨v.angular.skew, v.linear, 0⟩

/-- The motion along the tangent vector for unit time. -/
def exp (v : Spatial α) : Pose α :=
  ⟨RotationVector.exp v.angular, (RotationVector.leftJacobian v.angular).apply v.linear⟩

/-- The angle below which Taylor polynomials stand in for closed forms in the
coupling block. -/
def couplingSmallAngle : α := 1e-2

/-- The coefficients of the coupling block. -/
def couplingCoefficients (angular : Vec3 α) : α × α × α :=
  let angleSq := angular.normSq
  let angle := Scalar.sqrt angleSq
  if angle < couplingSmallAngle then
    (1 / 6.0 - angleSq / 120.0, 1 / 24.0 - angleSq / 720.0, 1 / 120.0 - angleSq / 2520.0)
  else
    let s := Scalar.sin angle
    let c := Scalar.cos angle
    let angle4 := angleSq * angleSq
    ((angle - s) / (angleSq * angle),
     (angleSq + 2.0 * c - 2.0) / (2.0 * angle4),
     (2.0 * angle - 3.0 * s + angle * c) / (2.0 * angle4 * angle))

/-- The block by which a linear displacement enters the left Jacobian. -/
def coupling (linear angular : Vec3 α) : Mat3 α :=
  let v := linear.skew
  let w := angular.skew
  let (b, c, d) := couplingCoefficients angular
  let wv := w * v
  let vw := v * w
  let wvw := wv * w
  let ww := w * w
  v.scale 0.5 + (wv + vw + wvw).scale b + (ww * v + vw * w - wvw.scale 3.0).scale c
    + (wvw * w + ww * v * w).scale d

/-- How `exp` moves on the right when the tangent vector moves. -/
def rightJacobian (v : Spatial α) : SpatialMat α :=
  .lower (RotationVector.rightJacobian v.angular) (coupling (-v.linear) (-v.angular))

/-- How `exp` moves on the left when the tangent vector moves. -/
def leftJacobian (v : Spatial α) : SpatialMat α :=
  .lower (RotationVector.leftJacobian v.angular) (coupling v.linear v.angular)

/-- Inverse of the right Jacobian. -/
def rightJacobianInv (v : Spatial α) : SpatialMat α :=
  let a := RotationVector.rightJacobianInv v.angular
  .lower a (-a * coupling (-v.linear) (-v.angular) * a)

/-- Inverse of the left Jacobian. -/
def leftJacobianInv (v : Spatial α) : SpatialMat α :=
  let a := RotationVector.leftJacobianInv v.angular
  .lower a (-a * coupling v.linear v.angular * a)

/-- The vector is shorter than the tolerance. -/
def isZero (v : Spatial α) (tolerance : α) : Bool := decide (v.norm < tolerance)

end PoseTangent

namespace Pose

variable {α : Type} [Scalar α]

/-- No motion. -/
def identity : Pose α := ⟨Rotation.identity, 0⟩

/-- Dimension of the tangent space. -/
def degreesOfFreedom : Nat := 6

/-- Number of parameters. -/
def parameterCount : Nat := 7

/-- The position, then the parameters of the rotation. -/
def toList (p : Pose α) : List α := p.position.toList ++ p.rotation.toList

/-- The pose with the first seven entries as parameters, the quaternion divided by
its length; absent if there are fewer. -/
def ofList? : List α → Option (Pose α)
  | tx :: ty :: tz :: w :: x :: y :: z :: _ =>
    some ⟨(Rotation.mk w x y z).normalized, ⟨tx, ty, tz⟩⟩
  | _ => none

/-- Rotation by three angles at a position. -/
def ofEuler (x y z roll pitch yaw : α) : Pose α := ⟨Rotation.ofEuler roll pitch yaw, ⟨x, y, z⟩⟩

/-- A displacement without rotation. -/
def ofPosition (t : Vec3 α) : Pose α := ⟨Rotation.identity, t⟩

/-- The homogeneous matrix. -/
def matrix (p : Pose α) : Homogeneous α := ⟨p.rotation.matrix, p.position, 1⟩

/-- The point moved. -/
def movePoint (p : Pose α) (v : Vec3 α) : Vec3 α := p.rotation.act v + p.position

/-- The homogeneous matrices differ by less than the tolerance in each entry. -/
def isClose (p q : Pose α) (tolerance : α) : Bool :=
  decide ((p.matrix - q.matrix).maxAbs < tolerance)

/-- The adjoint matrix. -/
def adjoint (p : Pose α) : SpatialMat α :=
  .lower p.rotation.matrix (p.position.skew * p.rotation.matrix)

/-- The motion back. -/
def inverse (p : Pose α) : Pose α :=
  let back := p.rotation.inverse
  ⟨back, -back.act p.position⟩

/-- Jacobian of the motion back. -/
def inverseJacobian (p : Pose α) : SpatialMat α := -p.adjoint

/-- First `q`, then `p`. -/
def compose (p q : Pose α) : Pose α :=
  ⟨p.rotation.compose q.rotation, p.rotation.act q.position + p.position⟩

/-- Jacobians of the composition. -/
def composeJacobians (_p q : Pose α) : Jacobians (SpatialMat α) := ⟨q.inverse.adjoint, 1⟩

/-- `q` seen from `p`. -/
def between (p q : Pose α) : Pose α := p.inverse.compose q

/-- Jacobians of `between`. -/
def betweenJacobians (p q : Pose α) : Jacobians (SpatialMat α) :=
  ⟨-(p.between q).inverse.adjoint, 1⟩

/-- The tangent vector whose exponential is the pose, by at most half a turn. -/
def log (p : Pose α) : Spatial α :=
  let angular := p.rotation.log
  ⟨angular, (RotationVector.leftJacobianInv angular).apply p.position⟩

/-- Jacobian of the logarithm. -/
def logJacobian (p : Pose α) : SpatialMat α := PoseTangent.rightJacobianInv p.log

/-- The pose moved by a tangent vector on its right. -/
def rightPlus (p : Pose α) (v : Spatial α) : Pose α := p.compose (PoseTangent.exp v)

/-- Jacobians of `rightPlus` in the pose and in the vector. -/
def rightPlusJacobians (_p : Pose α) (v : Spatial α) : Jacobians (SpatialMat α) :=
  ⟨(PoseTangent.exp v).inverse.adjoint, PoseTangent.rightJacobian v⟩

/-- The tangent vector that moves `q` to `p`. -/
def rightMinus (p q : Pose α) : Spatial α := (q.between p).log

/-- Jacobians of `rightMinus`. -/
def rightMinusJacobians (p q : Pose α) : Jacobians (SpatialMat α) :=
  let v := p.rightMinus q
  ⟨PoseTangent.rightJacobianInv v, -PoseTangent.leftJacobianInv v⟩

/-- The quaternion has length one up to the tolerance. -/
def isValid (p : Pose α) (tolerance : α) : Bool := p.rotation.isValid tolerance

end Pose

end Kinodynamics
