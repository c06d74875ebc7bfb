/-
# Rotations

A rotation is held as a quaternion; the constructors make unit ones and every
operation keeps them so. A rotation vector points along an axis and is as long as
the angle in radians.

The coefficients of the Jacobians are `0 / 0` at angle zero. Below `smallAngle`
their Taylor polynomials stand in for them.

Jacobians are taken with respect to a rotation vector applied on the right.

Key definitions: `Rotation`, `Rotation.matrix`, `Rotation.act`, `Rotation.compose`,
`Rotation.inverse`, `Rotation.between`, `Rotation.log`, `RotationVector.exp`,
`RotationVector.rightJacobian`, `RotationVector.leftJacobian`.
-/
import Kinodynamics.Algebra.Vec3

namespace Kinodynamics

/-- A quaternion with real part `w`, meant to have length one. -/
@[ext]
structure Rotation (α : Type) where
  w : α
  x : α
  y : α
  z : α

/-- The Jacobians of an operation on two group elements, or on one element and a
tangent vector. -/
structure Jacobians (J : Type) where
  first : J
  second : J

namespace RotationVector

variable {α : Type} [Scalar α]

/-- The angle below which Taylor polynomials stand in for closed forms. -/
def smallAngle : α := 1e-4

/-- Half vectors whose length is at most this much give the identity. -/
def exponentialTolerance : α := 2.220446049250313e-16

/-- The rotation about the vector by its length. -/
def exp (v : Vec3 α) : Rotation α :=
  let half := v.divBy 2.0
  let lengthSq := half.normSq
  if lengthSq ≤ exponentialTolerance * exponentialTolerance then ⟨1, 0, 0, 0⟩
  else
    let length := Scalar.sqrt lengthSq
    let imaginary := half.scale (Scalar.sin length / length)
    ⟨Scalar.cos length, imaginary.x, imaginary.y, imaginary.z⟩

/-- The coefficients of the skew matrix and its square in the left Jacobian. -/
def leftCoefficients (v : Vec3 α) : α × α :=
  let angleSq := v.normSq
  let angle := Scalar.sqrt angleSq
  if angle < smallAngle then
    (0.5 - angleSq / 24.0, 1 / 6.0 - angleSq / 120.0)
  else
    ((1 - Scalar.cos angle) / angleSq, (angle - Scalar.sin angle) / (angleSq * angle))

/-- The coefficient of the squared skew matrix in the inverse of the left Jacobian. -/
def inverseCoefficient (v : Vec3 α) : α :=
  let angleSq := v.normSq
  let angle := Scalar.sqrt angleSq
  if angle < smallAngle then 1 / 12.0 + angleSq / 720.0
  else 1 / angleSq - (1 + Scalar.cos angle) / (2.0 * angle * Scalar.sin angle)

/-- How `exp` moves on the right when the vector moves. -/
def rightJacobian (v : Vec3 α) : Mat3 α :=
  let (a, b) := leftCoefficients v
  1 - v.skew.scale a + (v.skew * v.skew).scale b

/-- How `exp` moves on the left when the vector moves. -/
def leftJacobian (v : Vec3 α) : Mat3 α :=
  let (a, b) := leftCoefficients v
  1 + v.skew.scale a + (v.skew * v.skew).scale b

/-- Inverse of the right Jacobian. -/
def rightJacobianInv (v : Vec3 α) : Mat3 α :=
  1 + v.skew.scale 0.5 + (v.skew * v.skew).scale (inverseCoefficient v)

/-- Inverse of the left Jacobian. -/
def leftJacobianInv (v : Vec3 α) : Mat3 α :=
  1 - v.skew.scale 0.5 + (v.skew * v.skew).scale (inverseCoefficient v)

/-- The vector is shorter than the tolerance. -/
def isZero (v : Vec3 α) (tolerance : α) : Bool := decide (v.norm < tolerance)

end RotationVector

namespace Rotation

variable {α : Type} [Scalar α]

/-- No rotation. -/
def identity : Rotation α := ⟨1, 0, 0, 0⟩

/-- Dimension of the tangent space. -/
def degreesOfFreedom : Nat := 3

/-- Number of parameters. -/
def parameterCount : Nat := 4

/-- The imaginary part. -/
def imaginary (r : Rotation α) : Vec3 α := ⟨r.x, r.y, r.z⟩

/-- Length of the quaternion. -/
def norm (r : Rotation α) : α :=
  Scalar.sqrt ((r.x * r.x + r.z * r.z) + (r.y * r.y + r.w * r.w))

/-- The quaternion divided by its length. -/
def normalized (r : Rotation α) : Rotation α :=
  let n := r.norm
  ⟨r.w / n, r.x / n, r.y / n, r.z / n⟩

/-- The parameters in order, real part first. -/
def toList (r : Rotation α) : List α := [r.w, r.x, r.y, r.z]

/-! ### Making rotations -/

/-- Rotation by an angle about the first axis. -/
def aboutX (angle : α) : Rotation α :=
  ⟨Scalar.cos (angle / 2.0), 1 * Scalar.sin (angle / 2.0), 0 * Scalar.sin (angle / 2.0),
    0 * Scalar.sin (angle / 2.0)⟩

/-- Rotation by an angle about the second axis. -/
def aboutY (angle : α) : Rotation α :=
  ⟨Scalar.cos (angle / 2.0), 0 * Scalar.sin (angle / 2.0), 1 * Scalar.sin (angle / 2.0),
    0 * Scalar.sin (angle / 2.0)⟩

/-- Rotation by an angle about the third axis. -/
def aboutZ (angle : α) : Rotation α :=
  ⟨Scalar.cos (angle / 2.0), 0 * Scalar.sin (angle / 2.0), 0 * Scalar.sin (angle / 2.0),
    1 * Scalar.sin (angle / 2.0)⟩

/-- Rotation about the first axis, then the second, then the third. -/
def ofEuler (roll pitch yaw : α) : Rotation α :=
  let sr := Scalar.sin (roll * 0.5)
  let cr := Scalar.cos (roll * 0.5)
  let sp := Scalar.sin (pitch * 0.5)
  let cp := Scalar.cos (pitch * 0.5)
  let sy := Scalar.sin (yaw * 0.5)
  let cy := Scalar.cos (yaw * 0.5)
  ⟨cr * cp * cy + sr * sp * sy,
   sr * cp * cy - cr * sp * sy,
   cr * sp * cy + sr * cp * sy,
   cr * cp * sy - sr * sp * cy⟩

/-- The rotation with an orthonormal matrix. The parameter that is divided by is
the real part if the trace is above zero, else the one with the largest diagonal
entry, so that it is never small. -/
def ofMatrix (m : Mat3 α) : Rotation α :=
  let trace := m.m00 + m.m11 + m.m22
  if 0 < trace then
    let s := Scalar.sqrt (trace + 1) * 2.0
    ⟨0.25 * s, (m.m21 - m.m12) / s, (m.m02 - m.m20) / s, (m.m10 - m.m01) / s⟩
  else if m.m11 < m.m00 ∧ m.m22 < m.m00 then
    let s := Scalar.sqrt (1 + m.m00 - m.m11 - m.m22) * 2.0
    ⟨(m.m21 - m.m12) / s, 0.25 * s, (m.m01 + m.m10) / s, (m.m02 + m.m20) / s⟩
  else if m.m22 < m.m11 then
    let s := Scalar.sqrt (1 + m.m11 - m.m00 - m.m22) * 2.0
    ⟨(m.m02 - m.m20) / s, (m.m01 + m.m10) / s, 0.25 * s, (m.m12 + m.m21) / s⟩
  else
    let s := Scalar.sqrt (1 + m.m22 - m.m00 - m.m11) * 2.0
    ⟨(m.m10 - m.m01) / s, (m.m02 + m.m20) / s, (m.m12 + m.m21) / s, 0.25 * s⟩

/-! ### The group -/

/-- The rotation matrix. -/
def matrix (r : Rotation α) : Mat3 α :=
  let ww := r.w * r.w
  let xx := r.x * r.x
  let yy := r.y * r.y
  let zz := r.z * r.z
  let xy := r.x * r.y * 2.0
  let wz := r.w * r.z * 2.0
  let wy := r.w * r.y * 2.0
  let xz := r.x * r.z * 2.0
  let yz := r.y * r.z * 2.0
  let wx := r.w * r.x * 2.0
  ⟨ww + xx - yy - zz, xy - wz, wy + xz,
   wz + xy, ww - xx + yy - zz, yz - wx,
   xz - wy, wx + yz, ww - xx - yy + zz⟩

/-- The vector rotated. -/
def act (r : Rotation α) (v : Vec3 α) : Vec3 α :=
  let t := (r.imaginary.cross v).scale 2.0
  t.scale r.w + r.imaginary.cross t + v

/-- Jacobians of the rotated vector in the rotation and in the vector. -/
def actJacobians (r : Rotation α) (v : Vec3 α) : Jacobians (Mat3 α) :=
  ⟨-r.matrix * v.skew, r.matrix⟩

/-- The opposite rotation. -/
def inverse (r : Rotation α) : Rotation α := ⟨r.w, -r.x, -r.y, -r.z⟩

/-- Jacobian of the opposite rotation. -/
def inverseJacobian (r : Rotation α) : Mat3 α := -r.matrix

/-- First `b`, then `a`. -/
def compose (a b : Rotation α) : Rotation α :=
  ⟨a.w * b.w - a.x * b.x - a.y * b.y - a.z * b.z,
   a.w * b.x + a.x * b.w + a.y * b.z - a.z * b.y,
   a.w * b.y - a.x * b.z + a.y * b.w + a.z * b.x,
   a.w * b.z + a.x * b.y - a.y * b.x + a.z * b.w⟩

/-- Jacobians of the composition. -/
def composeJacobians (_a b : Rotation α) : Jacobians (Mat3 α) := ⟨b.matrix.transpose, 1⟩

/-- The matrix that carries rotation vectors through the rotation. -/
def adjoint (r : Rotation α) : Mat3 α := r.matrix

/-- `b` seen from `a`. -/
def between (a b : Rotation α) : Rotation α := a.inverse.compose b

/-- Jacobians of `between`. -/
def betweenJacobians (a b : Rotation α) : Jacobians (Mat3 α) :=
  ⟨-(a.between b).matrix.transpose, 1⟩

/-- The rotation vector of the rotation by an angle of at most half a turn. -/
def log (r : Rotation α) : Vec3 α :=
  let v := if 0 ≤ r.w then r.imaginary else -r.imaginary
  let lengthSq := v.normSq
  if 0 < lengthSq then
    let axis := v.divBy (Scalar.sqrt lengthSq)
    axis.scale (Scalar.atan2 r.imaginary.norm (Scalar.abs r.w) * 2.0)
  else 0

/-- Jacobian of the logarithm. -/
def logJacobian (r : Rotation α) : Mat3 α := RotationVector.rightJacobianInv r.log

/-- The rotation moved by a rotation vector on its right. -/
def rightPlus (r : Rotation α) (v : Vec3 α) : Rotation α := r.compose (RotationVector.exp v)

/-- Jacobians of `rightPlus` in the rotation and in the vector. -/
def rightPlusJacobians (_r : Rotation α) (v : Vec3 α) : Jacobians (Mat3 α) :=
  ⟨(RotationVector.exp v).matrix.transpose, RotationVector.rightJacobian v⟩

/-- The rotation vector that moves `b` to `a`. -/
def rightMinus (a b : Rotation α) : Vec3 α := (b.between a).log

/-- Jacobians of `rightMinus`. -/
def rightMinusJacobians (a b : Rotation α) : Jacobians (Mat3 α) :=
  let v := a.rightMinus b
  ⟨RotationVector.rightJacobianInv v, -RotationVector.leftJacobianInv v⟩

/-- The quaternion has length one up to the tolerance. -/
def isValid (r : Rotation α) (tolerance : α) : Bool :=
  decide (Scalar.abs (r.norm - 1) < tolerance)

end Rotation

end Kinodynamics
