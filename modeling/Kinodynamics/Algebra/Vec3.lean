/-
# Vectors and matrices of space

Three coordinates and nine entries, each with a name, so that an identity between
them is an identity between numbers.

Key definitions: `Vec3`, `Mat3`, `Vec3.cross`, `Vec3.skew`, `Mat3.apply`.
-/
import Kinodynamics.Scalar

namespace Kinodynamics

/-- A vector of space. -/
@[ext]
structure Vec3 (α : Type) where
  x : α
  y : α
  z : α

/-- A 3 × 3 matrix; `mij` stands in row `i` and column `j`. -/
@[ext]
structure Mat3 (α : Type) where
  m00 : α
  m01 : α
  m02 : α
  m10 : α
  m11 : α
  m12 : α
  m20 : α
  m21 : α
  m22 : α

namespace Vec3

variable {α : Type} [Scalar α]

instance : Zero (Vec3 α) := ⟨⟨0, 0, 0⟩⟩

instance : Add (Vec3 α) := ⟨fun u v => ⟨u.x + v.x, u.y + v.y, u.z + v.z⟩⟩

instance : Sub (Vec3 α) := ⟨fun u v => ⟨u.x - v.x, u.y - v.y, u.z - v.z⟩⟩

instance : Neg (Vec3 α) := ⟨fun u => ⟨-u.x, -u.y, -u.z⟩⟩

/-- Each coordinate times `s`. -/
def scale (u : Vec3 α) (s : α) : Vec3 α := ⟨u.x * s, u.y * s, u.z * s⟩

/-- Each coordinate divided by `s`. -/
def divBy (u : Vec3 α) (s : α) : Vec3 α := ⟨u.x / s, u.y / s, u.z / s⟩

/-- Scalar product. -/
def dot (u v : Vec3 α) : α := u.x * v.x + u.y * v.y + u.z * v.z

/-- Vector product. -/
def cross (u v : Vec3 α) : Vec3 α :=
  ⟨u.y * v.z - u.z * v.y, u.z * v.x - u.x * v.z, u.x * v.y - u.y * v.x⟩

/-- Squared length. -/
def normSq (u : Vec3 α) : α := u.dot u

/-- Length. -/
def norm (u : Vec3 α) : α := Scalar.sqrt u.normSq

/-- The matrix that sends `v` to `u × v`. -/
def skew (u : Vec3 α) : Mat3 α := ⟨0, -u.z, u.y, u.z, 0, -u.x, -u.y, u.x, 0⟩

/-- The coordinates in order. -/
def toList (u : Vec3 α) : List α := [u.x, u.y, u.z]

end Vec3

namespace Mat3

variable {α : Type} [Scalar α]

instance : Zero (Mat3 α) := ⟨⟨0, 0, 0, 0, 0, 0, 0, 0, 0⟩⟩

instance : One (Mat3 α) := ⟨⟨1, 0, 0, 0, 1, 0, 0, 0, 1⟩⟩

instance : Add (Mat3 α) := ⟨fun a b =>
  ⟨a.m00 + b.m00, a.m01 + b.m01, a.m02 + b.m02,
   a.m10 + b.m10, a.m11 + b.m11, a.m12 + b.m12,
   a.m20 + b.m20, a.m21 + b.m21, a.m22 + b.m22⟩⟩

instance : Sub (Mat3 α) := ⟨fun a b =>
  ⟨a.m00 - b.m00, a.m01 - b.m01, a.m02 - b.m02,
   a.m10 - b.m10, a.m11 - b.m11, a.m12 - b.m12,
   a.m20 - b.m20, a.m21 - b.m21, a.m22 - b.m22⟩⟩

instance : Neg (Mat3 α) := ⟨fun a =>
  ⟨-a.m00, -a.m01, -a.m02, -a.m10, -a.m11, -a.m12, -a.m20, -a.m21, -a.m22⟩⟩

instance : Mul (Mat3 α) := ⟨fun a b =>
  ⟨a.m00 * b.m00 + a.m01 * b.m10 + a.m02 * b.m20,
   a.m00 * b.m01 + a.m01 * b.m11 + a.m02 * b.m21,
   a.m00 * b.m02 + a.m01 * b.m12 + a.m02 * b.m22,
   a.m10 * b.m00 + a.m11 * b.m10 + a.m12 * b.m20,
   a.m10 * b.m01 + a.m11 * b.m11 + a.m12 * b.m21,
   a.m10 * b.m02 + a.m11 * b.m12 + a.m12 * b.m22,
   a.m20 * b.m00 + a.m21 * b.m10 + a.m22 * b.m20,
   a.m20 * b.m01 + a.m21 * b.m11 + a.m22 * b.m21,
   a.m20 * b.m02 + a.m21 * b.m12 + a.m22 * b.m22⟩⟩

/-- Each entry times `s`. -/
def scale (a : Mat3 α) (s : α) : Mat3 α :=
  ⟨a.m00 * s, a.m01 * s, a.m02 * s,
   a.m10 * s, a.m11 * s, a.m12 * s,
   a.m20 * s, a.m21 * s, a.m22 * s⟩

/-- The product with a vector. -/
def apply (a : Mat3 α) (v : Vec3 α) : Vec3 α :=
  ⟨a.m00 * v.x + a.m01 * v.y + a.m02 * v.z,
   a.m10 * v.x + a.m11 * v.y + a.m12 * v.z,
   a.m20 * v.x + a.m21 * v.y + a.m22 * v.z⟩

/-- `u + a v`, the products added to `u` one after another. -/
def applyOnto (u : Vec3 α) (a : Mat3 α) (v : Vec3 α) : Vec3 α :=
  ⟨u.x + a.m00 * v.x + a.m01 * v.y + a.m02 * v.z,
   u.y + a.m10 * v.x + a.m11 * v.y + a.m12 * v.z,
   u.z + a.m20 * v.x + a.m21 * v.y + a.m22 * v.z⟩

/-- `c + a b`, the products added to `c` one after another. -/
def mulOnto (c a b : Mat3 α) : Mat3 α :=
  ⟨c.m00 + a.m00 * b.m00 + a.m01 * b.m10 + a.m02 * b.m20,
   c.m01 + a.m00 * b.m01 + a.m01 * b.m11 + a.m02 * b.m21,
   c.m02 + a.m00 * b.m02 + a.m01 * b.m12 + a.m02 * b.m22,
   c.m10 + a.m10 * b.m00 + a.m11 * b.m10 + a.m12 * b.m20,
   c.m11 + a.m10 * b.m01 + a.m11 * b.m11 + a.m12 * b.m21,
   c.m12 + a.m10 * b.m02 + a.m11 * b.m12 + a.m12 * b.m22,
   c.m20 + a.m20 * b.m00 + a.m21 * b.m10 + a.m22 * b.m20,
   c.m21 + a.m20 * b.m01 + a.m21 * b.m11 + a.m22 * b.m21,
   c.m22 + a.m20 * b.m02 + a.m21 * b.m12 + a.m22 * b.m22⟩

/-- Rows and columns exchanged. -/
def transpose (a : Mat3 α) : Mat3 α :=
  ⟨a.m00, a.m10, a.m20, a.m01, a.m11, a.m21, a.m02, a.m12, a.m22⟩

/-- The rows in order. -/
def toRows (a : Mat3 α) : List (List α) :=
  [[a.m00, a.m01, a.m02], [a.m10, a.m11, a.m12], [a.m20, a.m21, a.m22]]

end Mat3

end Kinodynamics
