/-
# Homogeneous matrices

4 × 4 matrices whose last row is zero but for its last entry. Such matrices are
closed under sums and products; rigid motions have one in the corner, their
infinitesimal generators zero.

Key definitions: `Homogeneous`, `Homogeneous.toRows`, `Homogeneous.maxAbs`.
-/
import Kinodynamics.Algebra.Vec3

namespace Kinodynamics

/-- The matrix with the given block, last column and corner. -/
@[ext]
structure Homogeneous (α : Type) where
  block : Mat3 α
  column : Vec3 α
  corner : α

namespace Homogeneous

variable {α : Type} [Scalar α]

instance : Zero (Homogeneous α) := ⟨⟨0, 0, 0⟩⟩

instance : One (Homogeneous α) := ⟨⟨1, 0, 1⟩⟩

instance : Add (Homogeneous α) :=
  ⟨fun a b => ⟨a.block + b.block, a.column + b.column, a.corner + b.corner⟩⟩

instance : Sub (Homogeneous α) :=
  ⟨fun a b => ⟨a.block - b.block, a.column - b.column, a.corner - b.corner⟩⟩

instance : Mul (Homogeneous α) := ⟨fun a b =>
  ⟨a.block * b.block, a.block.apply b.column + a.column.scale b.corner, a.corner * b.corner⟩⟩

/-- The four rows in order. -/
def toRows (a : Homogeneous α) : List (List α) :=
  List.zipWith (fun row x => row ++ [x]) a.block.toRows a.column.toList ++ [[0, 0, 0, a.corner]]

/-- The entries by columns. -/
def entries (a : Homogeneous α) : List α :=
  [a.block.m00, a.block.m10, a.block.m20, 0, a.block.m01, a.block.m11, a.block.m21, 0,
   a.block.m02, a.block.m12, a.block.m22, 0, a.column.x, a.column.y, a.column.z, a.corner]

/-- The largest absolute value of an entry. -/
def maxAbs (a : Homogeneous α) : α :=
  a.entries.foldl (fun m x => Scalar.larger m (Scalar.abs x)) 0

end Homogeneous

end Kinodynamics
