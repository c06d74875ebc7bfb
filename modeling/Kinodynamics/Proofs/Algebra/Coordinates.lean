/-
# Spatial vectors as lists of coordinates

Relations hold spatial vectors by their six coordinates and matrices without their blocks.
The product with coordinates is the coordinates of the product, for a matrix on spatial
vectors, for a vector as a column or as a row, and for the selection of a plane.

Key theorems: `SpatialMat.toDense_mulVec`, `Spatial.toColumn_mulVec`, `Spatial.toRow_mulVec`,
`PlaneNormal.selection_mulVec`.
-/
import Kinodynamics.Proofs.Algebra.Spatial
import Kinodynamics.Factor

namespace Kinodynamics

/-- A product reads the matrix inside its shape only. -/
theorem Dense.ofFn_mulVec (m n : ℕ) (f : ℕ → ℕ → ℝ) (v : List ℝ) : (ofFn m n f).mulVec v =
    (List.range m).map fun i => Scalar.sumRange n fun j => f i j * v.getD j 0 := by
  rw [mulVec, nrows_ofFn, ncols_ofFn]
  refine List.map_congr_left fun i hi => Scalar.sumRange_congr fun j hj => ?_
  rw [entry_ofFn_of_lt f (List.mem_range.mp hi) hj]

namespace Spatial

variable (u v : Spatial ℝ) (s : ℝ)

theorem toList_eq_zero_iff {v : Spatial ℝ} : v.toList = List.replicate 6 0 ↔ v = 0 := by
  constructor
  · intro h
    have hget := congrArg ofList? h
    rw [ofList?_toList] at hget
    exact Option.some.inj hget
  · rintro rfl
    rfl

theorem forall_mem_toList_iff {v : Spatial ℝ} : (∀ x ∈ v.toList, x = 0) ↔ v = 0 := by
  rw [← toList_eq_zero_iff, List.eq_replicate_iff, length_toList, and_iff_right rfl]

@[simp] theorem nrows_toColumn : u.toColumn.nrows = 6 := rfl

@[simp] theorem ncols_toColumn : u.toColumn.ncols = 1 := rfl

@[simp] theorem nrows_toRow : u.toRow.nrows = 1 := rfl

@[simp] theorem ncols_toRow : u.toRow.ncols = 6 := rfl

theorem toColumn_mulVec : u.toColumn.mulVec [s] = (u.scale s).toList := by
  rw [toColumn, Dense.ofFn_mulVec]
  show [0 + _, 0 + _, 0 + _, 0 + _, 0 + _, 0 + _] = _
  simp only [zero_add]
  rfl

theorem toRow_mulVec : u.toRow.mulVec v.toList = [u.dot v] := by
  rw [toRow, Dense.ofFn_mulVec]
  show [0 + u.angular.x * v.angular.x + _ + _ + _ + _ + _] = _
  rw [zero_add]
  rfl

end Spatial

@[simp] theorem SpatialMat.nrows_toDense (a : SpatialMat ℝ) : a.toDense.nrows = 6 := rfl

@[simp] theorem SpatialMat.ncols_toDense (a : SpatialMat ℝ) : a.toDense.ncols = 6 := rfl

theorem SpatialMat.toDense_mulVec (a : SpatialMat ℝ) (v : Spatial ℝ) :
    a.toDense.mulVec v.toList = (a.apply v).toList := by
  rw [toDense, Dense.ofRows, Dense.ofFn_mulVec]
  show [0 + _ + _ + _ + _ + _ + _, 0 + _ + _ + _ + _ + _ + _, 0 + _ + _ + _ + _ + _ + _,
    0 + _ + _ + _ + _ + _ + _, 0 + _ + _ + _ + _ + _ + _, 0 + _ + _ + _ + _ + _ + _] = _
  simp only [zero_add]
  rfl

theorem PlaneNormal.selection_mulVec (axis : PlaneNormal) (v : Spatial ℝ) :
    axis.selection.mulVec v.toList = axis.components.map fun i => v.toList.getD i 0 := by
  rw [selection, Dense.ofFn_mulVec]
  cases axis <;>
    simp [components, List.range_succ, Scalar.sumRange_succ, Spatial.toList]

end Kinodynamics
