/-
# Unit quaternions and their matrices

Composition of quaternions is the product of their matrices, whatever their lengths. A
quaternion of length one has its conjugate as inverse, moves a vector as its matrix does,
and its matrix carries vector products to vector products.

Key definitions: `Rotation.IsUnit`.
Key theorems: `Rotation.matrix_compose`, `Rotation.IsUnit.compose_inverse`,
`Rotation.IsUnit.act_eq`, `Rotation.IsUnit.skew_apply_mul`, `Rotation.IsUnit.matrix_eq`.
-/
import Kinodynamics.Proofs.Algebra.Space
import Kinodynamics.Rotation

namespace Kinodynamics
namespace Rotation

/-- The quaternion has length one. -/
def IsUnit (r : Rotation ℝ) : Prop := r.w ^ 2 + r.x ^ 2 + r.y ^ 2 + r.z ^ 2 = 1

/-! ### The group -/

theorem isUnit_identity : (identity : Rotation ℝ).IsUnit := by
  simp [IsUnit, identity]

theorem matrix_identity : (identity : Rotation ℝ).matrix = 1 := by
  ext <;> simp [matrix, identity, Mat3.one_def]

/-- **Quaternions are composed as their matrices are multiplied.** -/
theorem matrix_compose (a b : Rotation ℝ) : (a.compose b).matrix = a.matrix * b.matrix := by
  ext <;> simp only [matrix, compose, Mat3.mul_def, Scalar.two_eq] <;> ring

theorem matrix_inverse (r : Rotation ℝ) : r.inverse.matrix = r.matrix.transpose := by
  ext <;> simp only [matrix, Rotation.inverse, Mat3.transpose, Scalar.two_eq] <;> ring

theorem inverse_inverse (r : Rotation ℝ) : r.inverse.inverse = r := by
  ext <;> simp [inverse]

variable {r s : Rotation ℝ}

theorem IsUnit.inverse (h : r.IsUnit) : r.inverse.IsUnit := by
  rw [IsUnit] at h ⊢
  simp only [Rotation.inverse]
  linear_combination h

theorem IsUnit.compose (hr : r.IsUnit) (hs : s.IsUnit) : (r.compose s).IsUnit := by
  rw [IsUnit] at hr hs ⊢
  simp only [Rotation.compose]
  linear_combination (s.w ^ 2 + s.x ^ 2 + s.y ^ 2 + s.z ^ 2) * hr + hs

theorem IsUnit.compose_inverse (h : r.IsUnit) : r.compose r.inverse = identity := by
  rw [IsUnit] at h
  ext <;> simp only [Rotation.compose, Rotation.inverse, identity]
  · linear_combination h
  all_goals ring

theorem IsUnit.inverse_compose (h : r.IsUnit) : r.inverse.compose r = identity := by
  have hback := h.inverse.compose_inverse
  rwa [inverse_inverse] at hback

theorem IsUnit.matrix_mul_inverse (h : r.IsUnit) : r.matrix * r.inverse.matrix = 1 := by
  rw [← matrix_compose, h.compose_inverse, matrix_identity]

theorem IsUnit.inverse_mul_matrix (h : r.IsUnit) : r.inverse.matrix * r.matrix = 1 := by
  rw [← matrix_compose, h.inverse_compose, matrix_identity]

/-! ### Moving vectors -/

/-- **A unit quaternion moves a vector as its matrix does.** -/
theorem IsUnit.act_eq (h : r.IsUnit) (v : Vec3 ℝ) : r.act v = r.matrix.apply v := by
  rw [IsUnit] at h
  ext <;> simp only [act, matrix, imaginary, Vec3.cross, Vec3.scale, Vec3.add_def, Mat3.apply, Scalar.two_eq]
  · linear_combination -v.x * h
  · linear_combination -v.y * h
  · linear_combination -v.z * h

/-- **A rotation carries vector products to vector products.** -/
theorem IsUnit.skew_apply_mul (h : r.IsUnit) (v : Vec3 ℝ) :
    (r.matrix.apply v).skew * r.matrix = r.matrix * v.skew := by
  have hscaled : (r.matrix.apply v).skew * r.matrix =
      (r.matrix * v.skew).scale (r.w ^ 2 + r.x ^ 2 + r.y ^ 2 + r.z ^ 2) := by
    ext <;> simp only [matrix, Vec3.skew, Mat3.apply, Mat3.mul_def, Mat3.scale, Scalar.two_eq] <;> ring
  rw [hscaled, h, Mat3.scale_one]

theorem IsUnit.apply_cross (h : r.IsUnit) (u v : Vec3 ℝ) :
    r.matrix.apply (u.cross v) = (r.matrix.apply u).cross (r.matrix.apply v) := by
  rw [← Mat3.skew_apply, ← Mat3.mul_apply, ← h.skew_apply_mul, Mat3.mul_apply, Mat3.skew_apply]

/-- A rotation keeps lengths. -/
theorem IsUnit.norm_apply (h : r.IsUnit) (v : Vec3 ℝ) : (r.matrix.apply v).norm = v.norm := by
  have hdot : (r.matrix.apply v).dot (r.matrix.apply v) = v.dot v := by
    rw [← Mat3.transpose_apply_dot, ← matrix_inverse, ← Mat3.mul_apply, h.inverse_mul_matrix,
      Mat3.one_apply]
  rw [Vec3.norm, Vec3.normSq, hdot]
  rfl

/-- The matrix by the real and the imaginary part. -/
theorem IsUnit.matrix_eq (h : r.IsUnit) : r.matrix =
    1 + r.imaginary.skew.scale (2 * r.w) + (r.imaginary.skew * r.imaginary.skew).scale 2 := by
  rw [IsUnit] at h
  ext <;>
    simp only [matrix, imaginary, Vec3.skew, Mat3.mul_def, Mat3.scale, Mat3.add_def, Mat3.one_def,
      Scalar.two_eq]
  · linear_combination h
  · ring
  · ring
  · ring
  · linear_combination h
  · ring
  · ring
  · ring
  · linear_combination h

end Rotation
end Kinodynamics
