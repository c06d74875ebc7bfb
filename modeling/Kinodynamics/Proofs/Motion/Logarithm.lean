/-
# Where the logarithm vanishes

The logarithm of a rotation is zero at the two quaternions of the identity and nowhere else,
and that of a rigid motion where its matrix is the identity. So the difference of two poses
that factors measure is zero exactly where the poses have one matrix, whatever the signs of
their quaternions.

Key theorems: `Rotation.log_eq_zero_iff`, `Pose.IsUnit.log_eq_zero_iff`,
`Pose.IsUnit.log_between_eq_zero_iff`, `Pose.IsUnit.ofList?_toList`.
-/
import Kinodynamics.Proofs.Algebra.Homogeneous

namespace Kinodynamics

/-! ### Rotations -/

namespace Rotation

variable {r : Rotation ℝ}

/-- The matrix of a unit quaternion is the identity at the two quaternions of the identity. -/
theorem IsUnit.imaginary_eq_zero_iff (h : r.IsUnit) : r.imaginary = 0 ↔ r.matrix = 1 := by
  constructor
  · intro himaginary
    rw [h.matrix_eq, himaginary, Mat3.skew_zero, zero_mul, Mat3.zero_scale, Mat3.zero_scale, add_zero,
      add_zero]
  · intro hmatrix
    rw [IsUnit] at h
    simp only [matrix, Mat3.one_def, Mat3.mk.injEq] at hmatrix
    obtain ⟨hx, -, -, -, hy, -, -, -, hz⟩ := hmatrix
    -- the diagonal leaves nothing of the squares
    have hxx := mul_self_nonneg r.x
    have hyy := mul_self_nonneg r.y
    have hzz := mul_self_nonneg r.z
    ext
    · exact mul_self_eq_zero.mp (by linarith : r.x * r.x = 0)
    · exact mul_self_eq_zero.mp (by linarith : r.y * r.y = 0)
    · exact mul_self_eq_zero.mp (by linarith : r.z * r.z = 0)

/-- **The logarithm vanishes at the two quaternions of the identity only.** -/
theorem log_eq_zero_iff : r.log = 0 ↔ r.imaginary = 0 := by
  set v := if 0 ≤ r.w then r.imaginary else -r.imaginary with hv
  have hlog : r.log = if 0 < v.normSq then
      (v.divBy (Real.sqrt v.normSq)).scale (Complex.arg ⟨|r.w|, r.imaginary.norm⟩ * 2.0) else 0 := rfl
  have hzero : v = 0 ↔ r.imaginary = 0 := by
    rw [hv]
    split_ifs
    · rfl
    · exact neg_eq_zero
  rw [hlog, ← hzero]
  split_ifs with hpos
  · have hne : v ≠ 0 := fun h0 => by
      rw [h0, Vec3.normSq_eq] at hpos
      simp [Vec3.zero_def] at hpos
    have hlength : Real.sqrt v.normSq ≠ 0 := (Real.sqrt_pos.mpr hpos).ne'
    have himaginary : r.imaginary.norm ≠ 0 := fun h0 => hne (hzero.mpr (Vec3.norm_eq_zero_iff.mp h0))
    have hangle : Complex.arg ⟨|r.w|, r.imaginary.norm⟩ * 2.0 ≠ 0 := by
      refine mul_ne_zero (fun h0 => himaginary (Complex.arg_eq_zero_iff.mp h0).2) ?_
      norm_num
    rw [Vec3.divBy_eq, Vec3.scale_scale, Vec3.scale_eq_zero_iff,
      or_iff_left (mul_ne_zero (one_div_ne_zero hlength) hangle)]
  · have hnorm : v = 0 := Vec3.norm_eq_zero_iff.mp (Real.sqrt_eq_zero'.mpr (not_lt.mp hpos))
    exact iff_of_true rfl hnorm

theorem IsUnit.normalized_eq (h : r.IsUnit) : r.normalized = r := by
  have hnorm : r.norm = 1 := by
    rw [IsUnit] at h
    show Real.sqrt _ = 1
    rw [Real.sqrt_eq_one]
    linarith
  rw [normalized, hnorm]
  ext <;> exact div_one _

end Rotation

/-! ### Rigid motions -/

namespace Pose

variable {p q : Pose ℝ}

/-- A pose is read back from its parameters. -/
theorem IsUnit.ofList?_toList (h : p.IsUnit) : ofList? p.toList = some p := by
  have hrotation : p.rotation.IsUnit := h
  exact congrArg (fun r => some (Pose.mk r p.position)) hrotation.normalized_eq

/-- **The logarithm vanishes where the motion has the matrix of the identity.** -/
theorem IsUnit.log_eq_zero_iff (h : p.IsUnit) : p.log = 0 ↔ p.matrix = 1 := by
  have hrotation : p.rotation.IsUnit := h
  have hmatrix : p.matrix = 1 ↔ p.rotation.matrix = 1 ∧ p.position = 0 := by
    rw [matrix, Homogeneous.one_def, Homogeneous.mk.injEq, and_iff_left rfl]
  have hlog : p.log = 0 ↔ p.rotation.log = 0 ∧
      (RotationVector.leftJacobianInv p.rotation.log).apply p.position = 0 := by
    rw [log, Spatial.zero_def, Spatial.mk.injEq]
  rw [hmatrix, hlog, ← hrotation.imaginary_eq_zero_iff, ← Rotation.log_eq_zero_iff]
  refine and_congr_right fun hangular => ?_
  have hjacobian : RotationVector.leftJacobianInv (0 : Vec3 ℝ) = 1 := by
    rw [RotationVector.leftJacobianInv, Mat3.skew_zero, zero_mul, Mat3.zero_scale, Mat3.zero_scale,
      sub_zero, add_zero]
  rw [hangular, hjacobian, Mat3.one_apply]

/-- **Two poses differ by nothing where they have one matrix.** -/
theorem IsUnit.log_between_eq_zero_iff (hp : p.IsUnit) (hq : q.IsUnit) :
    (p.between q).log = 0 ↔ p.matrix = q.matrix := by
  have hbetween : (p.between q).IsUnit := hp.inverse.compose hq
  rw [hbetween.log_eq_zero_iff, between, hp.inverse.matrix_compose]
  constructor
  · intro h
    calc p.matrix = p.matrix * (p.inverse.matrix * q.matrix) := by rw [h, mul_one]
      _ = q.matrix := by rw [← mul_assoc, hp.matrix_mul_inverse, one_mul]
  · intro h
    rw [← h, hp.inverse_mul_matrix]

end Pose
end Kinodynamics
