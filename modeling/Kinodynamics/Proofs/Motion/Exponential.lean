/-
# The exponential of rotation vectors

The matrix of the exponential is given by Rodrigues' formula, and the left Jacobian fits it:
multiplied by the rotation vector it is what the rotation adds to a vector
(`RotationVector.skew_mul_leftJacobian`). Both hold where closed forms are computed, at zero
and from `smallAngle` on; in between Taylor polynomials stand in for them.

Key definitions: `RotationVector.IsExact`.
Key theorems: `RotationVector.isUnit_exp`, `RotationVector.matrix_exp`,
`RotationVector.matrix_exp_apply`, `RotationVector.skew_mul_leftJacobian`.
-/
import Kinodynamics.Proofs.Motion.Rotation

namespace Kinodynamics
namespace RotationVector

variable {v : Vec3 ℝ}

/-- The angle is zero or large enough for closed forms. -/
def IsExact (v : Vec3 ℝ) : Prop := v.norm = 0 ∨ smallAngle ≤ v.norm

theorem smallAngle_pos : (0 : ℝ) < smallAngle := by norm_num [smallAngle]

/-! ### The quaternion -/

theorem tolerance_nonneg : (0 : ℝ) ≤ exponentialTolerance := by norm_num [exponentialTolerance]

/-- Vectors with an angle from `smallAngle` on are not taken for zero. -/
theorem tolerance_lt (hv : smallAngle ≤ v.norm) : exponentialTolerance < v.norm / 2 := by
  have hsmall : (exponentialTolerance : ℝ) < smallAngle / 2 := by
    norm_num [exponentialTolerance, smallAngle]
  linarith

theorem normSq_half (v : Vec3 ℝ) : (v.divBy 2.0).normSq = (v.norm / 2) ^ 2 := by
  rw [div_pow, Vec3.norm_sq, Vec3.normSq_eq, Vec3.normSq_eq, Scalar.two_eq, Vec3.divBy]
  ring

theorem exp_of_le (hv : v.norm / 2 ≤ exponentialTolerance) : exp v = Rotation.identity := by
  have hsmall : (v.divBy 2.0).normSq ≤ exponentialTolerance * exponentialTolerance := by
    rw [normSq_half, ← sq]
    exact pow_le_pow_left₀ (div_nonneg v.norm_nonneg zero_le_two) hv 2
  rw [exp, if_pos hsmall]
  rfl

/-- Half the angle, about the axis of the vector. -/
theorem exp_of_lt (hv : exponentialTolerance < v.norm / 2) : (exp v).w = Real.cos (v.norm / 2) ∧
    (exp v).imaginary = v.scale (Real.sin (v.norm / 2) / v.norm) := by
  have hlarge : ¬(v.divBy 2.0).normSq ≤ exponentialTolerance * exponentialTolerance := by
    rw [normSq_half, not_le, ← sq]
    exact pow_lt_pow_left₀ hv tolerance_nonneg two_ne_zero
  have hlength : Real.sqrt (v.divBy 2.0).normSq = v.norm / 2 := by
    rw [normSq_half, Real.sqrt_sq (tolerance_nonneg.trans hv.le)]
  have hexp : exp v = ⟨Real.cos (v.norm / 2),
      ((v.divBy 2.0).scale (Real.sin (v.norm / 2) / (v.norm / 2))).x,
      ((v.divBy 2.0).scale (Real.sin (v.norm / 2) / (v.norm / 2))).y,
      ((v.divBy 2.0).scale (Real.sin (v.norm / 2) / (v.norm / 2))).z⟩ := by
    rw [exp, if_neg hlarge, ← hlength]
    rfl
  rw [hexp]
  refine ⟨rfl, ?_⟩
  ext <;> simp only [Rotation.imaginary, Vec3.scale, Vec3.divBy, Scalar.two_eq] <;> field_simp

theorem exp_zero : exp (0 : Vec3 ℝ) = Rotation.identity :=
  exp_of_le (by rw [Vec3.norm_eq_zero_iff.mpr rfl, zero_div]; exact tolerance_nonneg)

/-- **The exponential is a rotation.** -/
theorem isUnit_exp (v : Vec3 ℝ) : (exp v).IsUnit := by
  rcases le_or_gt (v.norm / 2) exponentialTolerance with hv | hv
  · rw [exp_of_le hv]
    exact Rotation.isUnit_identity
  · obtain ⟨hw, himaginary⟩ := exp_of_lt hv
    have hnorm : v.norm ≠ 0 := fun h0 => by
      rw [h0, zero_div] at hv
      exact absurd hv (not_lt.mpr tolerance_nonneg)
    have hsq : (exp v).x ^ 2 + (exp v).y ^ 2 + (exp v).z ^ 2 = Real.sin (v.norm / 2) ^ 2 := by
      calc (exp v).x ^ 2 + (exp v).y ^ 2 + (exp v).z ^ 2
          = (exp v).imaginary.normSq := ((exp v).imaginary.normSq_eq).symm
        _ = v.normSq * (Real.sin (v.norm / 2) / v.norm) ^ 2 := by
            rw [himaginary, Vec3.normSq_eq, Vec3.normSq_eq, Vec3.scale]
            ring
        _ = Real.sin (v.norm / 2) ^ 2 := by
            rw [← Vec3.norm_sq]
            field_simp
    rw [Rotation.IsUnit, hw, add_assoc, add_assoc, ← add_assoc (_ ^ 2 : ℝ) (_ ^ 2) (_ ^ 2), hsq,
      Real.cos_sq_add_sin_sq]

/-! ### The matrix -/

/-- **Rodrigues' formula.** -/
theorem matrix_exp (hv : smallAngle ≤ v.norm) : (exp v).matrix =
    1 + v.skew.scale (Real.sin v.norm / v.norm) +
      (v.skew * v.skew).scale ((1 - Real.cos v.norm) / v.norm ^ 2) := by
  obtain ⟨hw, himaginary⟩ := exp_of_lt (tolerance_lt hv)
  have hnorm : v.norm ≠ 0 := (smallAngle_pos.trans_le hv).ne'
  -- with the double angle the coefficients are those of the half angle
  have hsin : Real.sin (v.norm / 2) / v.norm * (2 * Real.cos (v.norm / 2)) =
      Real.sin v.norm / v.norm := by
    have hdouble := Real.sin_two_mul (v.norm / 2)
    rw [mul_div_cancel₀ _ two_ne_zero] at hdouble
    rw [hdouble]
    ring
  have hcos : (Real.sin (v.norm / 2) / v.norm) ^ 2 * 2 = (1 - Real.cos v.norm) / v.norm ^ 2 := by
    have hdouble := Real.cos_two_mul (v.norm / 2)
    rw [mul_div_cancel₀ _ two_ne_zero] at hdouble
    rw [hdouble, div_pow, Real.sin_sq]
    ring
  rw [(isUnit_exp v).matrix_eq, hw, himaginary, Mat3.skew_scale, Mat3.scale_scale, hsin,
    Mat3.scale_mul, Mat3.mul_scale, Mat3.scale_scale, Mat3.scale_scale, ← hcos]
  congr 2
  ring

/-- A rotation keeps the vectors along its axis. -/
theorem matrix_exp_apply {w : Vec3 ℝ} (h : v.cross w = 0) : (exp v).matrix.apply w = w := by
  rcases le_or_gt (v.norm / 2) exponentialTolerance with hv | hv
  · rw [exp_of_le hv, Rotation.matrix_identity, Mat3.one_apply]
  · have hcross : (exp v).imaginary.cross w = 0 := by
      rw [(exp_of_lt hv).2, Vec3.scale_cross, h, Vec3.zero_scale]
    rw [(isUnit_exp v).matrix_eq, Mat3.add_apply, Mat3.add_apply, Mat3.scale_apply, Mat3.scale_apply,
      Mat3.mul_apply, Mat3.skew_apply, hcross, Mat3.apply_zero, Vec3.zero_scale, Vec3.zero_scale,
      Mat3.one_apply, add_zero, add_zero]

/-! ### The left Jacobian -/

/-- From `smallAngle` on the coefficients are the closed forms. -/
theorem leftCoefficients_eq (hv : smallAngle ≤ v.norm) : leftCoefficients v =
    ((1 - Real.cos v.norm) / v.norm ^ 2, (v.norm - Real.sin v.norm) / v.norm ^ 3) := by
  have hcoefficients : leftCoefficients v =
      ((1 - Real.cos v.norm) / v.normSq, (v.norm - Real.sin v.norm) / (v.normSq * v.norm)) :=
    if_neg (not_lt.mpr hv)
  rw [hcoefficients, ← Vec3.norm_sq, ← pow_succ]

theorem leftJacobian_eq (hv : smallAngle ≤ v.norm) : leftJacobian v =
    1 + v.skew.scale ((1 - Real.cos v.norm) / v.norm ^ 2) +
      (v.skew * v.skew).scale ((v.norm - Real.sin v.norm) / v.norm ^ 3) := by
  rw [leftJacobian, leftCoefficients_eq hv]

theorem leftJacobian_zero : leftJacobian (0 : Vec3 ℝ) = 1 := by
  show 1 + (0 : Vec3 ℝ).skew.scale _ + ((0 : Vec3 ℝ).skew * (0 : Vec3 ℝ).skew).scale _ = 1
  rw [Mat3.skew_zero, zero_mul, Mat3.zero_scale, Mat3.zero_scale, add_zero, add_zero]

/-- **What a rotation adds to a vector** is the product of the rotation vector with the left
Jacobian. -/
theorem skew_mul_leftJacobian (hv : IsExact v) :
    v.skew * leftJacobian v = (exp v).matrix - 1 := by
  rcases hv with hzero | hv
  · obtain rfl := Vec3.norm_eq_zero_iff.mp hzero
    rw [Mat3.skew_zero, zero_mul, exp_zero, Rotation.matrix_identity, sub_self]
  · have hnorm : v.norm ≠ 0 := (smallAngle_pos.trans_le hv).ne'
    have hcoefficient : 1 - v.norm ^ 2 * ((v.norm - Real.sin v.norm) / v.norm ^ 3) =
        Real.sin v.norm / v.norm := by
      field_simp
      ring
    rw [leftJacobian_eq hv, matrix_exp hv, mul_add, mul_add, mul_one, Mat3.mul_scale, Mat3.mul_scale,
      Mat3.skew_mul_skew_mul_skew, ← Vec3.norm_sq, ← hcoefficient, Mat3.scale_sub, Mat3.scale_one,
      Mat3.neg_scale, Mat3.scale_scale]
    abel

end RotationVector
end Kinodynamics
