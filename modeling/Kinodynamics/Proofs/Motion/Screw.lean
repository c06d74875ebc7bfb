/-
# Motion along a fixed screw axis

The matrices of the motions along one axis are polynomials in the generator of the axis: its
fourth power is a multiple of the second, so powers up to the third suffice (`Screw.flow`).
Motions along one axis add up, for all coordinates; a rigid motion carries them to motions
along the axis that it carries the axis to. The computed exponential has this matrix where
closed forms are computed.

Key definitions: `Screw.flow`.
Key theorems: `Screw.flow_add`, `Pose.IsUnit.matrix_mul_flow`, `Screw.matrix_exp`.
-/
import Kinodynamics.Proofs.Algebra.Homogeneous

namespace Kinodynamics
namespace Screw

open PoseTangent

/-! ### Motions as polynomials in the generator -/

/-- Coefficient of the second power of a generator with angular speed `speed`. -/
noncomputable def bend (speed q : ℝ) : ℝ := (1 - Real.cos (speed * q)) / speed ^ 2

/-- Coefficient of the third power. -/
noncomputable def lag (speed q : ℝ) : ℝ := (speed * q - Real.sin (speed * q)) / speed ^ 3

/-- The matrix of the motion by `q` along the axis. -/
noncomputable def flow (axis : Spatial ℝ) (q : ℝ) : Homogeneous ℝ :=
  1 + q • hat axis + bend axis.angular.norm q • hat axis ^ 2 + lag axis.angular.norm q • hat axis ^ 3

variable (axis : Spatial ℝ) (q r : ℝ)

theorem flow_zero : flow axis 0 = 1 := by
  simp [flow, bend, lag]

/-- The second power of a generator without rotation is zero. -/
theorem hat_sq_eq_zero {axis : Spatial ℝ} (h : axis.angular.norm = 0) : hat axis ^ 2 = 0 := by
  obtain hzero := Vec3.norm_eq_zero_iff.mp h
  rw [hat_sq, hzero, Mat3.skew_zero, zero_mul, Mat3.zero_apply, Homogeneous.zero_def]

/-- The product of two polynomials in a generator. -/
theorem polynomial_mul (h : Homogeneous ℝ) (k a b c a' b' c' : ℝ) (hfour : h ^ 4 = -k • h ^ 2) :
    (1 + a • h + b • h ^ 2 + c • h ^ 3) * (1 + a' • h + b' • h ^ 2 + c' • h ^ 3) =
      1 + (a + a') • h + (b + b' + a * a' - k * (b * b' + a * c' + c * a') + k ^ 2 * (c * c')) • h ^ 2 +
        (c + c' + a * b' + b * a' - k * (b * c' + c * b')) • h ^ 3 := by
  have hfive : h ^ 5 = -k • h ^ 3 := by
    rw [pow_succ, hfour, smul_mul_assoc, ← pow_succ]
  have hsix : h ^ 6 = k ^ 2 • h ^ 2 := by
    rw [pow_succ, hfive, smul_mul_assoc, ← pow_succ, hfour, smul_smul, neg_mul_neg, ← sq k]
  have hpow : ∀ m n, h ^ m * h ^ n = h ^ (m + n) := fun m n => (pow_add h m n).symm
  have hone : ∀ n, h * h ^ n = h ^ (n + 1) := fun n => (pow_succ' h n).symm
  have hlast : ∀ n, h ^ n * h = h ^ (n + 1) := fun n => (pow_succ h n).symm
  simp only [add_mul, mul_add, one_mul, mul_one, smul_mul_assoc, mul_smul_comm, hpow, hone, hlast, ← sq h,
    Nat.reduceAdd, hfour, hfive, hsix]
  module

/-- **Motions along one axis add up.** -/
theorem flow_add : flow axis (q + r) = flow axis q * flow axis r := by
  set speed := axis.angular.norm with hspeed
  rcases eq_or_ne speed 0 with hzero | hne
  · have hsq : hat axis ^ 2 = 0 := hat_sq_eq_zero (hspeed ▸ hzero)
    have hcube : hat axis ^ 3 = 0 := by rw [pow_succ, hsq, zero_mul]
    have hlinear : ∀ s, flow axis s = 1 + s • hat axis := fun s => by
      rw [flow, hsq, hcube, smul_zero, smul_zero, add_zero, add_zero]
    rw [hlinear, hlinear, hlinear, mul_add, mul_one, add_mul, one_mul, smul_mul_smul_comm, ← sq, hsq,
      smul_zero, add_zero, add_smul, add_assoc]
  · have hbend : bend speed (q + r) = bend speed q + bend speed r + q * r -
        speed ^ 2 * (bend speed q * bend speed r + q * lag speed r + lag speed q * r) +
        (speed ^ 2) ^ 2 * (lag speed q * lag speed r) := by
      rw [bend, bend, bend, lag, lag, mul_add, Real.cos_add]
      field_simp
      ring
    have hlag : lag speed (q + r) = lag speed q + lag speed r + q * bend speed r + bend speed q * r -
        speed ^ 2 * (bend speed q * lag speed r + lag speed q * bend speed r) := by
      rw [bend, bend, lag, lag, lag, mul_add, Real.sin_add]
      field_simp
      ring
    rw [flow, flow, flow, polynomial_mul _ _ _ _ _ _ _ _ (hat_pow_four axis), ← hspeed, hbend, hlag]

theorem flow_neg_mul_flow : flow axis (-q) * flow axis q = 1 := by
  rw [← flow_add, neg_add_cancel, flow_zero]

/-- Along the opposite axis the motion goes back. -/
theorem flow_neg : flow (-axis) q = flow axis (-q) := by
  have hspeed : (-axis).angular.norm = axis.angular.norm := Vec3.norm_neg _
  have hbend : bend axis.angular.norm (-q) = bend axis.angular.norm q := by
    rw [bend, bend, mul_neg, Real.cos_neg]
  have hlag : lag axis.angular.norm (-q) = -lag axis.angular.norm q := by
    rw [lag, lag, mul_neg, Real.sin_neg]
    ring
  have heven : (-hat axis) ^ 2 = hat axis ^ 2 := neg_sq _
  have hodd : (-hat axis) ^ 3 = -hat axis ^ 3 := Odd.neg_pow (by decide) _
  rw [flow, flow, hspeed, hat_neg, hbend, hlag, heven, hodd, smul_neg, smul_neg, neg_smul, neg_smul]

end Screw

/-- **A rigid motion carries motions along an axis to motions along the axis carried over.** -/
theorem Pose.IsUnit.matrix_mul_flow {p : Pose ℝ} (h : p.IsUnit) (axis : Spatial ℝ) (q : ℝ) :
    p.matrix * Screw.flow axis q = Screw.flow (p.adjoint.apply axis) q * p.matrix := by
  have hrotation : p.rotation.IsUnit := h
  have hspeed : (p.adjoint.apply axis).angular.norm = axis.angular.norm := by
    rw [adjoint_apply]
    exact hrotation.norm_apply _
  have hgenerator : SemiconjBy p.matrix (PoseTangent.hat axis)
      (PoseTangent.hat (p.adjoint.apply axis)) := h.matrix_mul_hat axis
  have hsq := hgenerator.pow_right 2
  have hcube := hgenerator.pow_right 3
  rw [Screw.flow, Screw.flow, hspeed]
  simp only [mul_add, add_mul, mul_one, one_mul, mul_smul_comm, smul_mul_assoc, hgenerator.eq, hsq.eq,
    hcube.eq]

/-- The same from the other frame. -/
theorem Pose.IsUnit.inverse_mul_flow {p : Pose ℝ} (h : p.IsUnit) (axis : Spatial ℝ) (q : ℝ) :
    p.inverse.matrix * Screw.flow (p.adjoint.apply axis) q = Screw.flow axis q * p.inverse.matrix := by
  rw [h.inverse.matrix_mul_flow, h.inverse_adjoint_apply]

namespace Screw

open PoseTangent

variable {axis : Spatial ℝ} {q : ℝ}

/-! ### The computed exponential -/

theorem flow_block : (flow axis q).block =
    1 + axis.angular.skew.scale (q - axis.angular.norm ^ 2 * lag axis.angular.norm q) +
      (axis.angular.skew * axis.angular.skew).scale (bend axis.angular.norm q) := by
  have hthree := Mat3.skew_mul_skew_mul_skew axis.angular
  rw [← Vec3.norm_sq] at hthree
  rw [flow, hat_pow_three, hat_sq, hthree]
  show 1 + axis.angular.skew.scale q + (axis.angular.skew * axis.angular.skew).scale _ +
    (-axis.angular.skew.scale _).scale _ = _
  rw [Mat3.neg_scale, Mat3.scale_scale, Mat3.scale_sub]
  abel

theorem flow_column : (flow axis q).column =
    axis.linear.scale q + (axis.angular.skew.apply axis.linear).scale (bend axis.angular.norm q) +
      ((axis.angular.skew * axis.angular.skew).apply axis.linear).scale (lag axis.angular.norm q) := by
  rw [flow, hat_pow_three, hat_sq]
  show (0 : Vec3 ℝ) + axis.linear.scale q + (axis.angular.skew.apply axis.linear).scale _ +
    ((axis.angular.skew * axis.angular.skew).apply axis.linear).scale _ = _
  rw [zero_add]

theorem flow_corner : (flow axis q).corner = 1 := by
  rw [flow, hat_pow_three, hat_sq]
  show (1 : ℝ) + 0 * q + 0 * _ + 0 * _ = 1
  ring

/-! The coefficients do not change when the angle changes its sign. -/

section
variable {speed : ℝ}

theorem sin_div_abs (h : speed * q ≠ 0) :
    Real.sin |speed * q| / |speed * q| * q = q - speed ^ 2 * lag speed q := by
  have heven : Real.sin |speed * q| / |speed * q| = Real.sin (speed * q) / (speed * q) := by
    rcases abs_choice (speed * q) with habs | habs <;> rw [habs]
    rw [Real.sin_neg, neg_div_neg_eq]
  obtain ⟨hspeed, hq⟩ := mul_ne_zero_iff.mp h
  rw [heven, lag]
  field_simp
  ring

theorem one_sub_cos_div_abs (h : speed * q ≠ 0) :
    q * q * ((1 - Real.cos |speed * q|) / |speed * q| ^ 2) = bend speed q := by
  obtain ⟨hspeed, hq⟩ := mul_ne_zero_iff.mp h
  rw [Real.cos_abs, sq_abs, bend]
  field_simp

theorem sub_sin_div_abs (h : speed * q ≠ 0) :
    q * (q * q * ((|speed * q| - Real.sin |speed * q|) / |speed * q| ^ 3)) = lag speed q := by
  have heven : (|speed * q| - Real.sin |speed * q|) / |speed * q| ^ 3 =
      (speed * q - Real.sin (speed * q)) / (speed * q) ^ 3 := by
    rcases abs_choice (speed * q) with habs | habs <;> rw [habs]
    rw [Real.sin_neg, Odd.neg_pow (by decide), ← neg_sub', neg_div_neg_eq]
  obtain ⟨hspeed, hq⟩ := mul_ne_zero_iff.mp h
  rw [heven, lag]
  field_simp

end

theorem norm_turn (axis : Spatial ℝ) (q : ℝ) :
    (axis.angular.scale q).norm = |axis.angular.norm * q| := by
  rw [Vec3.norm_scale, abs_mul, abs_of_nonneg (Vec3.norm_nonneg _)]

theorem matrix_exp_of_eq_zero (h : (axis.angular.scale q).norm = 0) :
    (Screw.exp axis q).matrix = flow axis q := by
  have hturn : axis.angular.scale q = 0 := Vec3.norm_eq_zero_iff.mp h
  have hangle : axis.angular.norm * q = 0 := abs_eq_zero.mp (norm_turn axis q ▸ h)
  have hbend : bend axis.angular.norm q = 0 := by rw [bend, hangle, Real.cos_zero, sub_self, zero_div]
  have hlag : lag axis.angular.norm q = 0 := by rw [lag, hangle, Real.sin_zero, sub_self, zero_div]
  show (⟨(RotationVector.exp (axis.angular.scale q)).matrix,
    (RotationVector.leftJacobian (axis.angular.scale q)).apply (axis.linear.scale q), 1⟩ :
      Homogeneous ℝ) = _
  rw [hturn, RotationVector.exp_zero, RotationVector.leftJacobian_zero, Mat3.one_apply,
    Rotation.matrix_identity]
  ext1
  · rw [flow_block, hlag, hbend, mul_zero, sub_zero, ← Mat3.skew_scale, hturn, Mat3.skew_zero,
      Mat3.scale_zero, add_zero, add_zero]
  · rw [flow_column, hlag, hbend, Vec3.scale_zero, Vec3.scale_zero, add_zero, add_zero]
  · exact flow_corner.symm

theorem matrix_exp_of_le (h : RotationVector.smallAngle ≤ (axis.angular.scale q).norm) :
    (Screw.exp axis q).matrix = flow axis q := by
  have hangle : axis.angular.norm * q ≠ 0 :=
    abs_pos.mp (norm_turn axis q ▸ RotationVector.smallAngle_pos.trans_le h)
  have hskew : (axis.angular.scale q).skew = axis.angular.skew.scale q := Mat3.skew_scale _ _
  ext1
  · show (RotationVector.exp (axis.angular.scale q)).matrix = _
    rw [flow_block, RotationVector.matrix_exp h, hskew, norm_turn, Mat3.scale_mul, Mat3.mul_scale,
      Mat3.scale_scale, Mat3.scale_scale, Mat3.scale_scale, mul_comm q (_ / _), sin_div_abs hangle,
      ← mul_assoc q q, one_sub_cos_div_abs hangle]
  · show (RotationVector.leftJacobian (axis.angular.scale q)).apply (axis.linear.scale q) = _
    rw [flow_column, RotationVector.leftJacobian_eq h, hskew, norm_turn, Mat3.apply_scale]
    simp only [Mat3.scale_mul, Mat3.mul_scale, Mat3.scale_scale, Mat3.add_apply, Mat3.one_apply,
      Mat3.scale_apply, Vec3.add_scale, Vec3.scale_scale]
    rw [mul_right_comm, one_sub_cos_div_abs hangle, mul_comm _ q, sub_sin_div_abs hangle]
  · exact flow_corner.symm

/-- **The exponential along an axis, where closed forms are computed.** -/
theorem matrix_exp (h : RotationVector.IsExact (axis.angular.scale q)) :
    (Screw.exp axis q).matrix = flow axis q :=
  h.elim matrix_exp_of_eq_zero matrix_exp_of_le

theorem isExact_neg (h : RotationVector.IsExact (axis.angular.scale q)) :
    RotationVector.IsExact ((-axis).angular.scale q) := by
  have hnorm : ((-axis).angular.scale q).norm = (axis.angular.scale q).norm := by
    rw [Vec3.norm_scale, Vec3.norm_scale]
    exact congrArg (· * |q|) (Vec3.norm_neg _)
  rwa [RotationVector.IsExact, hnorm]

/-- An axis carried over turns by as much. -/
theorem isExact_adjoint {p : Pose ℝ} (hp : p.IsUnit) (h : RotationVector.IsExact (axis.angular.scale q)) :
    RotationVector.IsExact ((p.adjoint.apply axis).angular.scale q) := by
  have hrotation : p.rotation.IsUnit := hp
  have hnorm : ((p.adjoint.apply axis).angular.scale q).norm = (axis.angular.scale q).norm := by
    rw [Vec3.norm_scale, Vec3.norm_scale, Pose.adjoint_apply, hrotation.norm_apply]
  rwa [RotationVector.IsExact, hnorm]

end Screw
end Kinodynamics
