/-
# The exponential and the logarithm undo each other

Within half a turn a rigid motion is the exponential of one tangent vector, its logarithm
(`PoseTangent.log_exp`, `Pose.IsUnit.matrix_exp_log`). The logarithm of a rotation is read from
the quaternion whose real part is not negative, of the two that the rotation has: its real part
is the cosine and the length of its imaginary part the sine of half the angle
(`Rotation.IsUnit.exp_log`). So the exponential returns that quaternion, and the matrix does not
tell the two apart. The displacement goes through the left Jacobian on one way and through its
inverse on the other, from either side.

Key definitions: `RotationVector.IsShort`, `Rotation.upright`, `Rotation.halfAngle`.
Key theorems: `Rotation.IsUnit.exp_log`, `Rotation.IsUnit.matrix_exp_log`,
`RotationVector.log_exp`, `Pose.log_exp_and_exp_log`.
-/
import Kinodynamics.Proofs.Motion.Jacobians
import Kinodynamics.Proofs.Motion.Logarithm

namespace Kinodynamics

/-! ### Short rotation vectors -/

namespace RotationVector

variable {w : Vec3 ℝ}

/-- Shorter than half a turn, and zero or long enough for closed forms. -/
def IsShort (w : Vec3 ℝ) : Prop := w = 0 ∨ smallAngle ≤ w.norm ∧ w.norm < Real.pi

theorem IsShort.isExact (h : IsShort w) : IsExact w := h.imp Vec3.norm_eq_zero_iff.mpr And.left

theorem sin_norm_ne_zero (hw : smallAngle ≤ w.norm) (hpi : w.norm < Real.pi) : Real.sin w.norm ≠ 0 :=
  (Real.sin_pos_of_pos_of_lt_pi (smallAngle_pos.trans_le hw) hpi).ne'

theorem IsShort.leftJacobian_mul_inv (h : IsShort w) : leftJacobian w * leftJacobianInv w = 1 := by
  rcases h with rfl | ⟨hsmall, hpi⟩
  · rw [leftJacobian_zero, leftJacobianInv_zero, one_mul]
  · exact RotationVector.leftJacobian_mul_inv hsmall (sin_norm_ne_zero hsmall hpi)

theorem IsShort.leftJacobian_inv_mul (h : IsShort w) : leftJacobianInv w * leftJacobian w = 1 := by
  rw [leftJacobianInv_mul_comm, h.leftJacobian_mul_inv]

end RotationVector

/-! ### The logarithm of a rotation -/

namespace Rotation

variable {r : Rotation ℝ}

/-- The imaginary part of that of the two quaternions whose real part is not negative. -/
noncomputable def upright (r : Rotation ℝ) : Vec3 ℝ := if 0 ≤ r.w then r.imaginary else -r.imaginary

/-- Half the angle of the rotation. -/
noncomputable def halfAngle (r : Rotation ℝ) : ℝ := Complex.arg ⟨|r.w|, r.imaginary.norm⟩

theorem norm_upright (r : Rotation ℝ) : r.upright.norm = r.imaginary.norm := by
  rw [upright]
  split_ifs
  · rfl
  · exact Vec3.norm_neg _

/-- The logarithm points along the imaginary part, by the angle. -/
theorem log_eq (r : Rotation ℝ) : r.log = r.upright.scale (2 * r.halfAngle / r.imaginary.norm) := by
  have hlog : r.log = if 0 < r.upright.normSq then
      (r.upright.divBy r.upright.norm).scale (r.halfAngle * 2.0) else 0 := rfl
  rw [hlog]
  split_ifs with hpos
  · rw [Vec3.divBy_eq, Vec3.scale_scale, norm_upright, Scalar.two_eq]
    congr 1
    ring
  · have hzero : r.upright = 0 := Vec3.norm_eq_zero_iff.mp (Real.sqrt_eq_zero'.mpr (not_lt.mp hpos))
    rw [hzero, Vec3.zero_scale]

theorem halfAngle_nonneg (r : Rotation ℝ) : 0 ≤ r.halfAngle :=
  Complex.arg_nonneg_iff.mpr r.imaginary.norm_nonneg

theorem halfAngle_eq_zero (h : r.imaginary.norm = 0) : r.halfAngle = 0 := by
  rw [halfAngle, h]
  exact Complex.arg_ofReal_of_nonneg (abs_nonneg _)

theorem norm_log (r : Rotation ℝ) : r.log.norm = 2 * r.halfAngle := by
  have hangle : 0 ≤ 2 * r.halfAngle := mul_nonneg zero_le_two r.halfAngle_nonneg
  rw [log_eq, Vec3.norm_scale, norm_upright, abs_of_nonneg (div_nonneg hangle r.imaginary.norm_nonneg)]
  rcases eq_or_ne r.imaginary.norm 0 with hzero | hne
  · rw [hzero, zero_mul, halfAngle_eq_zero hzero, mul_zero]
  · exact mul_div_cancel₀ _ hne

/-- Only a quaternion without real part is half a turn. -/
theorem norm_log_lt_pi (h : r.w ≠ 0) : r.log.norm < Real.pi := by
  have hlt : |r.halfAngle| < Real.pi / 2 :=
    Complex.abs_arg_lt_pi_div_two_iff.mpr (Or.inl (abs_pos.mpr h))
  rw [abs_of_nonneg r.halfAngle_nonneg] at hlt
  rw [norm_log]
  linarith

/-! A unit quaternion has the cosine and the sine of half the angle as its two parts. -/

theorem IsUnit.norm_mk (h : r.IsUnit) : ‖(⟨|r.w|, r.imaginary.norm⟩ : ℂ)‖ = 1 := by
  have hsq : |r.w| ^ 2 + r.imaginary.norm ^ 2 = 1 := by
    rw [IsUnit] at h
    rw [sq_abs, Vec3.norm_sq, Vec3.normSq_eq, imaginary]
    linear_combination h
  rw [Complex.norm_def, Complex.normSq_mk, ← sq, ← sq, hsq, Real.sqrt_one]

theorem IsUnit.cos_halfAngle (h : r.IsUnit) : Real.cos r.halfAngle = |r.w| := by
  have hne : (⟨|r.w|, r.imaginary.norm⟩ : ℂ) ≠ 0 := norm_ne_zero_iff.mp (h.norm_mk ▸ one_ne_zero)
  rw [halfAngle, Complex.cos_arg hne, h.norm_mk, div_one]

theorem IsUnit.sin_halfAngle (h : r.IsUnit) : Real.sin r.halfAngle = r.imaginary.norm := by
  rw [halfAngle, Complex.sin_arg, h.norm_mk, div_one]

/-- **The exponential of the logarithm is the quaternion whose real part is not negative.** -/
theorem IsUnit.exp_log (h : r.IsUnit) (hlog : RotationVector.smallAngle ≤ r.log.norm) :
    (RotationVector.exp r.log).w = |r.w| ∧ (RotationVector.exp r.log).imaginary = r.upright := by
  obtain ⟨hw, himaginary⟩ := RotationVector.exp_of_lt (RotationVector.tolerance_lt hlog)
  have hhalf : r.log.norm / 2 = r.halfAngle := by rw [norm_log, mul_div_cancel_left₀ _ two_ne_zero]
  have hpos : 0 < r.log.norm := RotationVector.smallAngle_pos.trans_le hlog
  have hne : r.imaginary.norm ≠ 0 := fun hzero => by
    rw [norm_log, halfAngle_eq_zero hzero, mul_zero] at hpos
    exact lt_irrefl _ hpos
  have hone : r.log.norm / r.imaginary.norm * (r.imaginary.norm / r.log.norm) = 1 := by
    rw [div_mul_div_cancel₀ hne, div_self hpos.ne']
  refine ⟨by rw [hw, hhalf, h.cos_halfAngle], ?_⟩
  calc (RotationVector.exp r.log).imaginary = r.log.scale (r.imaginary.norm / r.log.norm) := by
        rw [himaginary, hhalf, h.sin_halfAngle]
    _ = r.upright.scale (r.log.norm / r.imaginary.norm * (r.imaginary.norm / r.log.norm)) := by
        nth_rewrite 1 [log_eq]
        rw [Vec3.scale_scale, ← norm_log]
    _ = r.upright := by rw [hone, Vec3.scale_one]

/-- The two quaternions of a rotation have one matrix. -/
theorem IsUnit.matrix_eq_upright (h : r.IsUnit) : r.matrix =
    1 + r.upright.skew.scale (2 * |r.w|) + (r.upright.skew * r.upright.skew).scale 2 := by
  rw [h.matrix_eq, upright]
  split_ifs with hw
  · rw [abs_of_nonneg hw]
  · rw [abs_of_neg (not_le.mp hw), Mat3.skew_neg, neg_mul_neg, Mat3.neg_scale, mul_neg, Mat3.scale_neg,
      neg_neg]

theorem IsUnit.matrix_exp_log (h : r.IsUnit) (hlog : RotationVector.IsExact r.log) :
    (RotationVector.exp r.log).matrix = r.matrix := by
  rcases hlog with hzero | hlarge
  · obtain hzero := Vec3.norm_eq_zero_iff.mp hzero
    rw [hzero, RotationVector.exp_zero, matrix_identity,
      h.imaginary_eq_zero_iff.mp (log_eq_zero_iff.mp hzero)]
  · obtain ⟨hw, himaginary⟩ := h.exp_log hlarge
    rw [(RotationVector.isUnit_exp r.log).matrix_eq, hw, himaginary, h.matrix_eq_upright]

end Rotation

/-- **The logarithm of the exponential is the rotation vector.** -/
theorem RotationVector.log_exp {w : Vec3 ℝ} (h : IsShort w) : (exp w).log = w := by
  rcases h with rfl | ⟨hsmall, hpi⟩
  · rw [exp_zero, Rotation.log_eq_zero_iff]
    rfl
  · obtain ⟨hw, himaginary⟩ := exp_of_lt (tolerance_lt hsmall)
    have hpos : 0 < w.norm := smallAngle_pos.trans_le hsmall
    have hsin : 0 < Real.sin (w.norm / 2) := Real.sin_pos_of_pos_of_lt_pi (half_pos hpos) (by linarith)
    -- half the angle is less than a quarter turn, so this is the quaternion that the logarithm reads
    have hcos : 0 ≤ Real.cos (w.norm / 2) :=
      Real.cos_nonneg_of_neg_pi_div_two_le_of_le (by linarith) (by linarith)
    have hupright : (exp w).upright = w.scale (Real.sin (w.norm / 2) / w.norm) :=
      (if_pos (hw ▸ hcos)).trans himaginary
    have hnorm : (exp w).imaginary.norm = Real.sin (w.norm / 2) := by
      rw [himaginary, Vec3.norm_scale, abs_of_pos (div_pos hsin hpos), mul_div_cancel₀ _ hpos.ne']
    have hangle : (exp w).halfAngle = w.norm / 2 := by
      rw [Rotation.halfAngle, hnorm, hw, abs_of_nonneg hcos, Complex.mk_eq_add_mul_I, Complex.ofReal_cos,
        Complex.ofReal_sin]
      exact Complex.arg_cos_add_sin_mul_I ⟨by linarith, by linarith⟩
    have hone : Real.sin (w.norm / 2) / w.norm * (2 * (w.norm / 2) / Real.sin (w.norm / 2)) = 1 := by
      rw [mul_div_cancel₀ _ two_ne_zero, div_mul_div_cancel₀ hpos.ne', div_self hsin.ne']
    rw [Rotation.log_eq, hupright, hangle, hnorm, Vec3.scale_scale, hone, Vec3.scale_one]

/-! ### Rigid motions -/

theorem PoseTangent.log_exp {ξ : Spatial ℝ} (h : RotationVector.IsShort ξ.angular) : (exp ξ).log = ξ := by
  have hangular : (RotationVector.exp ξ.angular).log = ξ.angular := RotationVector.log_exp h
  show (⟨(RotationVector.exp ξ.angular).log,
    (RotationVector.leftJacobianInv (RotationVector.exp ξ.angular).log).apply
      ((RotationVector.leftJacobian ξ.angular).apply ξ.linear)⟩ : Spatial ℝ) = ξ
  rw [hangular, ← Mat3.mul_apply, h.leftJacobian_inv_mul, Mat3.one_apply]

namespace Pose

variable {p : Pose ℝ}

theorem IsUnit.matrix_exp_log (hp : p.IsUnit) (h : RotationVector.IsShort p.rotation.log) :
    (PoseTangent.exp p.log).matrix = p.matrix := by
  have hrotation : (RotationVector.exp p.rotation.log).matrix = p.rotation.matrix :=
    Rotation.IsUnit.matrix_exp_log hp h.isExact
  show (⟨(RotationVector.exp p.rotation.log).matrix, (RotationVector.leftJacobian p.rotation.log).apply
    ((RotationVector.leftJacobianInv p.rotation.log).apply p.position), 1⟩ : Homogeneous ℝ) = _
  rw [hrotation, ← Mat3.mul_apply, h.leftJacobian_mul_inv, Mat3.one_apply]
  rfl

/-- Moving a pose by its difference to another gives the matrix of the other. -/
theorem IsUnit.matrix_rightPlus_rightMinus {a b : Pose ℝ} (ha : a.IsUnit) (hb : b.IsUnit)
    (h : RotationVector.IsShort (a.between b).rotation.log) :
    (a.rightPlus (b.rightMinus a)).matrix = b.matrix := by
  have hlog : (PoseTangent.exp (b.rightMinus a)).matrix = (a.between b).matrix :=
    (ha.between hb).matrix_exp_log h
  calc (a.rightPlus (b.rightMinus a)).matrix
      = a.matrix * (PoseTangent.exp (b.rightMinus a)).matrix := ha.matrix_compose _
    _ = a.matrix * (a.between b).matrix := by rw [hlog]
    _ = a.matrix * (a.inverse.matrix * b.matrix) := congrArg _ (ha.inverse.matrix_compose b)
    _ = b.matrix := by rw [← mul_assoc, ha.matrix_mul_inverse, one_mul]

/-- **The exponential and the logarithm undo each other** within half a turn, where closed forms
are computed: the logarithm of an exponential is the tangent vector; the exponential of a
logarithm has the matrix of the motion, whichever of its two quaternions it is held by; and so a
pose is moved to another by the difference of the two. -/
theorem log_exp_and_exp_log :
    (∀ ξ : Spatial ℝ, RotationVector.IsShort ξ.angular → (PoseTangent.exp ξ).log = ξ) ∧
    (∀ p : Pose ℝ, p.IsUnit → RotationVector.IsShort p.rotation.log →
      (PoseTangent.exp p.log).matrix = p.matrix) ∧
    (∀ a b : Pose ℝ, a.IsUnit → b.IsUnit → RotationVector.IsShort (a.between b).rotation.log →
      (a.rightPlus (b.rightMinus a)).matrix = b.matrix) :=
  ⟨fun _ => PoseTangent.log_exp, fun _ hp => hp.matrix_exp_log,
    fun _ _ ha hb => ha.matrix_rightPlus_rightMinus hb⟩

/-- More than a quarter turn about the first axis, by the quaternion with negative real part. -/
noncomputable def overturned : Pose ℝ := ⟨⟨-0.6, 0.8, 0, 0⟩, ⟨1, 0, 0.5⟩⟩

theorem isUnit_overturned : overturned.IsUnit := by
  show (-0.6 : ℝ) ^ 2 + 0.8 ^ 2 + 0 ^ 2 + 0 ^ 2 = 1
  norm_num

theorem norm_log_overturned :
    1.6 ≤ overturned.rotation.log.norm ∧ overturned.rotation.log.norm < Real.pi := by
  have himaginary : overturned.rotation.imaginary.norm = 0.8 := by
    show Real.sqrt (Vec3.normSq ⟨0.8, 0, 0⟩) = 0.8
    rw [Vec3.normSq_eq, show (0.8 : ℝ) ^ 2 + 0 ^ 2 + 0 ^ 2 = 0.8 ^ 2 by norm_num]
    exact Real.sqrt_sq (by norm_num)
  have hhalf : 0.8 ≤ overturned.rotation.halfAngle := by
    rw [← himaginary, ← Rotation.IsUnit.sin_halfAngle isUnit_overturned]
    exact Real.sin_le (Rotation.halfAngle_nonneg _)
  have hreal : overturned.rotation.w ≠ 0 := by
    show (-0.6 : ℝ) ≠ 0
    norm_num
  exact ⟨by rw [Rotation.norm_log]; linarith, Rotation.norm_log_lt_pi hreal⟩

theorem log_exp_and_exp_log_overturned : RotationVector.IsShort winding.angular ∧
    (PoseTangent.exp winding).log = winding ∧
    overturned.IsUnit ∧ RotationVector.IsShort overturned.rotation.log ∧
    (PoseTangent.exp overturned.log).matrix = overturned.matrix ∧
    (identity.rightPlus (overturned.rightMinus identity)).matrix = overturned.matrix := by
  have hwinding : RotationVector.IsShort winding.angular := by
    rw [RotationVector.IsShort, norm_angular_winding]
    exact Or.inr ⟨by norm_num [RotationVector.smallAngle], by linarith [Real.pi_gt_three]⟩
  have hbetween : identity.between overturned = overturned := by
    have hinverse : (identity : Pose ℝ).inverse = identity := by
      rw [← identity_compose identity.inverse]
      exact IsUnit.compose_inverse Rotation.isUnit_identity
    rw [between, hinverse, identity_compose]
  have hunit := isUnit_overturned
  have hlog : RotationVector.IsShort overturned.rotation.log := by
    have hsmall : (RotationVector.smallAngle : ℝ) ≤ 1.6 := by norm_num [RotationVector.smallAngle]
    exact Or.inr ⟨hsmall.trans norm_log_overturned.1, norm_log_overturned.2⟩
  obtain ⟨htangent, hpose, hmoved⟩ := log_exp_and_exp_log
  exact ⟨hwinding, htangent _ hwinding, hunit, hlog, hpose _ hunit hlog,
    hmoved _ _ Rotation.isUnit_identity hunit (hbetween.symm ▸ hlog)⟩

end Pose
end Kinodynamics
