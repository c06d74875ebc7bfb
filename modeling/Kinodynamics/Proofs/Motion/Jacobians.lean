/-
# The Jacobians of the exponential

The left and the right Jacobian of the exponential are built from negated arguments and differ
by the adjoint of the motion; both leave the tangent vector as it is, which is why the motion
along a screw has its axis as Jacobian; and the block formulas for the inverses give inverses
where the angle has a sine (`PoseTangent.jacobian_identities`). The right Jacobian is what its
name says: the matrix of the exponential changes by what it makes of the change of the tangent
vector (`PoseTangent.hasRate_exp`).

For rotations these are products of polynomials. The statements about coupling blocks are their
rates along the linear part.

Key definitions: `RotationVector.inverseLag`, `PoseTangent.IsExact`.
Key theorems: `PoseTangent.coupling_eq_add`, `PoseTangent.leftJacobian_eq_mul`,
`PoseTangent.jacobian_identities`, `PoseTangent.hasRate_exp`.
-/
import Kinodynamics.Proofs.Motion.Coupling

namespace Kinodynamics

/-! ### Rotations -/

namespace RotationVector

variable {w : Vec3 ℝ}

theorem normSq_neg (w : Vec3 ℝ) : (-w).normSq = w.normSq := by
  rw [Vec3.normSq_eq, Vec3.normSq_eq, Vec3.neg_def, neg_sq, neg_sq, neg_sq]

theorem polynomial_neg (w : Vec3 ℝ) (b c : ℝ) : polynomial (-w) b c = polynomial w (-b) c := by
  rw [polynomial, polynomial, Mat3.skew_neg, neg_mul_neg, Mat3.neg_scale, Mat3.scale_neg]

/-- The right Jacobian is the left one of the opposite vector. -/
theorem rightJacobian_eq (w : Vec3 ℝ) : rightJacobian w = leftJacobian (-w) := by
  have hcoefficients : leftCoefficients (-w) = leftCoefficients w := by
    rw [leftCoefficients, normSq_neg]
    rfl
  rw [leftJacobian, hcoefficients, Mat3.skew_neg, neg_mul_neg]
  show _ = 1 + (-w.skew).scale (leftCoefficients w).1 + _
  rw [Mat3.neg_scale, ← sub_eq_add_neg]
  rfl

theorem rightJacobianInv_eq (w : Vec3 ℝ) : rightJacobianInv w = leftJacobianInv (-w) := by
  have hcoefficient : inverseCoefficient (-w) = inverseCoefficient w := by
    rw [inverseCoefficient, normSq_neg]
    rfl
  rw [leftJacobianInv, hcoefficient, Mat3.skew_neg, neg_mul_neg, Mat3.neg_scale, sub_neg_eq_add]
  rfl

theorem leftJacobian_apply_self (w : Vec3 ℝ) : (leftJacobian w).apply w = w :=
  polynomial_apply_self w _ _

theorem rightJacobian_zero : rightJacobian (0 : Vec3 ℝ) = 1 := by
  rw [rightJacobian_eq, neg_zero, leftJacobian_zero]

theorem leftJacobianInv_zero : leftJacobianInv (0 : Vec3 ℝ) = 1 := by
  show 1 - (0 : Vec3 ℝ).skew.scale _ + ((0 : Vec3 ℝ).skew * (0 : Vec3 ℝ).skew).scale _ = 1
  rw [Mat3.skew_zero, zero_mul, Mat3.zero_scale, Mat3.zero_scale, sub_zero, add_zero]

/-- **The left Jacobian is the right one turned.** -/
theorem leftJacobian_eq_mul (hw : IsExact w) : leftJacobian w = (exp w).matrix * rightJacobian w := by
  rcases hw with hzero | hw
  · obtain rfl := Vec3.norm_eq_zero_iff.mp hzero
    rw [leftJacobian_zero, rightJacobian_zero, exp_zero, Rotation.matrix_identity, one_mul]
  · have hw' : smallAngle ≤ (-w).norm := by rwa [Vec3.norm_neg]
    have hnorm : w.norm ≠ 0 := (smallAngle_pos.trans_le hw).ne'
    have hadd := swing_norm_add hnorm
    have hsq := swing_norm_sq_add hnorm
    rw [rightJacobian_eq, leftJacobian_eq_polynomial hw', leftJacobian_eq_polynomial hw,
      matrix_exp_eq_polynomial hw, Vec3.norm_neg, polynomial_neg, polynomial_mul]
    congr 1
    · linear_combination swing w.norm * hadd - hsq
    · linear_combination bend w.norm * hadd

/-- The coefficient of the twofold product in the inverse of the left Jacobian, where the angle
has a sine. -/
noncomputable def inverseLag (angle : ℝ) : ℝ :=
  1 / angle ^ 2 - (1 + Real.cos angle) / (2.0 * angle * Real.sin angle)

theorem inverseCoefficient_eq (hw : smallAngle ≤ w.norm) : inverseCoefficient w = inverseLag w.norm := by
  have hcoefficient : inverseCoefficient w =
      1 / w.normSq - (1 + Real.cos w.norm) / (2.0 * w.norm * Real.sin w.norm) :=
    if_neg (not_lt.mpr hw)
  rw [hcoefficient, ← Vec3.norm_sq, inverseLag]

/-- **The inverse of the left Jacobian.** -/
theorem leftJacobian_mul_inv (hw : smallAngle ≤ w.norm) (hsin : Real.sin w.norm ≠ 0) :
    leftJacobian w * leftJacobianInv w = 1 := by
  have hnorm : w.norm ≠ 0 := (smallAngle_pos.trans_le hw).ne'
  have hinverse : leftJacobianInv w = polynomial w (-(1 / 2)) (inverseLag w.norm) := by
    have hhalf : (0.5 : ℝ) = 1 / 2 := by norm_num
    rw [leftJacobianInv, inverseCoefficient_eq hw, hhalf, sub_eq_add_neg, ← Mat3.scale_neg]
    rfl
  have hsq := Real.sin_sq_add_cos_sq w.norm
  have hfirst : bend w.norm + -(1 / 2) -
      w.norm ^ 2 * (bend w.norm * inverseLag w.norm + lag w.norm * -(1 / 2)) = 0 := by
    rw [inverseLag, bend, lag, Scalar.two_eq]
    field_simp
    linear_combination -w.norm * hsq
  have hsecond : lag w.norm + inverseLag w.norm + bend w.norm * -(1 / 2) -
      w.norm ^ 2 * (lag w.norm * inverseLag w.norm) = 0 := by
    rw [inverseLag, bend, lag, Scalar.two_eq]
    field_simp
    ring
  rw [hinverse, leftJacobian_eq_polynomial hw, polynomial_mul, ← Vec3.norm_sq, hfirst, hsecond,
    polynomial_zero]

/-- The inverse is a polynomial, too, so it may stand on either side. -/
theorem leftJacobianInv_mul_comm (w : Vec3 ℝ) :
    leftJacobianInv w * leftJacobian w = leftJacobian w * leftJacobianInv w := by
  have hinverse : leftJacobianInv w = polynomial w (-0.5) (inverseCoefficient w) := by
    rw [leftJacobianInv, sub_eq_add_neg, ← Mat3.scale_neg]
    rfl
  have hjacobian : leftJacobian w = polynomial w (leftCoefficients w).1 (leftCoefficients w).2 := rfl
  rw [hinverse, hjacobian, polynomial_mul_comm]

end RotationVector

/-! ### Rigid motions -/

namespace PoseTangent

/-- The angle is zero or large enough for closed forms in the coupling block. -/
def IsExact (ξ : Spatial ℝ) : Prop := ξ.angular = 0 ∨ couplingSmallAngle ≤ ξ.angular.norm

variable {ξ : Spatial ℝ} {w : Vec3 ℝ}

theorem IsExact.neg (h : IsExact ξ) : IsExact (-ξ) := by
  refine h.imp (fun hzero => ?_) fun hlarge => ?_
  · rw [Spatial.neg_def, hzero, neg_zero]
  · rwa [Spatial.neg_def, Vec3.norm_neg]

theorem IsExact.angular (h : IsExact ξ) : RotationVector.IsExact ξ.angular :=
  h.imp Vec3.norm_eq_zero_iff.mpr smallAngle_le

/-- The right Jacobian is the left one of the opposite vector. -/
theorem rightJacobian_eq (ξ : Spatial ℝ) : rightJacobian ξ = leftJacobian (-ξ) := by
  rw [rightJacobian, RotationVector.rightJacobian_eq]
  rfl

theorem rightJacobianInv_eq (ξ : Spatial ℝ) : rightJacobianInv ξ = leftJacobianInv (-ξ) := by
  rw [rightJacobianInv, RotationVector.rightJacobianInv_eq]
  rfl

/-- Without rotation the coupling block is half the linear part. -/
theorem coupling_zero (v : Vec3 ℝ) : coupling v 0 = v.skew.scale 0.5 := by
  simp [coupling]

/-- **Coupling blocks on the left and on the right.** What the adjoint of the motion adds to the
right one is the rate of the equation between the Jacobians of rotations. -/
theorem coupling_eq_add (h : w = 0 ∨ couplingSmallAngle ≤ w.norm) (v : Vec3 ℝ) : coupling v w =
    ((RotationVector.leftJacobian w).apply v).skew * (RotationVector.exp w).matrix *
        RotationVector.rightJacobian w +
      (RotationVector.exp w).matrix * coupling (-v) (-w) := by
  rcases h with rfl | hw
  · rw [neg_zero, coupling_zero, coupling_zero, RotationVector.leftJacobian_zero,
      RotationVector.rightJacobian_zero, RotationVector.exp_zero, Rotation.matrix_identity, Mat3.one_apply,
      mul_one, mul_one, one_mul, Mat3.skew_neg, Mat3.neg_scale]
    simp only [Mat3.scale_eq_smul]
    module
  · -- the Jacobians of rotations agree for vectors nearby, so the rates of both sides do
    have hright : Mat3.HasRate (fun s => RotationVector.rightJacobian (w + v.scale s))
        (coupling (-v) (-w)) 0 := by
      have hback := hasRate_leftJacobian (w := -w) (by rwa [Vec3.norm_neg]) (-v)
      simpa only [RotationVector.rightJacobian_eq, Vec3.neg_scale, neg_add] using hback
    have hproduct := (hasRate_matrix_exp hw v).mul hright
    rw [RotationVector.line_zero] at hproduct
    exact (hasRate_leftJacobian hw v).unique (hproduct.congr
      ((eventually_smallAngle_le hw v).mono fun _ h => RotationVector.leftJacobian_eq_mul (.inr h)))

/-- **The left Jacobian is the adjoint of the motion times the right one.** -/
theorem leftJacobian_eq_mul (h : IsExact ξ) :
    leftJacobian ξ = (exp ξ).adjoint * rightJacobian ξ := by
  rw [leftJacobian, rightJacobian, Pose.adjoint, SpatialMat.lower_mul_lower,
    RotationVector.leftJacobian_eq_mul h.angular, coupling_eq_add h]
  rfl

theorem coupling_apply_self (h : w = 0 ∨ couplingSmallAngle ≤ w.norm) (v : Vec3 ℝ) :
    (coupling v w).apply w + (RotationVector.leftJacobian w).apply v = v := by
  rcases h with rfl | hw
  · rw [Mat3.apply_zero, zero_add, RotationVector.leftJacobian_zero, Mat3.one_apply]
  · have hline := Vec3.HasRate.line w v 0
    have hrate := (hasRate_leftJacobian hw v).apply hline
    simp only [RotationVector.leftJacobian_apply_self, RotationVector.line_zero] at hrate
    exact hrate.unique hline

theorem leftJacobian_apply_self (h : IsExact ξ) : (leftJacobian ξ).apply ξ = ξ := by
  rw [leftJacobian, SpatialMat.lower_apply, RotationVector.leftJacobian_apply_self,
    coupling_apply_self h]

theorem rightJacobian_apply_self (h : IsExact ξ) : (rightJacobian ξ).apply ξ = ξ := by
  rw [← neg_inj, ← SpatialMat.apply_neg, rightJacobian_eq, leftJacobian_apply_self h.neg]

theorem leftJacobian_zero : leftJacobian (0 : Spatial ℝ) = 1 := by
  show SpatialMat.lower (RotationVector.leftJacobian (0 : Vec3 ℝ)) (coupling (0 : Vec3 ℝ) 0) = 1
  rw [RotationVector.leftJacobian_zero, coupling_zero, Mat3.skew_zero, Mat3.zero_scale]
  rfl

/-- The same along an axis: the Jacobian of the motion along a screw. -/
theorem rightJacobian_apply_axis {axis : Spatial ℝ} {q : ℝ} (h : IsExact (axis.scale q)) :
    (rightJacobian (axis.scale q)).apply axis = Screw.expJacobian axis q := by
  rcases eq_or_ne q 0 with rfl | hq
  · rw [Spatial.scale_zero, rightJacobian_eq, neg_zero, leftJacobian_zero, SpatialMat.one_apply]
    rfl
  · have hback : ∀ v : Spatial ℝ, (v.scale q).scale q⁻¹ = v := fun v => by
      rw [Spatial.scale_scale, mul_inv_cancel₀ hq, Spatial.scale_one]
    have hself := rightJacobian_apply_self h
    rw [SpatialMat.apply_scale] at hself
    rw [← hback ((rightJacobian (axis.scale q)).apply axis), hself, hback]
    rfl

/-! ### Inverses -/

theorem leftJacobian_mul_inv (h : IsExact ξ) (hsin : ξ.angular = 0 ∨ Real.sin ξ.angular.norm ≠ 0) :
    leftJacobian ξ * leftJacobianInv ξ = 1 := by
  have hinverse : RotationVector.leftJacobian ξ.angular * RotationVector.leftJacobianInv ξ.angular = 1 := by
    rcases h with hzero | hlarge
    · rw [hzero, RotationVector.leftJacobian_zero, RotationVector.leftJacobianInv_zero, one_mul]
    · have hne : ξ.angular ≠ 0 := fun hzero => norm_ne_zero hlarge (Vec3.norm_eq_zero_iff.mpr hzero)
      exact RotationVector.leftJacobian_mul_inv (smallAngle_le hlarge) (hsin.resolve_left hne)
  rw [leftJacobian, leftJacobianInv, SpatialMat.lower_mul_lower, neg_mul, neg_mul, mul_neg, ← mul_assoc,
    ← mul_assoc, hinverse, one_mul, add_neg_cancel]
  rfl

theorem rightJacobian_mul_inv (h : IsExact ξ) (hsin : ξ.angular = 0 ∨ Real.sin ξ.angular.norm ≠ 0) :
    rightJacobian ξ * rightJacobianInv ξ = 1 := by
  have hsin' : (-ξ).angular = 0 ∨ Real.sin (-ξ).angular.norm ≠ 0 := by
    rwa [Spatial.neg_def, neg_eq_zero, Vec3.norm_neg]
  rw [rightJacobian_eq, rightJacobianInv_eq, leftJacobian_mul_inv h.neg hsin']

/-- **How the Jacobians go together.** The left one is the adjoint of the motion times the right
one. Both leave the tangent vector as it is, and the right one the axis of a motion along a screw,
which is therefore returned as its Jacobian. Where the rotation is none or has a sine, the formulas
for the inverses give inverses. -/
theorem jacobian_identities (h : IsExact ξ) :
    leftJacobian ξ = (exp ξ).adjoint * rightJacobian ξ ∧
    ((rightJacobian ξ).apply ξ = ξ ∧ (leftJacobian ξ).apply ξ = ξ ∧
      ∀ axis q, axis.scale q = ξ → (rightJacobian ξ).apply axis = Screw.expJacobian axis q) ∧
    (ξ.angular = 0 ∨ Real.sin ξ.angular.norm ≠ 0 →
      rightJacobian ξ * rightJacobianInv ξ = 1 ∧ leftJacobian ξ * leftJacobianInv ξ = 1) := by
  refine ⟨leftJacobian_eq_mul h, ⟨rightJacobian_apply_self h, leftJacobian_apply_self h, ?_⟩, ?_⟩
  · rintro axis q rfl
    exact rightJacobian_apply_axis h
  · exact fun hsin => ⟨rightJacobian_mul_inv h hsin, leftJacobian_mul_inv h hsin⟩

theorem couplingSmallAngle_le_winding : couplingSmallAngle ≤ Pose.winding.angular.norm := by
  rw [Pose.norm_angular_winding]
  norm_num [couplingSmallAngle]

/-- A screw by one radian: the sine of its angle is not zero. -/
theorem jacobian_identities_winding : IsExact Pose.winding ∧ Real.sin Pose.winding.angular.norm ≠ 0 ∧
    (rightJacobian Pose.winding).apply Pose.winding = Pose.winding ∧
    rightJacobian Pose.winding * rightJacobianInv Pose.winding = 1 := by
  have hexact : IsExact Pose.winding := Or.inr couplingSmallAngle_le_winding
  have hsin : Real.sin Pose.winding.angular.norm ≠ 0 := by
    rw [Pose.norm_angular_winding]
    exact (Real.sin_pos_of_pos_of_lt_pi one_pos (by linarith [Real.pi_gt_three])).ne'
  obtain ⟨-, ⟨hself, -, -⟩, hinverse⟩ := jacobian_identities hexact
  exact ⟨hexact, hsin, hself, (hinverse (Or.inr hsin)).1⟩

end PoseTangent

/-! ### The rate of the exponential -/

/-! Exchanging two vectors leaves products of theirs with a third. -/

namespace Vec3

variable (u v w : Vec3 ℝ)

theorem dot_smul_cross :
    w.dot u • w.cross v = w.dot v • w.cross u + -w.cross (w.cross (u.cross v)) := by
  rw [← scale_eq_smul, ← scale_eq_smul]
  ext <;> simp only [cross, dot, scale, neg_def, add_def] <;> ring

theorem cross_cross_add : u.cross (w.cross v) + w.cross (u.cross v) =
    v.cross (w.cross u) + w.cross (v.cross u) + (3 : ℝ) • w.cross (u.cross v) := by
  rw [← scale_eq_smul]
  ext <;> simp only [cross, scale, add_def] <;> ring

theorem dot_smul_cross_cross : w.dot u • w.cross (w.cross v) =
    w.dot v • w.cross (w.cross u) + w.normSq • w.cross (u.cross v) := by
  rw [← scale_eq_smul, ← scale_eq_smul, ← scale_eq_smul]
  ext <;> simp only [cross, dot, normSq, scale, add_def] <;> ring

end Vec3

namespace PoseTangent

open RotationVector (swing bend lag swing_norm_add swing_norm_sq_add line_zero leftJacobian_eq_polynomial
  polynomial_apply_cross)

variable {ξ : Spatial ℝ} {w : Vec3 ℝ}

theorem coupling_apply (hw : couplingSmallAngle ≤ w.norm) (u v : Vec3 ℝ) : (coupling u w).apply v =
    (u.cross v).scale (bend w.norm) +
      (w.cross v).scale ((swing w.norm - 2 * bend w.norm) / w.norm * (w.dot u / w.norm)) +
      ((u.cross (w.cross v) + w.cross (u.cross v)).scale (lag w.norm) +
        (w.cross (w.cross v)).scale ((bend w.norm - 3 * lag w.norm) / w.norm * (w.dot u / w.norm))) := by
  simp only [coupling_eq hw, Mat3.add_apply, Mat3.scale_apply, Mat3.mul_apply, Mat3.skew_apply]

/-- **Two moves, one after the other, in either order.** The coupling blocks differ by the vector
product of what the left Jacobian makes of the moves. -/
theorem coupling_apply_swap (hw : couplingSmallAngle ≤ w.norm) (u v : Vec3 ℝ) :
    (coupling u w).apply v = (coupling v w).apply u +
      ((RotationVector.leftJacobian w).apply u).cross ((RotationVector.leftJacobian w).apply v) := by
  have hnorm := norm_ne_zero hw
  have hadd := swing_norm_add hnorm
  have hsq := swing_norm_sq_add hnorm
  have hnormSq : w.normSq ≠ 0 := Vec3.norm_sq w ▸ pow_ne_zero 2 hnorm
  have hfirst : (1 - w.normSq * lag w.norm) ^ 2 + w.normSq * bend w.norm ^ 2 = 2 * bend w.norm := by
    rw [← hsq, ← hadd, add_sub_cancel_right]
  have hsecond : bend w.norm • w.cross (u.cross v) = (3 * lag w.norm +
      (bend w.norm - 3 * lag w.norm) / w.normSq * w.normSq) • w.cross (u.cross v) := by
    rw [div_mul_cancel₀ _ hnormSq, add_sub_cancel]
  have hlast : bend w.norm ^ 2 + w.normSq * lag w.norm ^ 2 - lag w.norm =
      -((swing w.norm - 2 * bend w.norm) / w.normSq) := by
    field_simp
    linear_combination hsq + (w.normSq * lag w.norm - swing w.norm) * hadd
  have hdiv : ∀ x m : ℝ, x / w.norm * (m / w.norm) = x / w.normSq * m := fun x m => by
    rw [div_mul_div_comm, ← sq, Vec3.norm_sq, mul_div_right_comm]
  rw [leftJacobian_eq_polynomial (smallAngle_le hw), polynomial_apply_cross, coupling_apply hw,
    coupling_apply hw, Vec3.cross_cross_add u v, Vec3.cross_swap v u, hfirst, hlast]
  simp only [Vec3.scale_eq_smul, hdiv, mul_smul, Vec3.dot_smul_cross u v, Vec3.dot_smul_cross_cross u v,
    hsecond]
  module

/-- **The right Jacobian is the derivative of the exponential.** When the tangent vector moves, the
matrix of the motion changes by the generator of what the right Jacobian makes of the move. -/
theorem hasRate_exp (h : couplingSmallAngle ≤ ξ.angular.norm) (δ : Spatial ℝ) :
    Homogeneous.HasRate (fun s => (exp (ξ + δ.scale s)).matrix)
      ((exp ξ).matrix * hat ((rightJacobian ξ).apply δ)) 0 := by
  set turn := (RotationVector.leftJacobian ξ.angular).apply δ.angular with hturn
  set position := (RotationVector.leftJacobian ξ.angular).apply ξ.linear with hposition
  have hrate : (exp ξ).matrix * hat ((rightJacobian ξ).apply δ) =
      ⟨turn.skew * (RotationVector.exp ξ.angular).matrix,
        turn.cross position + ((coupling ξ.linear ξ.angular).apply δ.angular +
          (RotationVector.leftJacobian ξ.angular).apply δ.linear), 0⟩ := by
    rw [(Pose.isUnit_exp ξ).matrix_mul_hat, ← SpatialMat.mul_apply, ← leftJacobian_eq_mul (.inr h),
      leftJacobian, SpatialMat.lower_apply, hat, Homogeneous.mul_def]
    ext1
    · rfl
    · show turn.skew.apply position + Vec3.scale _ 1 = _
      rw [Mat3.skew_apply, Vec3.scale_one]
    · exact zero_mul _
  have hcolumn := (hasRate_leftJacobian h δ.angular).apply (Vec3.HasRate.line ξ.linear δ.linear 0)
  rw [line_zero, line_zero, coupling_apply_swap h, ← hposition, ← hturn, add_comm _ (turn.cross _),
    add_assoc] at hcolumn
  rw [hrate]
  exact ⟨hasRate_matrix_exp h δ.angular, hcolumn, hasDerivAt_const 0 1⟩

/-- Going on along the screw itself. -/
theorem hasRate_exp_winding : couplingSmallAngle ≤ Pose.winding.angular.norm ∧
    Homogeneous.HasRate (fun s => (exp (Pose.winding + Pose.winding.scale s)).matrix)
      ((exp Pose.winding).matrix * hat Pose.winding) 0 := by
  have hrate := hasRate_exp couplingSmallAngle_le_winding Pose.winding
  rw [rightJacobian_apply_self (Or.inr couplingSmallAngle_le_winding)] at hrate
  exact ⟨couplingSmallAngle_le_winding, hrate⟩

end PoseTangent
end Kinodynamics
