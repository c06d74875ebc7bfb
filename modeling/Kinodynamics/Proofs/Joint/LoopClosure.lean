/-
# The loop of poses across a joint

A relation between two poses and a coordinate measures the difference between where the parent
and the joint put the child and where the child is. It is the same function as the difference of
poses, with its Jacobian (`Joint.linearize_pose`). The relation chains the Jacobian of the one
pose seen from the other with that of the logarithm; the difference has the inverse of the left
Jacobian at once. They agree because the inverse of the right Jacobian times the adjoint of the
motion back is the inverse of the left one (`Pose.IsUnit.logJacobian_mul_adjoint`).

Key definitions: `PoseTangent.IsShort`.
Key theorems: `PoseTangent.IsShort.rightJacobian_inv_mul`, `Pose.IsUnit.logJacobian_mul_adjoint`,
`Joint.linearize_pose`.
-/
import Kinodynamics.Proofs.Motion.RoundTrip
import Kinodynamics.Proofs.Joint.LinearFamilies

namespace Kinodynamics

/-! ### Inverses on the other side -/

namespace PoseTangent

variable {ξ : Spatial ℝ}

/-- By less than half a turn, and by none or enough for closed forms in the coupling block. -/
def IsShort (ξ : Spatial ℝ) : Prop :=
  ξ.angular = 0 ∨ couplingSmallAngle ≤ ξ.angular.norm ∧ ξ.angular.norm < Real.pi

theorem IsShort.isExact (h : IsShort ξ) : IsExact ξ := h.imp_right And.left

theorem IsShort.angular (h : IsShort ξ) : RotationVector.IsShort ξ.angular :=
  h.imp_right fun hlarge => ⟨smallAngle_le hlarge.1, hlarge.2⟩

theorem IsShort.neg (h : IsShort ξ) : IsShort (-ξ) := by
  rwa [IsShort, Spatial.neg_def, neg_eq_zero, Vec3.norm_neg]

theorem IsShort.leftJacobian_mul_inv (h : IsShort ξ) : leftJacobian ξ * leftJacobianInv ξ = 1 :=
  PoseTangent.leftJacobian_mul_inv h.isExact <| h.imp_right fun hlarge =>
    RotationVector.sin_norm_ne_zero (smallAngle_le hlarge.1) hlarge.2

theorem IsShort.leftJacobian_inv_mul (h : IsShort ξ) : leftJacobianInv ξ * leftJacobian ξ = 1 := by
  have hinverse := h.angular.leftJacobian_inv_mul
  rw [leftJacobian, leftJacobianInv, SpatialMat.lower_mul_lower, neg_mul, neg_mul, neg_mul,
    mul_assoc _ (RotationVector.leftJacobianInv ξ.angular), hinverse, mul_one, neg_add_cancel]
  rfl

theorem IsShort.rightJacobian_inv_mul (h : IsShort ξ) : rightJacobianInv ξ * rightJacobian ξ = 1 := by
  rw [rightJacobianInv_eq, rightJacobian_eq, h.neg.leftJacobian_inv_mul]

end PoseTangent

/-- **The Jacobian of the logarithm after the motion back** is the inverse of the left Jacobian. -/
theorem Pose.IsUnit.logJacobian_mul_adjoint {p : Pose ℝ} (hp : p.IsUnit)
    (h : PoseTangent.IsShort p.log) :
    p.logJacobian * p.inverse.adjoint = PoseTangent.leftJacobianInv p.log := by
  have hadjoint : (PoseTangent.exp p.log).adjoint = p.adjoint :=
    adjoint_congr (hp.matrix_exp_log h.angular)
  have hleft : PoseTangent.leftJacobian p.log = p.adjoint * PoseTangent.rightJacobian p.log := by
    rw [PoseTangent.leftJacobian_eq_mul h.isExact, hadjoint]
  have hinverse : p.logJacobian * p.inverse.adjoint * PoseTangent.leftJacobian p.log = 1 := by
    rw [hleft, mul_assoc, ← mul_assoc p.inverse.adjoint, hp.inverse_adjoint_mul, one_mul]
    exact h.rightJacobian_inv_mul
  exact left_inv_eq_right_inv hinverse h.leftJacobian_mul_inv

/-! ### The relation of poses -/

namespace Joint

/-- What the relation computes, without the Jacobians that are the identity. -/
theorem linearizePose_eq (j : Joint ℝ) (parent child : Pose ℝ) (q : ℝ) :
    Factor.linearizePose j parent child q =
      let step := j.poseOfOther .parent q
      let difference := child.between (parent.compose step)
      ⟨difference.log.toList,
        ((difference.logJacobian * step.inverse.adjoint).toDense.beside
          (-(difference.logJacobian * difference.inverse.adjoint)).toDense).beside
            (difference.logJacobian.apply (j.screwAxis .child)).toColumn⟩ := by
  have htangent : j.poseOfOtherTangent .parent q = j.screwAxis .child := SpatialMat.one_apply _
  simp only [Factor.linearizePose, Pose.betweenJacobians, Pose.composeJacobians, htangent, mul_one,
    SpatialMat.mul_neg]

/-- **The relation of poses is the difference of poses.** Its residual is the tangent vector from
where the child is to where the parent and the joint put it. Within half a turn, where closed
forms are computed, its Jacobian is that of the difference in its first argument, chained with the
composition and with the axis of the child, and that in its second argument. -/
theorem linearize_pose {j : Joint ℝ} {parent child : Pose ℝ} (hparent : parent.IsUnit)
    (hchild : child.IsUnit) (hj : j.IsAssembled) (q : ℝ) :
    let step := j.poseOfOther .parent q
    let predicted := parent.compose step
    ∃ jacobian : Dense ℝ, (Factor.pose j).linearize? [parent.toList, child.toList, [q]] =
        some ⟨(predicted.rightMinus child).toList, jacobian⟩ ∧
      jacobian.nrows = 6 ∧ jacobian.ncols = 13 ∧
      (PoseTangent.IsShort (predicted.rightMinus child) →
        jacobian = (((predicted.rightMinusJacobians child).first * step.inverse.adjoint).toDense.beside
          (predicted.rightMinusJacobians child).second.toDense).beside
            ((predicted.rightMinusJacobians child).first.apply (j.screwAxis .child)).toColumn) := by
  intro step predicted
  refine ⟨(Factor.linearizePose j parent child q).jacobian, ?_, rfl, rfl, fun hshort => ?_⟩
  · show ((Pose.ofList? parent.toList).bind fun parent => (Pose.ofList? child.toList).bind fun child =>
      some (Factor.linearizePose j parent child q)) = _
    rw [hparent.ofList?_toList, hchild.ofList?_toList]
    rfl
  · have hunit : (child.between predicted).IsUnit :=
      hchild.between (hparent.compose (hj.isUnit_poseOfOther .parent q))
    have hfirst : (predicted.rightMinusJacobians child).first = (child.between predicted).logJacobian :=
      rfl
    have hsecond : (predicted.rightMinusJacobians child).second = -((child.between predicted).logJacobian *
        (child.between predicted).inverse.adjoint) := by
      rw [hunit.logJacobian_mul_adjoint hshort]
      rfl
    rw [hfirst, hsecond, linearizePose_eq]

/-- A hinge that is placed so that its child would be at the origin, where the child is away by
more than a quarter turn. -/
theorem linearize_pose_hinge :
    let step := hinge.poseOfOther .parent 1
    let parent := step.inverse
    let child := Pose.overturned.inverse
    let predicted := parent.compose step
    parent.IsUnit ∧ child.IsUnit ∧ hinge.IsAssembled ∧
      PoseTangent.IsShort (predicted.rightMinus child) ∧
      (Factor.pose hinge).linearize? [parent.toList, child.toList, [1]] =
        some ⟨(predicted.rightMinus child).toList,
          (((predicted.rightMinusJacobians child).first * step.inverse.adjoint).toDense.beside
            (predicted.rightMinusJacobians child).second.toDense).beside
              ((predicted.rightMinusJacobians child).first.apply (hinge.screwAxis .child)).toColumn⟩ := by
  intro step parent child predicted
  have hstep : step.IsUnit := isAssembled_hinge.isUnit_poseOfOther .parent 1
  have hchild : child.IsUnit := Pose.isUnit_overturned.inverse
  have hdifference : child.between predicted = Pose.overturned := by
    show Pose.overturned.inverse.inverse.compose (step.inverse.compose step) = _
    rw [Pose.isUnit_overturned.inverse_inverse, hstep.inverse_compose,
      Pose.isUnit_overturned.compose_identity]
  have hshort : PoseTangent.IsShort (predicted.rightMinus child) := by
    rw [Pose.rightMinus, hdifference]
    have hsmall : (PoseTangent.couplingSmallAngle : ℝ) ≤ 1.6 := by
      norm_num [PoseTangent.couplingSmallAngle]
    exact Or.inr ⟨hsmall.trans Pose.norm_log_overturned.1, Pose.norm_log_overturned.2⟩
  obtain ⟨jacobian, hlinearize, -, -, hjacobian⟩ :=
    linearize_pose hstep.inverse hchild isAssembled_hinge 1
  exact ⟨hstep.inverse, hchild, isAssembled_hinge, hshort, hjacobian hshort ▸ hlinearize⟩

end Joint
end Kinodynamics
