/-
# A joint moves along one parameter

The pose of one link seen from the other moves along a fixed screw: it is the motion along
the axis of the link it is seen from, before the pose at zero, and going on by a finite step
is the motion along the tangent (`Joint.oneParameter`). For the parent the step is a motion
along the axis of the child, which adds up with the motion there is. The matrices of the
child are the inverses of those of the parent, and its tangent is the axis of the child
carried to the parent, with the sign turned.

Key theorems: `Joint.IsAssembled.matrix_childInParent`, `Joint.IsAssembled.matrix_parentInChild`,
`Joint.oneParameter`.
-/
import Kinodynamics.Proofs.Joint.Frames
import Kinodynamics.Proofs.Motion.Screw

namespace Kinodynamics
namespace Joint

variable {j : Joint ℝ} {q δ : ℝ}

theorem isExactAt_zero (j : Joint ℝ) : j.IsExactAt 0 :=
  Or.inl (by rw [Vec3.scale_zero, Vec3.norm_eq_zero_iff])

namespace IsAssembled

/-! ### The moving frames -/

/-- The child moves along its own axis from its pose at rest. -/
theorem matrix_childInParent (hj : j.IsAssembled) (hq : j.IsExactAt q) :
    (j.childInParent q).matrix = j.restPose.matrix * Screw.flow j.childAxis q := by
  rw [childInParent, hj.isUnit_restPose.matrix_compose, Screw.matrix_exp hq]

/-- The parent, seen from the child, moves back. -/
theorem matrix_parentInChild (hj : j.IsAssembled) (hq : j.IsExactAt q) :
    (j.childInParent q).inverse.matrix =
      Screw.flow j.childAxis (-q) * j.restPose.inverse.matrix := by
  have hback : Screw.flow j.childAxis (-q) * j.restPose.inverse.matrix * (j.childInParent q).matrix = 1 := by
    rw [hj.matrix_childInParent hq, mul_assoc, ← mul_assoc _ j.restPose.matrix,
      hj.isUnit_restPose.inverse_mul_matrix, one_mul, Screw.flow_neg_mul_flow]
  exact (left_inv_eq_right_inv hback (hj.isUnit_childInParent q).matrix_mul_inverse).symm

/-! ### From the pose at zero -/

/-- **The pose of the other link is a motion along the axis of the link it is seen from**, after
the pose at zero. -/
theorem matrix_poseOfOther_eq (hj : j.IsAssembled) (side : Side) (hq : j.IsExactAt q) :
    (j.poseOfOther side q).matrix =
      ((Screw.exp (-j.screwAxis side) q).compose (j.poseOfOther side 0)).matrix := by
  have hunit : (Screw.exp (-j.screwAxis side) q).IsUnit := RotationVector.isUnit_exp _
  rw [hunit.matrix_compose]
  cases side with
  | parent =>
    have haxis : -j.screwAxis .parent = j.restPose.adjoint.apply j.childAxis := hj.adjoint_restPose.symm
    rw [haxis, Screw.matrix_exp (Screw.isExact_adjoint hj.isUnit_restPose hq)]
    show (j.childInParent q).matrix = _ * (j.childInParent 0).matrix
    rw [hj.matrix_childInParent hq, hj.matrix_childInParent j.isExactAt_zero, Screw.flow_zero, mul_one,
      hj.isUnit_restPose.matrix_mul_flow]
  | child =>
    show (j.childInParent q).inverse.matrix =
      (Screw.exp (-j.childAxis) q).matrix * (j.childInParent 0).inverse.matrix
    rw [Screw.matrix_exp (Screw.isExact_neg hq), Screw.flow_neg, hj.matrix_parentInChild hq,
      hj.matrix_parentInChild j.isExactAt_zero, neg_zero, Screw.flow_zero, one_mul]

/-! ### Finite steps -/

/-- **A finite step goes along the tangent.** -/
theorem matrix_poseOfOther_add (hj : j.IsAssembled) (side : Side) (hq : j.IsExactAt q)
    (hδ : j.IsExactAt δ) (hsum : j.IsExactAt (q + δ)) : (j.poseOfOther side (q + δ)).matrix =
      ((j.poseOfOther side q).compose
        (PoseTangent.exp ((j.poseOfOtherTangent side q).scale δ))).matrix := by
  rw [(hj.isUnit_poseOfOther side q).matrix_compose]
  cases side with
  | parent =>
    have htangent : j.poseOfOtherTangent .parent q = j.childAxis := SpatialMat.one_apply _
    show (j.childInParent (q + δ)).matrix = (j.childInParent q).matrix * (Screw.exp _ δ).matrix
    rw [htangent, Screw.matrix_exp hδ, hj.matrix_childInParent hq, hj.matrix_childInParent hsum,
      Screw.flow_add, mul_assoc]
  | child =>
    have hunit : (j.childInParent q).IsUnit := hj.isUnit_childInParent q
    have htangent : j.poseOfOtherTangent .child q =
        -(j.childInParent q).adjoint.apply j.childAxis := by
      show (-(j.childInParent q).adjoint).apply ((1 : SpatialMat ℝ).apply j.childAxis) = _
      rw [SpatialMat.one_apply, SpatialMat.neg_apply]
    show (j.childInParent (q + δ)).inverse.matrix =
      (j.childInParent q).inverse.matrix * (Screw.exp _ δ).matrix
    rw [htangent, Screw.matrix_exp (Screw.isExact_neg (Screw.isExact_adjoint hunit hδ)), Screw.flow_neg,
      hunit.inverse_mul_flow, hj.matrix_parentInChild hq, hj.matrix_parentInChild hsum, neg_add_rev,
      Screw.flow_add, mul_assoc]

end IsAssembled

/-- **The pose of a joint is a one-parameter motion, and its tangent is right for finite
steps.** Seen from either link, the pose of the other is the motion along the link's axis after
the pose at zero; a step in the coordinate is the motion along the tangent; and what the two
links see undoes each other. -/
theorem oneParameter (hj : j.IsAssembled) (side : Side) (hq : j.IsExactAt q) (hδ : j.IsExactAt δ)
    (hsum : j.IsExactAt (q + δ)) :
    (j.poseOfOther side q).matrix =
        ((Screw.exp (-j.screwAxis side) q).compose (j.poseOfOther side 0)).matrix ∧
      (j.poseOfOther side (q + δ)).matrix = ((j.poseOfOther side q).compose
        (PoseTangent.exp ((j.poseOfOtherTangent side q).scale δ))).matrix ∧
      ((j.poseOfOther .parent q).compose (j.poseOfOther .child q)).matrix = Pose.identity.matrix :=
  ⟨hj.matrix_poseOfOther_eq side hq, hj.matrix_poseOfOther_add side hq hδ hsum,
    congrArg Pose.matrix (hj.isUnit_childInParent q).compose_inverse⟩

/-- A hinge seen from its child, turned on by one radian. -/
theorem oneParameter_hinge : hinge.IsAssembled ∧ hinge.IsExactAt 1 ∧ hinge.IsExactAt (1 + 1) ∧
    (hinge.poseOfOther .child 1).matrix =
        ((Screw.exp (-hinge.screwAxis .child) 1).compose (hinge.poseOfOther .child 0)).matrix ∧
      (hinge.poseOfOther .child (1 + 1)).matrix = ((hinge.poseOfOther .child 1).compose
        (PoseTangent.exp ((hinge.poseOfOtherTangent .child 1).scale 1))).matrix ∧
      ((hinge.poseOfOther .parent 1).compose (hinge.poseOfOther .child 1)).matrix =
        Pose.identity.matrix :=
  have htwice : hinge.IsExactAt (1 + 1) :=
    isExactAt_hinge_of_le (by norm_num [RotationVector.smallAngle])
  ⟨isAssembled_hinge, isExactAt_hinge, htwice,
    oneParameter isAssembled_hinge .child isExactAt_hinge isExactAt_hinge htwice⟩

end Joint
end Kinodynamics
