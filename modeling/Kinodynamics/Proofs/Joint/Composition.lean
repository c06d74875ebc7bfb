/-
# Composing motion across a joint

The twist and the acceleration of one link give those of the other. Going to the other side
and back changes nothing (`Joint.motion_roundTrip`): the adjoints of the two sides undo each
other, the axis of one side becomes the negative of the other's, and the convective terms
cancel because the adjoint keeps brackets.

The maps of poses, twists and accelerations are one chain rule (`Joint.chainRule`): the
Jacobians of the composition of poses give the map of twists, and the Jacobians of the map
of twists give the map of accelerations.

Key theorems: `Joint.motion_roundTrip`, `Joint.chainRule`.
-/
import Kinodynamics.Proofs.Joint.Frames

namespace Kinodynamics
namespace Joint

variable {j : Joint ℝ} {q : ℝ}

/-! ### There and back -/

/-- A motion along the axis of either side, seen from the other. -/
theorem IsAssembled.adjoint_scaled_screwAxis (hj : j.IsAssembled) (side : Side) (hq : j.IsExactAt q)
    (rate : ℝ) : (j.poseOfOther side.other q).adjoint.apply ((j.screwAxis side).scale rate) =
      -(j.screwAxis side.other).scale rate := by
  rw [SpatialMat.apply_scale, hj.adjoint_screwAxis side hq, Spatial.neg_scale]

/-- A twist seen from the other side is the other twist and the negative of the joint rate. -/
theorem IsAssembled.adjoint_twistFromOther (hj : j.IsAssembled) (side : Side) (hq : j.IsExactAt q)
    (qDot : ℝ) (other : Spatial ℝ) :
    (j.poseOfOther side.other q).adjoint.apply (j.twistFromOther side q qDot other) =
      other + -(j.screwAxis side.other).scale qDot := by
  rw [twistFromOther, SpatialMat.apply_add, hj.adjoint_poseOfOther,
    hj.adjoint_scaled_screwAxis side hq]

theorem IsAssembled.twistOfOther_twistFromOther (hj : j.IsAssembled) (side : Side)
    (hq : j.IsExactAt q) (qDot : ℝ) (other : Spatial ℝ) :
    j.twistOfOther side q qDot (j.twistFromOther side q qDot other) = other := by
  rw [twistOfOther, twistFromOther, hj.adjoint_twistFromOther side hq, neg_add_cancel_right]

/-- The convective term seen from the other side is the negative of the one there. -/
theorem IsAssembled.adjoint_convective (hj : j.IsAssembled) (side : Side) (hq : j.IsExactAt q)
    (qDot : ℝ) (other : Spatial ℝ) :
    (j.poseOfOther side.other q).adjoint.apply
        ((j.twistFromOther side q qDot other).cross.apply ((j.screwAxis side).scale qDot)) =
      -other.cross.apply ((j.screwAxis side.other).scale qDot) := by
  have hpose : (j.poseOfOther side.other q).IsUnit := hj.isUnit_poseOfOther _ _
  rw [hpose.adjoint_cross_apply, hj.adjoint_twistFromOther side hq,
    hj.adjoint_scaled_screwAxis side hq, SpatialMat.apply_neg, Spatial.add_cross_apply,
    Spatial.neg_cross_apply, Spatial.cross_apply_self, neg_zero, add_zero]

theorem IsAssembled.accelOfOther_accelFromOther (hj : j.IsAssembled) (side : Side)
    (hq : j.IsExactAt q) (qDot qDDot : ℝ) (other otherAccel : Spatial ℝ) :
    j.accelOfOther side q qDot qDDot other (j.accelFromOther side q qDot qDDot
      (j.twistFromOther side q qDot other) otherAccel) = otherAccel := by
  rw [accelOfOther, accelFromOther, accelFromOther, SpatialMat.apply_add, SpatialMat.apply_add,
    hj.adjoint_poseOfOther, hj.adjoint_convective side hq, hj.adjoint_scaled_screwAxis side hq]
  abel

/-- **Both sides of a joint describe one motion.** The twist and the acceleration of either
link, computed from those of the other link, give back those of the other link. -/
theorem motion_roundTrip (hj : j.IsAssembled) (side : Side) (hq : j.IsExactAt q)
    (qDot qDDot : ℝ) (other otherAccel : Spatial ℝ) :
    j.twistOfOther side q qDot (j.twistFromOther side q qDot other) = other ∧
      j.accelOfOther side q qDot qDDot other (j.accelFromOther side q qDot qDDot
        (j.twistFromOther side q qDot other) otherAccel) = otherAccel :=
  ⟨hj.twistOfOther_twistFromOther side hq qDot other,
    hj.accelOfOther_accelFromOther side hq qDot qDDot other otherAccel⟩

/-- A turned hinge, from the side of its parent. -/
theorem motion_roundTrip_hinge : hinge.IsAssembled ∧ hinge.IsExactAt 1 ∧
    hinge.twistOfOther .parent 1 2 (hinge.twistFromOther .parent 1 2 ⟨⟨1, 0, 0⟩, ⟨0, 1, 0⟩⟩) =
        ⟨⟨1, 0, 0⟩, ⟨0, 1, 0⟩⟩ ∧
      hinge.accelOfOther .parent 1 2 3 ⟨⟨1, 0, 0⟩, ⟨0, 1, 0⟩⟩ (hinge.accelFromOther .parent 1 2 3
        (hinge.twistFromOther .parent 1 2 ⟨⟨1, 0, 0⟩, ⟨0, 1, 0⟩⟩) ⟨⟨0, 0, 1⟩, ⟨1, 1, 0⟩⟩) =
        ⟨⟨0, 0, 1⟩, ⟨1, 1, 0⟩⟩ :=
  ⟨isAssembled_hinge, isExactAt_hinge, motion_roundTrip isAssembled_hinge .parent isExactAt_hinge 2 3 _ _⟩

/-! ### The chain rule -/

/-- The pose in the other link and the pose of the other link undo each other. -/
theorem IsAssembled.inverse_poseInOther (hj : j.IsAssembled) (side : Side) (q : ℝ) :
    (j.poseInOther side q).inverse = j.poseOfOther side q := by
  cases side with
  | parent => exact (hj.isUnit_childInParent q).inverse_inverse
  | child => rfl

/-- **A link moves in the frame of the other along its own axis.** For the parent that takes an
angle at which the axis of the child is left where it is. -/
theorem IsAssembled.poseInOtherTangent_eq (hj : j.IsAssembled) (side : Side)
    (hq : side = .parent → j.IsExactAt q) : j.poseInOtherTangent side q = j.screwAxis side := by
  cases side with
  | child => exact SpatialMat.one_apply _
  | parent =>
    show (-(j.childInParent q).adjoint).apply ((1 : SpatialMat ℝ).apply j.childAxis) = j.parentAxis
    rw [SpatialMat.one_apply, SpatialMat.neg_apply, hj.adjoint_childInParent (hq rfl), neg_neg]

/-- The convective term is the change of the carried twist as the joint moves. -/
theorem cross_twistFromOther (j : Joint ℝ) (side : Side) (q qDot : ℝ) (other : Spatial ℝ) :
    (j.twistFromOther side q qDot other).cross.apply ((j.screwAxis side).scale qDot) =
      (j.twistFromOtherPartials side q qDot other).q.scale qDot := by
  set axis := j.screwAxis side
  set carried := (j.poseOfOther side q).adjoint.apply other with hcarried
  have hpartial : (j.twistFromOtherPartials side q qDot other).q = -axis.cross.apply carried := by
    show (-axis.cross * (j.poseOfOther side q).adjoint).apply other = _
    rw [SpatialMat.mul_apply, SpatialMat.neg_apply]
  calc (j.twistFromOther side q qDot other).cross.apply (axis.scale qDot)
      = carried.cross.apply (axis.scale qDot) := by
        rw [twistFromOther, Spatial.add_cross_apply, Spatial.cross_apply_self, add_zero]
    _ = (-axis.cross.apply carried).scale qDot := by
        rw [SpatialMat.apply_scale, Spatial.cross_apply_swap]
    _ = (j.twistFromOtherPartials side q qDot other).q.scale qDot := by rw [hpartial]

/-- **Poses, twists and accelerations are composed by one chain rule.** The twist of a link is
the derivative of its pose, composed by the Jacobians of the composition after any pose; its
acceleration is the derivative of its twist, by the Jacobians of the map of twists. -/
theorem chainRule (hj : j.IsAssembled) (side : Side) (q qDot qDDot : ℝ)
    (other otherAccel : Spatial ℝ) :
    ((side = .parent → j.IsExactAt q) → ∀ pose : Pose ℝ,
      j.twistFromOther side q qDot other =
        (pose.composeJacobians (j.poseInOther side q)).first.apply other +
          ((pose.composeJacobians (j.poseInOther side q)).second.apply
            (j.poseInOtherTangent side q)).scale qDot) ∧
      j.accelFromOther side q qDot qDDot (j.twistFromOther side q qDot other) otherAccel =
        (j.twistFromOtherPartials side q qDot other).q.scale qDot +
          (j.twistFromOtherPartials side q qDot other).qDot.scale qDDot +
          (j.twistFromOtherPartials side q qDot other).other.apply otherAccel := by
  refine ⟨fun hq pose => ?_, ?_⟩
  · show _ = (j.poseInOther side q).inverse.adjoint.apply other +
      ((1 : SpatialMat ℝ).apply (j.poseInOtherTangent side q)).scale qDot
    rw [hj.inverse_poseInOther, SpatialMat.one_apply, hj.poseInOtherTangent_eq side hq]
    rfl
  · rw [accelFromOther, cross_twistFromOther]
    show (j.poseOfOther side q).adjoint.apply otherAccel + _ + (j.screwAxis side).scale qDDot =
      _ + (j.screwAxis side).scale qDDot + (j.poseOfOther side q).adjoint.apply otherAccel
    abel

/-- A turned hinge, from the side of its parent, after a displacement. -/
theorem chainRule_hinge : hinge.IsAssembled ∧ hinge.IsExactAt 1 ∧
    hinge.twistFromOther .parent 1 2 ⟨⟨1, 0, 0⟩, ⟨0, 1, 0⟩⟩ =
        ((Pose.ofPosition ⟨1, 2, 3⟩).composeJacobians (hinge.poseInOther .parent 1)).first.apply
            ⟨⟨1, 0, 0⟩, ⟨0, 1, 0⟩⟩ +
          (((Pose.ofPosition ⟨1, 2, 3⟩).composeJacobians (hinge.poseInOther .parent 1)).second.apply
            (hinge.poseInOtherTangent .parent 1)).scale 2 ∧
      hinge.accelFromOther .parent 1 2 3 (hinge.twistFromOther .parent 1 2 ⟨⟨1, 0, 0⟩, ⟨0, 1, 0⟩⟩) 0 =
        (hinge.twistFromOtherPartials .parent 1 2 ⟨⟨1, 0, 0⟩, ⟨0, 1, 0⟩⟩).q.scale 2 +
          (hinge.twistFromOtherPartials .parent 1 2 ⟨⟨1, 0, 0⟩, ⟨0, 1, 0⟩⟩).qDot.scale 3 +
          (hinge.twistFromOtherPartials .parent 1 2 ⟨⟨1, 0, 0⟩, ⟨0, 1, 0⟩⟩).other.apply 0 := by
  obtain ⟨htwist, haccel⟩ :=
    chainRule isAssembled_hinge .parent 1 2 3 ⟨⟨1, 0, 0⟩, ⟨0, 1, 0⟩⟩ 0
  exact ⟨isAssembled_hinge, isExactAt_hinge, htwist (fun _ => isExactAt_hinge) _, haccel⟩

end Joint
end Kinodynamics
