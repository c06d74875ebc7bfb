/-
# The frames of a joint

A joint that was made from rigid motions moves by rigid motions, and its two axes are one
axis seen from its two links: carried to the other link the axis of one becomes the negative
of the other's (`Joint.IsAssembled.adjoint_screwAxis`). At rest that is how the axes were
made. Along the motion of the joint it stays so because a motion leaves its own axis where
it is.

Key definitions: `Joint.IsAssembled`, `Joint.IsExactAt`.
Key theorems: `Joint.IsAssembled.adjoint_poseOfOther`, `Joint.IsAssembled.adjoint_screwAxis`,
`Joint.IsAssembled.isExactAt_iff`.
-/
import Kinodynamics.Proofs.Motion.Adjoint
import Kinodynamics.Joint.Basic

namespace Kinodynamics

/-- An axis carried from a frame to a link that the frame is placed at, and from there to the
world, is where the frame itself carries it. -/
theorem Pose.IsUnit.adjoint_between {frame link : Pose ℝ} (hframe : frame.IsUnit)
    (hlink : link.IsUnit) (axis : Spatial ℝ) :
    link.adjoint.apply ((frame.inverse.compose link).inverse.adjoint.apply axis) =
      frame.adjoint.apply axis := by
  set placed := frame.inverse.compose link with hplaced
  have hunit : placed.IsUnit := hframe.inverse.compose hlink
  have hlinkOf : ∀ v, link.adjoint.apply v = frame.adjoint.apply (placed.adjoint.apply v) := fun v => by
    rw [hplaced, hframe.inverse.adjoint_compose, SpatialMat.mul_apply, hframe.adjoint_inverse_apply]
  rw [hlinkOf, hunit.adjoint_inverse_apply]

namespace Joint

/-- The joint was made, of whatever kind, from poses whose quaternions have length one. -/
inductive IsAssembled : Joint ℝ → Prop
  | assemble {id : JointId} {name : String} {worldPose : Pose ℝ} {parent child : Link ℝ}
      {params : JointSettings ℝ} {kind : JointMotion ℝ} (hworld : worldPose.IsUnit)
      (hparent : parent.worldPose.IsUnit) (hchild : child.worldPose.IsUnit) :
      IsAssembled (Joint.assemble id name worldPose parent child params kind)

/-- The angle that the child turns by is zero or large enough for closed forms. -/
def IsExactAt (j : Joint ℝ) (q : ℝ) : Prop :=
  RotationVector.IsExact (j.childAxis.angular.scale q)

/-- The sides of a joint between two links stand for the links. -/
theorem side?_link {j : Joint ℝ} (hne : j.parent ≠ j.child) (side : Side) :
    j.side? (j.link side) = some side := by
  cases side with
  | parent => rw [side?, link, if_neg hne, if_pos rfl]
  | child => rw [side?, link, if_pos rfl]

namespace IsAssembled

variable {j : Joint ℝ}

/-! ### Poses -/

theorem isUnit_restPose (hj : j.IsAssembled) : j.restPose.IsUnit := by
  obtain ⟨-, hparent, hchild⟩ := hj
  exact hparent.inverse.compose hchild

theorem isUnit_childInParent (hj : j.IsAssembled) (q : ℝ) : (j.childInParent q).IsUnit :=
  hj.isUnit_restPose.compose (RotationVector.isUnit_exp _)

theorem isUnit_poseOfOther (hj : j.IsAssembled) (side : Side) (q : ℝ) :
    (j.poseOfOther side q).IsUnit := by
  cases side with
  | parent => exact hj.isUnit_childInParent q
  | child => exact (hj.isUnit_childInParent q).inverse

/-- The poses of the two sides undo each other. -/
theorem adjoint_poseOfOther (hj : j.IsAssembled) (side : Side) (q : ℝ) (v : Spatial ℝ) :
    (j.poseOfOther side.other q).adjoint.apply ((j.poseOfOther side q).adjoint.apply v) = v := by
  have hunit := hj.isUnit_childInParent q
  cases side with
  | parent => exact hunit.inverse_adjoint_apply v
  | child => exact hunit.adjoint_inverse_apply v

/-! ### Axes -/

/-- At rest the axis of the child, seen from the parent, is the negative of the parent's. -/
theorem adjoint_restPose (hj : j.IsAssembled) :
    j.restPose.adjoint.apply j.childAxis = -j.parentAxis := by
  obtain @⟨_, _, worldPose, parent, child, _, kind, hworld, hparent, hchild⟩ := hj
  show (parent.worldPose.inverse.compose child.worldPose).adjoint.apply
      ((worldPose.inverse.compose child.worldPose).inverse.adjoint.apply kind.screwAxis) =
    - -(worldPose.inverse.compose parent.worldPose).inverse.adjoint.apply kind.screwAxis
  rw [hparent.inverse.adjoint_compose, SpatialMat.mul_apply, hworld.adjoint_between hchild,
    ← hworld.adjoint_between hparent, hparent.inverse_adjoint_apply, neg_neg]

/-- The same wherever the joint is. -/
theorem adjoint_childInParent (hj : j.IsAssembled) {q : ℝ} (hq : j.IsExactAt q) :
    (j.childInParent q).adjoint.apply j.childAxis = -j.parentAxis := by
  rw [childInParent, hj.isUnit_restPose.adjoint_compose, SpatialMat.mul_apply,
    Screw.adjoint_exp_apply hq, hj.adjoint_restPose]

/-- **The axis of either side, seen from the other, is the negative of the other's.** -/
theorem adjoint_screwAxis (hj : j.IsAssembled) (side : Side) {q : ℝ} (hq : j.IsExactAt q) :
    (j.poseOfOther side.other q).adjoint.apply (j.screwAxis side) = -j.screwAxis side.other := by
  have haxis := hj.adjoint_childInParent hq
  cases side with
  | child => exact haxis
  | parent =>
    have hback := (hj.isUnit_childInParent q).inverse_adjoint_apply j.childAxis
    rw [haxis, SpatialMat.apply_neg] at hback
    show (j.childInParent q).inverse.adjoint.apply j.parentAxis = -j.childAxis
    rw [← hback, neg_neg]

/-- The child turns as fast as the axis of its kind says. -/
theorem norm_childAxis (hj : j.IsAssembled) :
    j.childAxis.angular.norm = j.kind.screwAxis.angular.norm := by
  obtain @⟨_, _, worldPose, _, child, _, kind, hworld, -, hchild⟩ := hj
  have hplaced : (worldPose.inverse.compose child.worldPose).IsUnit := hworld.inverse.compose hchild
  show ((worldPose.inverse.compose child.worldPose).inverse.adjoint.apply
    kind.screwAxis).angular.norm = kind.screwAxis.angular.norm
  rw [Pose.adjoint_apply]
  exact Rotation.IsUnit.norm_apply hplaced.inverse _

theorem isExactAt_iff (hj : j.IsAssembled) {q : ℝ} : j.IsExactAt q ↔
    j.kind.screwAxis.angular.norm * |q| = 0 ∨
      RotationVector.smallAngle ≤ j.kind.screwAxis.angular.norm * |q| := by
  rw [IsExactAt, RotationVector.IsExact, Vec3.norm_scale, hj.norm_childAxis]

end IsAssembled

/-! ### A hinge -/

/-- A hinge about the third axis, half a unit above its parent. The child is turned about the
first axis and displaced. -/
noncomputable def hinge : Joint ℝ :=
  .assemble ⟨0⟩ "hinge" (.ofPosition ⟨0, 0, 0.5⟩)
    ⟨⟨0⟩, "base", 1, 1, .identity⟩
    ⟨⟨1⟩, "arm", 1, 1, ⟨⟨0.6, 0.8, 0, 0⟩, ⟨1, 0, 0.5⟩⟩⟩
    .standard (.revolute ⟨0, 0, 1⟩)

theorem isAssembled_hinge : hinge.IsAssembled :=
  .assemble (Pose.isUnit_ofPosition _) Rotation.isUnit_identity (by
    show (0.6 : ℝ) ^ 2 + 0.8 ^ 2 + 0 ^ 2 + 0 ^ 2 = 1
    norm_num)

theorem norm_childAxis_hinge : hinge.childAxis.angular.norm = 1 := by
  have hnormSq : (⟨0, 0, 1⟩ : Vec3 ℝ).normSq = 1 := by
    rw [Vec3.normSq_eq]
    norm_num
  rw [isAssembled_hinge.norm_childAxis]
  show Real.sqrt (⟨0, 0, 1⟩ : Vec3 ℝ).normSq = 1
  rw [hnormSq, Real.sqrt_one]

theorem isExactAt_hinge_of_le {q : ℝ} (hq : RotationVector.smallAngle ≤ |q|) : hinge.IsExactAt q := by
  rw [IsExactAt, RotationVector.IsExact, Vec3.norm_scale, norm_childAxis_hinge, one_mul]
  exact Or.inr hq

theorem isExactAt_hinge : hinge.IsExactAt 1 :=
  isExactAt_hinge_of_le (by norm_num [RotationVector.smallAngle])

end Joint
end Kinodynamics
