/-
# Rigid motions and their adjoints

The motions whose quaternion has length one are closed under composition, inversion and
exponentials, and the adjoint matrices represent them: the adjoint of a composition is the
product of the adjoints, and that of the motion back is the inverse. The adjoint of a motion
carries brackets to brackets, and that of a motion along a screw axis leaves the axis where
it is.

Key definitions: `Pose.IsUnit`.
Key theorems: `Pose.IsUnit.adjoint_compose`, `Pose.IsUnit.inverse_adjoint_apply`,
`Pose.IsUnit.adjoint_cross_apply`, `Screw.adjoint_exp_apply`.
-/
import Kinodynamics.Proofs.Algebra.Spatial
import Kinodynamics.Proofs.Motion.Exponential
import Kinodynamics.Screw

namespace Kinodynamics

namespace Pose

/-- The quaternion of the pose has length one. -/
def IsUnit (p : Pose ℝ) : Prop := p.rotation.IsUnit

/-! ### The group -/

variable {p q : Pose ℝ}

theorem isUnit_ofPosition (t : Vec3 ℝ) : (ofPosition t).IsUnit := Rotation.isUnit_identity

theorem IsUnit.inverse (h : p.IsUnit) : p.inverse.IsUnit := Rotation.IsUnit.inverse h

theorem IsUnit.compose (hp : p.IsUnit) (hq : q.IsUnit) : (p.compose q).IsUnit :=
  Rotation.IsUnit.compose hp hq

theorem IsUnit.compose_inverse (h : p.IsUnit) : p.compose p.inverse = identity := by
  have hrotation : p.rotation.IsUnit := h
  have hposition : p.rotation.act (-p.rotation.inverse.act p.position) + p.position = 0 := by
    rw [hrotation.act_eq, hrotation.inverse.act_eq, Mat3.apply_neg, ← Mat3.mul_apply,
      hrotation.matrix_mul_inverse, Mat3.one_apply, neg_add_cancel]
  exact Pose.ext hrotation.compose_inverse hposition

theorem IsUnit.inverse_inverse (h : p.IsUnit) : p.inverse.inverse = p := by
  have hrotation : p.rotation.IsUnit := h
  have hposition : -p.rotation.inverse.inverse.act (-p.rotation.inverse.act p.position) =
      p.position := by
    rw [Rotation.inverse_inverse, hrotation.act_eq, hrotation.inverse.act_eq, Mat3.apply_neg,
      neg_neg, ← Mat3.mul_apply, hrotation.matrix_mul_inverse, Mat3.one_apply]
  exact Pose.ext (Rotation.inverse_inverse _) hposition

theorem IsUnit.inverse_compose (h : p.IsUnit) : p.inverse.compose p = identity := by
  have hback := h.inverse.compose_inverse
  rwa [h.inverse_inverse] at hback

/-! ### The adjoint -/

theorem adjoint_identity : (identity : Pose ℝ).adjoint = 1 := by
  rw [adjoint, identity, Rotation.matrix_identity, Mat3.skew_zero, zero_mul]
  rfl

/-- The adjoint rotates both parts and adds what the displacement makes of a turn. -/
theorem adjoint_apply (p : Pose ℝ) (v : Spatial ℝ) : p.adjoint.apply v =
    ⟨p.rotation.matrix.apply v.angular,
      p.position.cross (p.rotation.matrix.apply v.angular) + p.rotation.matrix.apply v.linear⟩ := by
  rw [adjoint, SpatialMat.lower_apply, Mat3.mul_apply, Mat3.skew_apply]

/-- **The adjoint of a composition is the product of the adjoints.** -/
theorem IsUnit.adjoint_compose (h : p.IsUnit) (q : Pose ℝ) :
    (p.compose q).adjoint = p.adjoint * q.adjoint := by
  have hrotation : p.rotation.IsUnit := h
  have hcoupling : (p.rotation.act q.position + p.position).skew *
      (p.rotation.matrix * q.rotation.matrix) =
      p.position.skew * p.rotation.matrix * q.rotation.matrix +
        p.rotation.matrix * (q.position.skew * q.rotation.matrix) := by
    rw [hrotation.act_eq, Mat3.skew_add, add_mul, ← mul_assoc, hrotation.skew_apply_mul, mul_assoc,
      mul_assoc, add_comm]
  rw [adjoint, adjoint, adjoint, SpatialMat.lower_mul_lower, ← hcoupling, ← Rotation.matrix_compose]
  rfl

theorem IsUnit.adjoint_inverse_apply (h : p.IsUnit) (v : Spatial ℝ) :
    p.adjoint.apply (p.inverse.adjoint.apply v) = v := by
  rw [← SpatialMat.mul_apply, ← h.adjoint_compose, h.compose_inverse, adjoint_identity,
    SpatialMat.one_apply]

/-- The adjoint of the motion back undoes the adjoint. -/
theorem IsUnit.inverse_adjoint_apply (h : p.IsUnit) (v : Spatial ℝ) :
    p.inverse.adjoint.apply (p.adjoint.apply v) = v := by
  have hback := h.inverse.adjoint_inverse_apply v
  rwa [h.inverse_inverse] at hback

/-- **The adjoint carries brackets to brackets.** -/
theorem IsUnit.adjoint_cross_apply (h : p.IsUnit) (u v : Spatial ℝ) :
    p.adjoint.apply (u.cross.apply v) = (p.adjoint.apply u).cross.apply (p.adjoint.apply v) := by
  have hrotation : p.rotation.IsUnit := h
  simp only [adjoint_apply, Spatial.cross_apply, Mat3.apply_add, hrotation.apply_cross,
    Vec3.add_cross, Vec3.cross_add, Vec3.cross_cross p.position]
  ext1
  · rfl
  · show _ + _ + (_ + _) = _ + _ + (_ + _)
    abel

end Pose

/-! ### Screws -/

/-- **A motion leaves its own screw axis where it is.** -/
theorem Screw.adjoint_exp_apply {axis : Spatial ℝ} {q : ℝ}
    (h : RotationVector.IsExact (axis.angular.scale q)) :
    (Screw.exp axis q).adjoint.apply axis = axis := by
  set turn := axis.angular.scale q with hturn
  set rotation := (RotationVector.exp turn).matrix
  set displacement := (RotationVector.leftJacobian turn).apply axis.linear
  have hposition : (Screw.exp axis q).position = displacement.scale q := Mat3.apply_scale _ _ _
  have hangular : rotation.apply axis.angular = axis.angular :=
    RotationVector.matrix_exp_apply (by rw [hturn, Vec3.scale_cross, Vec3.cross_self, Vec3.zero_scale])
  -- what the rotation adds to the linear part is what the displacement makes of the turn
  have hlinear : rotation.apply axis.linear =
      axis.linear + (axis.angular.cross displacement).scale q := by
    have hmatrix : rotation = 1 + turn.skew * RotationVector.leftJacobian turn := by
      rw [RotationVector.skew_mul_leftJacobian h, add_sub_cancel]
    rw [hmatrix, Mat3.add_apply, Mat3.one_apply, Mat3.mul_apply, Mat3.skew_apply, hturn,
      Vec3.scale_cross]
  calc (Screw.exp axis q).adjoint.apply axis
      = ⟨rotation.apply axis.angular,
          (displacement.scale q).cross (rotation.apply axis.angular) + rotation.apply axis.linear⟩ := by
        rw [← hposition]
        exact Pose.adjoint_apply _ _
    _ = ⟨axis.angular, (displacement.scale q).cross axis.angular +
          (axis.linear + (axis.angular.cross displacement).scale q)⟩ := by
        rw [hangular, hlinear]
    _ = axis := by
        rw [Vec3.scale_cross, Vec3.cross_swap displacement, Vec3.neg_scale, add_comm axis.linear,
          neg_add_cancel_left]

end Kinodynamics
