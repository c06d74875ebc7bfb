/-
# Power across a joint

The wrench on the parent is the reaction of the one on the child, carried to the frame of
the parent: it is the one wrench at which the balance of wrenches has no residual
(`Factor.residual_wrenchBalance`). Carried so, a wrench does the same work, so that the power
that the two wrenches give to the links is the power of the joint, and the torque is the same
on both sides (`Joint.power_of_wrenchBalance`).

Key theorems: `Factor.residual_wrenchBalance`, `Joint.power_of_wrenchBalance`.
-/
import Kinodynamics.Proofs.Joint.Frames
import Kinodynamics.Proofs.Motion.Group
import Kinodynamics.Proofs.Algebra.Coordinates

namespace Kinodynamics

/-- **The balance of wrenches has no residual at the reaction of the child wrench**, carried to
the parent, and at no other wrench on the parent. -/
theorem Factor.residual_wrenchBalance (j : Joint ℝ) (q : ℝ) (parent child : Spatial ℝ) :
    ((Factor.wrenchBalance j).linearize? [parent.toList, child.toList, [q]]).map
        Linearization.residual = some (List.replicate 6 0) ↔
      parent = -(j.poseOfOther .parent q).carryWrench child := by
  have hresidual : ((Factor.wrenchBalance j).linearize? [parent.toList, child.toList, [q]]).map
      Linearization.residual =
        some (parent + (j.poseOfOther .parent q).carryWrench child).toList := rfl
  rw [hresidual, Option.some_inj, Spatial.toList_eq_zero_iff, add_eq_zero_iff_eq_neg]

namespace Joint

/-- The wrench on the parent that balances one on the child. -/
noncomputable def reaction (j : Joint ℝ) (q : ℝ) (childWrench : Spatial ℝ) : Spatial ℝ :=
  -(j.poseOfOther .parent q).carryWrench childWrench

variable {j : Joint ℝ}

theorem reaction_dot (j : Joint ℝ) (q : ℝ) (childWrench twist : Spatial ℝ) :
    (j.reaction q childWrench).dot twist =
      -childWrench.dot ((j.poseOfOther .child q).adjoint.apply twist) := by
  rw [reaction, Spatial.neg_dot, Pose.carryWrench_dot]
  rfl

/-- What the two wrenches do on the links is what the torque does on the joint. -/
theorem power_reaction (j : Joint ℝ) (q qDot : ℝ) (parentTwist childWrench : Spatial ℝ) :
    (j.reaction q childWrench).dot parentTwist +
        childWrench.dot (j.twistFromOther .child q qDot parentTwist) =
      j.torqueOf .child childWrench * qDot := by
  rw [reaction_dot, twistFromOther, Spatial.dot_add, neg_add_cancel_left, Spatial.dot_comm,
    Spatial.scale_dot]
  rfl

/-- The reaction gives the joint the same torque. -/
theorem IsAssembled.torqueOf_reaction (hj : j.IsAssembled) {q : ℝ} (hq : j.IsExactAt q)
    (childWrench : Spatial ℝ) :
    j.torqueOf .parent (j.reaction q childWrench) = j.torqueOf .child childWrench := by
  have haxis : (j.poseOfOther .child q).adjoint.apply (j.screwAxis .parent) = -j.screwAxis .child :=
    hj.adjoint_screwAxis .parent hq
  rw [torqueOf, Spatial.dot_comm, reaction_dot, haxis, Spatial.dot_comm, Spatial.neg_dot, neg_neg,
    torqueOf]

/-- **A joint transmits power exactly.** The balance of wrenches has no residual at just one
wrench on the parent, the reaction of the child wrench carried to the parent. The power that
the two wrenches give to the links is the torque times the rate of the joint, and the torque
is the same on whichever side it is measured. -/
theorem power_of_wrenchBalance (hj : j.IsAssembled) (q qDot : ℝ)
    (parentTwist childWrench : Spatial ℝ) :
    ∃ parentWrench : Spatial ℝ,
      (∀ wrench : Spatial ℝ, ((Factor.wrenchBalance j).linearize?
        [wrench.toList, childWrench.toList, [q]]).map Linearization.residual =
          some (List.replicate 6 0) ↔ wrench = parentWrench) ∧
      parentWrench.dot parentTwist + childWrench.dot (j.twistFromOther .child q qDot parentTwist) =
        j.torqueOf .child childWrench * qDot ∧
      parentWrench = -(j.poseOfOther .parent q).carryWrench childWrench ∧
      (j.IsExactAt q → j.torqueOf .parent parentWrench = j.torqueOf .child childWrench) :=
  ⟨j.reaction q childWrench, fun wrench => Factor.residual_wrenchBalance j q wrench childWrench,
    j.power_reaction q qDot parentTwist childWrench, rfl,
    fun hq => hj.torqueOf_reaction hq childWrench⟩

/-- A turned hinge. -/
theorem power_hinge : hinge.IsAssembled ∧ hinge.IsExactAt 1 ∧ ∃ parentWrench : Spatial ℝ,
    ((Factor.wrenchBalance hinge).linearize? [parentWrench.toList,
        (⟨⟨0, 0, 1⟩, ⟨1, 0, 0⟩⟩ : Spatial ℝ).toList, [1]]).map Linearization.residual =
          some (List.replicate 6 0) ∧
      hinge.torqueOf .parent parentWrench = hinge.torqueOf .child ⟨⟨0, 0, 1⟩, ⟨1, 0, 0⟩⟩ := by
  obtain ⟨parentWrench, hresidual, -, -, htorque⟩ :=
    power_of_wrenchBalance isAssembled_hinge 1 2 ⟨⟨1, 0, 0⟩, ⟨0, 1, 0⟩⟩ ⟨⟨0, 0, 1⟩, ⟨1, 0, 0⟩⟩
  exact ⟨isAssembled_hinge, isExactAt_hinge, parentWrench, (hresidual parentWrench).mpr rfl,
    htorque isExactAt_hinge⟩

end Joint
end Kinodynamics
