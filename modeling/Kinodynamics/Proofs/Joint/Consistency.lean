/-
# Zero cost is consistency

The cost of all relations of a joint is zero at the states in which the joint moves as it
can, its wrenches balance and no limit is passed, and at no others
(`Joint.cost_eq_zero_iff_isConsistent`). The cost is zero where all residuals are. Each of
them is zero where one variable is what the joint makes of the others; for the poses that is
an equality of matrices, since the logarithm does not see the sign of a quaternion.

Key definitions: `Bounds.Admits`, `Joint.State.IsConsistent`.
Key theorems: `Joint.State.residuals_eq_zero_iff`, `Joint.cost_eq_zero_iff_isConsistent`.
-/
import Kinodynamics.Proofs.Joint.State

namespace Kinodynamics

/-- The number is between the bounds, and not in the band at either of them. -/
def Bounds.Admits (l : Bounds ℝ) (x : ℝ) : Prop :=
  l.lower + l.threshold ≤ x ∧ x ≤ l.upper - l.threshold

/-- A limit is met where its penalty is zero. -/
theorem Factor.limitResidual_eq_zero_iff {lower upper x : ℝ} :
    limitResidual lower upper x = 0 ↔ lower ≤ x ∧ x ≤ upper := by
  unfold limitResidual
  split_ifs with hlower hupper
  · exact iff_of_false (sub_pos.mpr hlower).ne' fun h => absurd h.1 (not_le.mpr hlower)
  · exact iff_of_false (sub_pos.mpr hupper).ne' fun h => absurd h.2 (not_le.mpr hupper)
  · exact iff_of_true rfl ⟨not_lt.mp hlower, not_lt.mp hupper⟩

namespace Joint

/-! ### Consistent states -/

/-- The joint can be in the state. -/
structure State.IsConsistent (s : State) (j : Joint ℝ) (plane : Option PlaneNormal) : Prop where
  pose : s.childPose.matrix = (s.parentPose.compose (j.poseOfOther .parent s.q)).matrix
  twist : s.childTwist = j.twistFromOther .child s.q s.qDot s.parentTwist
  accel : s.childAccel = j.accelFromOther .child s.q s.qDot s.qDDot s.childTwist s.parentAccel
  torque : s.torque = j.torqueOf .child s.childWrench
  wrench : s.parentWrench = -(j.poseOfOther .parent s.q).carryWrench s.childWrench
  /-- The child wrench stays in the plane. -/
  plane : ∀ axis ∈ plane, ∀ i ∈ axis.components, s.childWrench.toList.getD i 0 = 0
  angleLimit : j.params.angle.Admits s.q
  velocityLimit : j.params.velocity.Admits s.qDot
  accelerationLimit : j.params.acceleration.Admits s.qDDot
  torqueLimit : j.params.torque.Admits s.torque

variable {j : Joint ℝ} {s : State}

/-! ### Residuals that are zero -/

theorem State.poseDifference_eq_zero_iff (hj : j.IsAssembled) (hparent : s.parentPose.IsUnit)
    (hchild : s.childPose.IsUnit) : s.poseDifference j = 0 ↔
      s.childPose.matrix = (s.parentPose.compose (j.poseOfOther .parent s.q)).matrix :=
  hchild.log_between_eq_zero_iff (hparent.compose (hj.isUnit_poseOfOther .parent s.q))

theorem State.dynamicsResiduals_eq_zero_iff (s : State) (j : Joint ℝ) (plane : Option PlaneNormal) :
    (∀ residual ∈ s.dynamicsResiduals j plane, ∀ x ∈ residual, x = 0) ↔
      s.torque = j.torqueOf .child s.childWrench ∧
      s.parentWrench = -(j.poseOfOther .parent s.q).carryWrench s.childWrench ∧
      ∀ axis ∈ plane, ∀ i ∈ axis.components, s.childWrench.toList.getD i 0 = 0 := by
  have htorque : s.torqueDifference j = 0 ↔ s.torque = j.torqueOf .child s.childWrench := by
    rw [torqueDifference, sub_eq_zero, eq_comm]
  have hplane : (∀ residual ∈ plane.toList.map s.outOfPlane, ∀ x ∈ residual, x = 0) ↔
      ∀ axis ∈ plane, ∀ i ∈ axis.components, s.childWrench.toList.getD i 0 = 0 := by
    simp only [List.forall_mem_map, outOfPlane, Option.mem_toList, Option.mem_def]
  rw [dynamicsResiduals, List.forall_mem_append, List.forall_mem_cons, List.forall_mem_singleton,
    List.forall_mem_singleton, Spatial.forall_mem_toList_iff, htorque, hplane, wrenchSum,
    add_eq_zero_iff_eq_neg, and_assoc]

theorem State.limitResiduals_eq_zero_iff (s : State) (j : Joint ℝ) :
    (∀ residual ∈ s.limitResiduals j, ∀ x ∈ residual, x = 0) ↔
      j.params.angle.Admits s.q ∧ j.params.velocity.Admits s.qDot ∧
      j.params.acceleration.Admits s.qDDot ∧ j.params.torque.Admits s.torque := by
  simp only [limitResiduals, List.map_cons, List.map_nil, List.forall_mem_cons, List.not_mem_nil,
    false_imp_iff, implies_true, and_true, Factor.limitResidual_eq_zero_iff, Bounds.Admits]

/-- **All residuals of a joint are zero at its consistent states.** -/
theorem State.residuals_eq_zero_iff (hj : j.IsAssembled) (hparent : s.parentPose.IsUnit)
    (hchild : s.childPose.IsUnit) (plane : Option PlaneNormal) :
    (∀ residual ∈ s.residuals j plane, ∀ x ∈ residual, x = 0) ↔ s.IsConsistent j plane := by
  rw [residuals, List.forall_mem_append, List.forall_mem_append, List.forall_mem_cons,
    List.forall_mem_cons, List.forall_mem_singleton, Spatial.forall_mem_toList_iff,
    Spatial.forall_mem_toList_iff, Spatial.forall_mem_toList_iff,
    s.dynamicsResiduals_eq_zero_iff, s.limitResiduals_eq_zero_iff,
    poseDifference_eq_zero_iff hj hparent hchild, twistDifference, accelDifference, sub_eq_zero,
    sub_eq_zero]
  constructor
  · rintro ⟨⟨hpose, htwist, haccel⟩, ⟨htorque, hwrench, hplane⟩, hq, hqDot, hqDDot, hlimit⟩
    exact ⟨hpose, htwist, haccel, htorque, hwrench, hplane, hq, hqDot, hqDDot, hlimit⟩
  · rintro ⟨hpose, htwist, haccel, htorque, hwrench, hplane, hq, hqDot, hqDDot, hlimit⟩
    exact ⟨⟨hpose, htwist, haccel⟩, ⟨htorque, hwrench, hplane⟩, hq, hqDot, hqDDot, hlimit⟩

/-! ### Cost -/

/-- Deviations that are not zero give weights that are not zero. -/
theorem weighs_of_mem_allFamilies {plan : RelationPlan ℝ}
    (hplan : ∀ sigma ∈ plan.settings.toList, sigma ≠ 0) (j : Joint ℝ) (t : ℕ) :
    ∀ r ∈ (plan.allFamilies j t).relations, r.noise.Weighs := by
  obtain ⟨hpose, htwist, hwrench, htorque, hlimit⟩ := List.forall_iff_forall_mem.mpr hplan
  have hdynamics : ∀ r ∈ (plan.wrenchTransmission j t).relations, r.noise.Weighs := by
    refine List.forall_mem_cons.mpr ⟨Noise.weighs_isotropic htorque,
      List.forall_mem_cons.mpr ⟨Noise.weighs_isotropic hwrench, ?_⟩⟩
    cases plan.plane with
    | none => exact List.forall_mem_nil _
    | some axis => exact List.forall_mem_singleton.mpr (Noise.weighs_isotropic hwrench)
  have hlimits : ∀ r ∈ (plan.limitPenalties j t).relations, r.noise.Weighs :=
    List.forall_mem_map.mpr fun _ _ => Noise.weighs_isotropic hlimit
  exact List.forall_mem_append.mpr ⟨List.forall_mem_singleton.mpr (Noise.weighs_isotropic hpose),
    List.forall_mem_append.mpr ⟨List.forall_mem_singleton.mpr (Noise.weighs_isotropic htwist),
      List.forall_mem_append.mpr ⟨List.forall_mem_singleton.mpr (Noise.weighs_constrained 6),
        List.forall_mem_append.mpr ⟨hdynamics, hlimits⟩⟩⟩⟩

/-- **The cost of a joint is zero at its consistent states and at no others.** A store that has
values of the right kinds for the variables of the relations, with poses that are rigid
motions, holds a state of the joint and has a cost. -/
theorem cost_eq_zero_iff_isConsistent (hj : j.IsAssembled) {plan : RelationPlan ℝ}
    (hplan : ∀ sigma ∈ plan.settings.toList, sigma ≠ 0) (t : ℕ) {values : Values ℝ}
    (hvalues : values.Holds (plan.allFamilies j t).keys) :
    ∃ s : State, s.IsStored j t values ∧ ∃ cost, (plan.allFamilies j t).cost values = .ok cost ∧
      (cost = 0 ↔ s.IsConsistent j plan.plane) := by
  have hholds : values.Holds (j.stateKeys t) := fun key hkey => hvalues key ((mem_keys_iff plan).mpr hkey)
  obtain ⟨s, hs, hparent, hchild⟩ := exists_isStored hholds
  obtain ⟨cost, hcost, hzero⟩ := Objective.exists_cost (hs.hasResidual_all plan hparent hchild)
    (weighs_of_mem_allFamilies hplan j t)
  exact ⟨s, hs, cost, hcost, hzero.trans (State.residuals_eq_zero_iff hj hparent hchild plan.plane)⟩

/-- A turning hinge, with the standard deviations. -/
theorem cost_turningHinge : hinge.IsAssembled ∧
    (∀ sigma ∈ (RelationPlan.standard : RelationPlan ℝ).settings.toList, sigma ≠ 0) ∧
    (turningHinge.store hinge 0).Holds (RelationPlan.standard.allFamilies hinge 0).keys ∧
    ∃ s : State, s.IsStored hinge 0 (turningHinge.store hinge 0) ∧
      ∃ cost, (RelationPlan.standard.allFamilies hinge 0).cost (turningHinge.store hinge 0) = .ok cost ∧
        (cost = 0 ↔ s.IsConsistent hinge none) := by
  have hplan : ∀ sigma ∈ (RelationPlan.standard : RelationPlan ℝ).settings.toList, sigma ≠ 0 := by
    norm_num [RelationPlan.standard, NoiseSettings.standard, NoiseSettings.toList]
  have hholds : (turningHinge.store hinge 0).Holds (RelationPlan.standard.allFamilies hinge 0).keys :=
    fun key hkey => isStored_turningHinge.holds Rotation.isUnit_identity
      (isAssembled_hinge.isUnit_poseOfOther .parent 1) key ((mem_keys_iff _).mp hkey)
  exact ⟨isAssembled_hinge, hplan, hholds,
    cost_eq_zero_iff_isConsistent isAssembled_hinge hplan 0 hholds⟩

end Joint
end Kinodynamics
