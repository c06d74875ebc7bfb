/-
# The state of a joint

A joint has twelve variables at one time. A store that has values of the right kinds for the
variables of a joint's relations holds a state of the joint, and the residuals of the
relations are differences between quantities of the state: what one variable is against what
the joint makes of the others.

Key definitions: `Joint.State`, `Joint.State.IsStored`, `Joint.State.residuals`.
Key theorems: `Joint.exists_isStored`, `Joint.State.IsStored.hasResidual_accel`,
`Joint.State.IsStored.hasResidual_dynamics`, `Joint.State.IsStored.hasResidual_all`.
-/
import Kinodynamics.Proofs.Joint.Frames
import Kinodynamics.Proofs.Algebra.Coordinates
import Kinodynamics.Proofs.Motion.Logarithm
import Kinodynamics.Proofs.Elimination.Run
import Kinodynamics.Proofs.Objective
import Kinodynamics.Joint.Relations

namespace Kinodynamics
namespace Joint

/-- What the variables of a joint are at one time. -/
structure State where
  parentPose : Pose ℝ
  childPose : Pose ℝ
  parentTwist : Spatial ℝ
  childTwist : Spatial ℝ
  parentAccel : Spatial ℝ
  childAccel : Spatial ℝ
  parentWrench : Spatial ℝ
  childWrench : Spatial ℝ
  q : ℝ
  qDot : ℝ
  qDDot : ℝ
  torque : ℝ

namespace State

/-- The store holds the state. -/
structure IsStored (s : State) (j : Joint ℝ) (t : ℕ) (values : Values ℝ) : Prop where
  parentPose : values.get? (j.poseKey .parent t) = some (.pose s.parentPose)
  childPose : values.get? (j.poseKey .child t) = some (.pose s.childPose)
  parentTwist : values.get? (j.twistKey .parent t) = some (.spatial s.parentTwist)
  childTwist : values.get? (j.twistKey .child t) = some (.spatial s.childTwist)
  parentAccel : values.get? (j.twistAccelKey .parent t) = some (.spatial s.parentAccel)
  childAccel : values.get? (j.twistAccelKey .child t) = some (.spatial s.childAccel)
  parentWrench : values.get? (j.wrenchKey .parent t) = some (.spatial s.parentWrench)
  childWrench : values.get? (j.wrenchKey .child t) = some (.spatial s.childWrench)
  q : values.get? (j.angleKey t) = some (.scalar s.q)
  qDot : values.get? (j.velocityKey t) = some (.scalar s.qDot)
  qDDot : values.get? (j.accelerationKey t) = some (.scalar s.qDDot)
  torque : values.get? (j.torqueKey t) = some (.scalar s.torque)

/-! ### Differences -/

variable (s : State) (j : Joint ℝ)

/-- How far the child is from where the parent and the joint put it. -/
noncomputable def poseDifference : Spatial ℝ :=
  (s.childPose.between (s.parentPose.compose (j.poseOfOther .parent s.q))).log

noncomputable def twistDifference : Spatial ℝ :=
  s.childTwist - j.twistFromOther .child s.q s.qDot s.parentTwist

noncomputable def accelDifference : Spatial ℝ :=
  s.childAccel - j.accelFromOther .child s.q s.qDot s.qDDot s.childTwist s.parentAccel

noncomputable def torqueDifference : ℝ := j.torqueOf .child s.childWrench - s.torque

/-- The sum of the parent wrench and the child wrench carried to the parent. -/
noncomputable def wrenchSum : Spatial ℝ :=
  s.parentWrench + (j.poseOfOther .parent s.q).carryWrench s.childWrench

/-- The components of the child wrench that do not lie in the plane. -/
def outOfPlane (axis : PlaneNormal) : List ℝ :=
  axis.components.map fun i => s.childWrench.toList.getD i 0

/-- The residuals of the dynamics. -/
noncomputable def dynamicsResiduals (plane : Option PlaneNormal) : List (List ℝ) :=
  [[s.torqueDifference j], (s.wrenchSum j).toList] ++ plane.toList.map s.outOfPlane

/-- How far the coordinate, its rates and the torque are outside their limits. -/
noncomputable def limitResiduals : List (List ℝ) :=
  [(s.q, j.params.angle), (s.qDot, j.params.velocity), (s.qDDot, j.params.acceleration),
    (s.torque, j.params.torque)].map
      fun (x, l) => [Factor.limitResidual (l.lower + l.threshold) (l.upper - l.threshold) x]

/-- The residuals of all families. -/
noncomputable def residuals (plane : Option PlaneNormal) : List (List ℝ) :=
  [(s.poseDifference j).toList, (s.twistDifference j).toList, (s.accelDifference j).toList] ++
    (s.dynamicsResiduals j plane ++ s.limitResiduals j)

end State

/-! ### Stored states -/

/-- The variables of the joint. -/
def stateKeys (j : Joint ℝ) (t : ℕ) : List Key :=
  [j.poseKey .parent t, j.poseKey .child t, j.twistKey .parent t, j.twistKey .child t,
    j.twistAccelKey .parent t, j.twistAccelKey .child t, j.wrenchKey .parent t, j.wrenchKey .child t,
    j.angleKey t, j.velocityKey t, j.accelerationKey t, j.torqueKey t]

/-- The relations of a joint read just its variables. -/
theorem mem_keys_iff (plan : RelationPlan ℝ) {j : Joint ℝ} {t : ℕ} {key : Key} :
    key ∈ (plan.allFamilies j t).keys ↔ key ∈ j.stateKeys t := by
  have htotal : ∀ k l : Key, ¬k < l → ¬l < k → k = l := fun _ _ hkl hlk =>
    le_antisymm (not_lt.mp hlk) (not_lt.mp hkl)
  rw [Objective.keys, mem_sortedKeys htotal]
  simp only [stateKeys, RelationPlan.allFamilies, RelationPlan.loopClosure,
    RelationPlan.twistComposition, RelationPlan.accelComposition, RelationPlan.wrenchTransmission,
    RelationPlan.limitPenalties, Objective.append, List.flatMap_append, List.flatMap_cons,
    List.flatMap_nil, List.map_cons, List.map_nil, List.mem_append, List.mem_cons, List.not_mem_nil,
    or_false]
  cases plan.plane with
  | none => grind
  | some axis => grind

/-- A store with values of the right kinds for the variables of a joint holds a state. -/
theorem exists_isStored {j : Joint ℝ} {t : ℕ} {values : Values ℝ} (h : values.Holds (j.stateKeys t)) :
    ∃ s : State, s.IsStored j t values ∧ s.parentPose.IsUnit ∧ s.childPose.IsUnit := by
  have hmem : ∀ i, (hi : i < 12) → (j.stateKeys t)[i] ∈ j.stateKeys t := fun i hi => List.getElem_mem hi
  obtain ⟨parentPose, hparentPose, hparent⟩ := h.exists_pose (hmem 0 (by decide)) rfl
  obtain ⟨childPose, hchildPose, hchild⟩ := h.exists_pose (hmem 1 (by decide)) rfl
  obtain ⟨parentTwist, hparentTwist⟩ := h.exists_spatial (hmem 2 (by decide)) rfl
  obtain ⟨childTwist, hchildTwist⟩ := h.exists_spatial (hmem 3 (by decide)) rfl
  obtain ⟨parentAccel, hparentAccel⟩ := h.exists_spatial (hmem 4 (by decide)) rfl
  obtain ⟨childAccel, hchildAccel⟩ := h.exists_spatial (hmem 5 (by decide)) rfl
  obtain ⟨parentWrench, hparentWrench⟩ := h.exists_spatial (hmem 6 (by decide)) rfl
  obtain ⟨childWrench, hchildWrench⟩ := h.exists_spatial (hmem 7 (by decide)) rfl
  obtain ⟨q, hq⟩ := h.exists_scalar (hmem 8 (by decide)) rfl
  obtain ⟨qDot, hqDot⟩ := h.exists_scalar (hmem 9 (by decide)) rfl
  obtain ⟨qDDot, hqDDot⟩ := h.exists_scalar (hmem 10 (by decide)) rfl
  obtain ⟨torque, htorque⟩ := h.exists_scalar (hmem 11 (by decide)) rfl
  exact ⟨⟨parentPose, childPose, parentTwist, childTwist, parentAccel, childAccel, parentWrench,
    childWrench, q, qDot, qDDot, torque⟩, ⟨hparentPose, hchildPose, hparentTwist, hchildTwist,
      hparentAccel, hchildAccel, hparentWrench, hchildWrench, hq, hqDot, hqDDot, htorque⟩, hparent,
    hchild⟩

namespace State

/-- The state as a store. -/
def store (s : State) (j : Joint ℝ) (t : ℕ) : Values ℝ :=
  ⟨[(j.poseKey .parent t, .pose s.parentPose), (j.poseKey .child t, .pose s.childPose),
    (j.twistKey .parent t, .spatial s.parentTwist), (j.twistKey .child t, .spatial s.childTwist),
    (j.twistAccelKey .parent t, .spatial s.parentAccel), (j.twistAccelKey .child t, .spatial s.childAccel),
    (j.wrenchKey .parent t, .spatial s.parentWrench), (j.wrenchKey .child t, .spatial s.childWrench),
    (j.angleKey t, .scalar s.q), (j.velocityKey t, .scalar s.qDot),
    (j.accelerationKey t, .scalar s.qDDot), (j.torqueKey t, .scalar s.torque)]⟩

/-- Between two links the variables of a joint are distinct. -/
theorem isStored_store (s : State) {j : Joint ℝ} (hne : j.parent ≠ j.child) (t : ℕ) :
    s.IsStored j t (s.store j t) := by
  constructor <;>
    simp [store, Assignment.get?_mk_cons, poseKey, twistKey, twistAccelKey, wrenchKey, angleKey,
      velocityKey, accelerationKey, torqueKey, link, hne]

theorem IsStored.holds {s : State} {j : Joint ℝ} {t : ℕ} {values : Values ℝ} (h : s.IsStored j t values)
    (hparent : s.parentPose.IsUnit) (hchild : s.childPose.IsUnit) : values.Holds (j.stateKeys t) := by
  have hpose : ∀ p : Pose ℝ, p.IsUnit → ∀ p', Value.pose p = .pose p' → p'.IsUnit := by
    rintro p hp _ ⟨⟩
    exact hp
  intro key hkey
  simp only [stateKeys, List.mem_cons, List.not_mem_nil, or_false] at hkey
  rcases hkey with rfl | rfl | rfl | rfl | rfl | rfl | rfl | rfl | rfl | rfl | rfl | rfl
  · exact ⟨_, h.parentPose, rfl, hpose _ hparent⟩
  · exact ⟨_, h.childPose, rfl, hpose _ hchild⟩
  · exact ⟨_, h.parentTwist, rfl, nofun⟩
  · exact ⟨_, h.childTwist, rfl, nofun⟩
  · exact ⟨_, h.parentAccel, rfl, nofun⟩
  · exact ⟨_, h.childAccel, rfl, nofun⟩
  · exact ⟨_, h.parentWrench, rfl, nofun⟩
  · exact ⟨_, h.childWrench, rfl, nofun⟩
  · exact ⟨_, h.q, rfl, nofun⟩
  · exact ⟨_, h.qDot, rfl, nofun⟩
  · exact ⟨_, h.qDDot, rfl, nofun⟩
  · exact ⟨_, h.torque, rfl, nofun⟩

end State

namespace State.IsStored

open Kinodynamics.Relation Values

variable {s : State} {j : Joint ℝ} {t : ℕ} {values : Values ℝ} (plan : RelationPlan ℝ)

theorem hasResidual_pose (h : s.IsStored j t values) (hparent : s.parentPose.IsUnit)
    (hchild : s.childPose.IsUnit) :
    List.Forall₂ (fun r residual => r.HasResidual values residual) (plan.loopClosure j t).relations
      [(s.poseDifference j).toList] := by
  refine .cons (hasResidual_of_parameters (.cons (parameters_eq h.parentPose rfl)
    (.cons (parameters_eq h.childPose rfl) (.cons (parameters_eq h.q rfl) .nil))) ?_) .nil
  show ((Pose.ofList? s.parentPose.toList).bind fun parent =>
    (Pose.ofList? s.childPose.toList).bind fun child =>
      some (Factor.linearizePose j parent child s.q)).map Linearization.residual = _
  rw [hparent.ofList?_toList, hchild.ofList?_toList]
  rfl

theorem hasResidual_twist (h : s.IsStored j t values) :
    List.Forall₂ (fun r residual => r.HasResidual values residual) (plan.twistComposition j t).relations
      [(s.twistDifference j).toList] :=
  .cons (hasResidual_of_parameters (.cons (parameters_eq h.parentTwist rfl)
    (.cons (parameters_eq h.childTwist rfl) (.cons (parameters_eq h.q rfl)
      (.cons (parameters_eq h.qDot rfl) .nil)))) rfl) .nil

theorem hasResidual_accel (h : s.IsStored j t values) :
    List.Forall₂ (fun r residual => r.HasResidual values residual) (plan.accelComposition j t).relations
      [(s.accelDifference j).toList] :=
  .cons (hasResidual_of_parameters (.cons (parameters_eq h.childTwist rfl)
    (.cons (parameters_eq h.parentAccel rfl) (.cons (parameters_eq h.childAccel rfl)
      (.cons (parameters_eq h.q rfl) (.cons (parameters_eq h.qDot rfl)
        (.cons (parameters_eq h.qDDot rfl) .nil)))))) rfl) .nil

theorem hasResidual_dynamics (h : s.IsStored j t values) :
    List.Forall₂ (fun r residual => r.HasResidual values residual) (plan.wrenchTransmission j t).relations
      (s.dynamicsResiduals j plan.plane) := by
  have hwrench := parameters_eq h.childWrench rfl
  refine .cons (hasResidual_of_parameters (.cons hwrench (.cons (parameters_eq h.torque rfl) .nil)) rfl)
    (.cons (hasResidual_of_parameters (.cons (parameters_eq h.parentWrench rfl)
      (.cons hwrench (.cons (parameters_eq h.q rfl) .nil))) rfl) ?_)
  cases plan.plane with
  | none => exact .nil
  | some axis =>
    refine .cons (hasResidual_of_parameters (.cons hwrench .nil) ?_) .nil
    exact congrArg some (axis.selection_mulVec s.childWrench)

theorem hasResidual_limits (h : s.IsStored j t values) :
    List.Forall₂ (fun r residual => r.HasResidual values residual) (plan.limitPenalties j t).relations
      (s.limitResiduals j) :=
  .cons (hasResidual_of_parameters (.cons (parameters_eq h.q rfl) .nil) rfl)
    (.cons (hasResidual_of_parameters (.cons (parameters_eq h.qDot rfl) .nil) rfl)
      (.cons (hasResidual_of_parameters (.cons (parameters_eq h.qDDot rfl) .nil) rfl)
        (.cons (hasResidual_of_parameters (.cons (parameters_eq h.torque rfl) .nil) rfl) .nil)))

/-- **The residuals of all relations of a joint** at a stored state. -/
theorem hasResidual_all (h : s.IsStored j t values) (hparent : s.parentPose.IsUnit)
    (hchild : s.childPose.IsUnit) :
    List.Forall₂ (fun r residual => r.HasResidual values residual) (plan.allFamilies j t).relations
      (s.residuals j plan.plane) :=
  List.rel_append (h.hasResidual_pose plan hparent hchild) <|
    List.rel_append (h.hasResidual_twist plan) <| List.rel_append (h.hasResidual_accel plan) <|
      List.rel_append (h.hasResidual_dynamics plan) (h.hasResidual_limits plan)

end State.IsStored

/-! ### A hinge -/

/-- A hinge that turns, with its parent at the origin. -/
noncomputable def turningHinge : State where
  parentPose := .identity
  childPose := hinge.poseOfOther .parent 1
  parentTwist := ⟨⟨1, 0, 0⟩, ⟨0, 1, 0⟩⟩
  childTwist := ⟨⟨0, 1, 0⟩, ⟨0, 0, 1⟩⟩
  parentAccel := ⟨⟨0, 0, 1⟩, ⟨1, 0, 0⟩⟩
  childAccel := ⟨⟨1, 1, 0⟩, ⟨0, 0, 0⟩⟩
  parentWrench := ⟨⟨0, 1, 1⟩, ⟨1, 0, 0⟩⟩
  childWrench := ⟨⟨0, 0, 1⟩, ⟨1, 0, 0⟩⟩
  q := 1
  qDot := 0.5
  qDDot := 1.5
  torque := 2.5

theorem isStored_turningHinge : turningHinge.IsStored hinge 0 (turningHinge.store hinge 0) :=
  turningHinge.isStored_store (by simp [hinge, assemble]) 0

end Joint
end Kinodynamics
