/-
# The linear families state what the nonlinear ones state

Around known poses that close the loop of a joint the linear equations have, in order, the
residuals of the nonlinear relations, whatever the accelerations, wrenches and torque are
(`Joint.linear_agrees`). The one goes by the poses of the links and the other by the
coordinate of the joint. They meet in the adjoint of the parent seen from the child, which
is the same by both ways (`Joint.State.adjoint_between`); the part of the acceleration that
is moved to the right-hand side and the missing block of a fixed joint make no difference.
The three families that fix the torque for forward dynamics fix it to one number, or not at
all.

Key definitions: `Joint.State.IsKnown`, `Joint.State.IsUnknown`, `Joint.State.IsClosed`,
`LinearEquation.Fixes`, `Relation.Fixes`.
Key theorems: `Joint.State.adjoint_between`, `Joint.linear_agrees`.
-/
import Kinodynamics.Proofs.Joint.Equations
import Kinodynamics.Proofs.Joint.State

namespace Kinodynamics

/-- Poses with one matrix have one adjoint. -/
theorem Pose.adjoint_congr {p q : Pose ℝ} (h : p.matrix = q.matrix) : p.adjoint = q.adjoint := by
  obtain ⟨hrotation, hposition, -⟩ := Homogeneous.mk.inj h
  rw [adjoint, adjoint, hrotation, hposition]

theorem Spatial.ofEntries_valuation {x : Solution Key ℝ} {key : Key} {v : Spatial ℝ}
    (h : x.get? key = some v.toList) : ofEntries (valuation x key) = v := by
  rw [valuation_of_get? h]
  exact ofEntries_entry v

namespace Joint

namespace State

variable {s : State} {j : Joint ℝ} {t : ℕ} {known values : Values ℝ} {x : Solution Key ℝ}

/-- The store has the quantities that linear equations are built around. -/
structure IsKnown (s : State) (j : Joint ℝ) (t : ℕ) (known : Values ℝ) : Prop where
  parentPose : known.pose (j.poseKey .parent t) = .ok s.parentPose
  childPose : known.pose (j.poseKey .child t) = .ok s.childPose
  childTwist : known.spatial (j.twistKey .child t) = .ok s.childTwist
  qDot : known.scalar (j.velocityKey t) = .ok s.qDot

/-- The unknowns of linear equations have values. -/
structure IsUnknown (s : State) (j : Joint ℝ) (t : ℕ) (x : Solution Key ℝ) : Prop where
  parentAccel : x.get? (j.twistAccelKey .parent t) = some s.parentAccel.toList
  childAccel : x.get? (j.twistAccelKey .child t) = some s.childAccel.toList
  qDDot : x.get? (j.accelerationKey t) = some [s.qDDot]
  parentWrench : x.get? (j.wrenchKey .parent t) = some s.parentWrench.toList
  childWrench : x.get? (j.wrenchKey .child t) = some s.childWrench.toList
  torque : x.get? (j.torqueKey t) = some [s.torque]

/-- The poses of the links are rigid motions, and the child is where the parent and the joint
put it. -/
structure IsClosed (s : State) (j : Joint ℝ) : Prop where
  isUnit_parent : s.parentPose.IsUnit
  isUnit_child : s.childPose.IsUnit
  matrix_child : s.childPose.matrix = (s.parentPose.compose (j.poseOfOther .parent s.q)).matrix

/-- The unknowns as a solution. -/
def unknowns (s : State) (j : Joint ℝ) (t : ℕ) : Solution Key ℝ :=
  ⟨[(j.twistAccelKey .parent t, s.parentAccel.toList), (j.twistAccelKey .child t, s.childAccel.toList),
    (j.accelerationKey t, [s.qDDot]), (j.wrenchKey .parent t, s.parentWrench.toList),
    (j.wrenchKey .child t, s.childWrench.toList), (j.torqueKey t, [s.torque])]⟩

/-- Between two links the unknowns are distinct. -/
theorem isUnknown_unknowns (s : State) {j : Joint ℝ} (hne : j.parent ≠ j.child) (t : ℕ) :
    s.IsUnknown j t (s.unknowns j t) := by
  constructor <;>
    simp [unknowns, Assignment.get?_mk_cons, twistAccelKey, wrenchKey, accelerationKey, torqueKey, link,
      hne]

/-- A stored state is known. -/
theorem IsStored.isKnown (h : s.IsStored j t known) : s.IsKnown j t known := by
  constructor
  · rw [Values.pose, Values.lookup, h.parentPose]
    rfl
  · rw [Values.pose, Values.lookup, h.childPose]
    rfl
  · rw [Values.spatial, Values.lookup, h.childTwist]
    rfl
  · rw [Values.scalar, Values.lookup, h.qDot]
    rfl

/-! ### The transform by either way -/

/-- **The parent seen from the child** is the same by the poses of the links and by the joint. -/
theorem adjoint_between (hj : j.IsAssembled) (h : s.IsClosed j) :
    (s.childPose.between s.parentPose).adjoint = (j.poseOfOther .child s.q).adjoint := by
  refine Pose.adjoint_congr ?_
  have hstep : (j.childInParent s.q).IsUnit := hj.isUnit_childInParent s.q
  have hchild : s.childPose.matrix = s.parentPose.matrix * (j.childInParent s.q).matrix := by
    rw [h.matrix_child]
    exact h.isUnit_parent.matrix_compose _
  have hback : (s.childPose.between s.parentPose).matrix * (j.childInParent s.q).matrix = 1 := by
    rw [Pose.between, h.isUnit_child.inverse.matrix_compose, mul_assoc, ← hchild,
      h.isUnit_child.inverse_mul_matrix]
  exact left_inv_eq_right_inv hback hstep.matrix_mul_inverse

theorem IsKnown.knownTransform (h : s.IsKnown j t known) :
    RelationPlan.knownTransform j t known = .ok (s.childPose.between s.parentPose) := by
  rw [RelationPlan.knownTransform, h.parentPose, h.childPose]
  rfl

theorem IsUnknown.exists_value (hx : s.IsUnknown j t x) :
    ∀ key ∈ j.unknownKeys t, ∃ v, x.get? key = some v ∧ v.length = key.dim := by
  intro key hkey
  simp only [unknownKeys, List.mem_cons, List.not_mem_nil, or_false] at hkey
  rcases hkey with rfl | rfl | rfl | rfl | rfl | rfl
  · exact ⟨_, hx.parentAccel, rfl⟩
  · exact ⟨_, hx.childAccel, rfl⟩
  · exact ⟨_, hx.qDDot, rfl⟩
  · exact ⟨_, hx.parentWrench, rfl⟩
  · exact ⟨_, hx.childWrench, rfl⟩
  · exact ⟨_, hx.torque, rfl⟩

/-! ### Misfits of a state -/

theorem accelMisfit_eq (hj : j.IsAssembled) (hclosed : s.IsClosed j) (hx : s.IsUnknown j t x) :
    j.accelMisfit t (s.childPose.between s.parentPose)
      (((s.childTwist.cross.apply (j.screwAxis .child)).scale s.qDot).scale 1) (valuation x) =
        s.accelDifference j := by
  have hrate : valuation x (j.accelerationKey t) 0 = s.qDDot := by
    rw [valuation_of_get? hx.qDDot]
    rfl
  have hdrift : ((s.childTwist.cross.apply (j.screwAxis .child)).scale s.qDot).scale 1 =
      s.childTwist.cross.apply ((j.screwAxis .child).scale s.qDot) := by
    rw [Spatial.scale_one, SpatialMat.apply_scale]
  rw [accelMisfit, Spatial.ofEntries_valuation hx.childAccel,
    Spatial.ofEntries_valuation hx.parentAccel, hrate, hdrift, adjoint_between hj hclosed,
    accelDifference, accelFromOther]
  abel

theorem torqueMisfit_eq (hx : s.IsUnknown j t x) :
    j.torqueMisfit t (valuation x) = s.torqueDifference j := by
  rw [torqueMisfit, Spatial.ofEntries_valuation hx.childWrench, valuation_of_get? hx.torque]
  rfl

theorem wrenchMisfit_eq (hj : j.IsAssembled) (hclosed : s.IsClosed j) (hx : s.IsUnknown j t x) :
    j.wrenchMisfit t (s.childPose.between s.parentPose) (valuation x) = s.wrenchSum j := by
  rw [wrenchMisfit, Spatial.ofEntries_valuation hx.parentWrench,
    Spatial.ofEntries_valuation hx.childWrench, adjoint_between hj hclosed]
  rfl

/-! ### Residuals of the linear families -/

/-- **The equation of accelerations has the residual of the relation.** -/
theorem residual_linearAcceleration (plan : RelationPlan ℝ) (hj : j.IsAssembled)
    (hne : j.parent ≠ j.child) (hknown : s.IsKnown j t known) (hclosed : s.IsClosed j)
    (hx : s.IsUnknown j t x) :
    ∃ system, plan.linearAcceleration j t known = .ok system ∧
      List.Forall₂ (fun e residual => e.residual x = .ok residual) system.equations
        [(s.accelDifference j).toList] := by
  obtain ⟨e, he, hlaw⟩ :=
    plan.exists_linearAcceleration hj hne hknown.knownTransform hknown.childTwist hknown.qDot
  refine ⟨⟨[e]⟩, he, .cons ?_ .nil⟩
  rw [hlaw.residual_eq fun key hkey =>
    hx.exists_value key (j.mem_unknownKeys_of_mem_accelKeys t hkey), accelMisfit_eq hj hclosed hx]

/-- **The equations of the dynamics have the residuals of the relations.** -/
theorem residual_linearDynamics (plan : RelationPlan ℝ) (hj : j.IsAssembled) (hne : j.parent ≠ j.child)
    (hknown : s.IsKnown j t known) (hclosed : s.IsClosed j) (hx : s.IsUnknown j t x) :
    ∃ system, plan.linearDynamics j t known = .ok system ∧
      List.Forall₂ (fun e residual => e.residual x = .ok residual) system.equations
        (s.dynamicsResiduals j plan.plane) := by
  obtain ⟨transmission, balance, restrictions, hsystem, htorque, hwrench, hplane⟩ :=
    plan.exists_linearDynamics hne hknown.knownTransform
  have hvalue := hx.exists_value
  simp only [unknownKeys, List.forall_mem_cons] at hvalue
  obtain ⟨-, -, -, hparent, hchild, htau, -⟩ := hvalue
  refine ⟨_, hsystem, List.rel_append (.cons ?_ (.cons ?_ .nil)) ?_⟩
  · rw [htorque.residual_eq (List.forall_mem_cons.mpr ⟨hchild, List.forall_mem_singleton.mpr htau⟩),
      torqueMisfit_eq hx]
  · rw [hwrench.residual_eq (List.forall_mem_cons.mpr ⟨hparent, List.forall_mem_singleton.mpr hchild⟩),
      wrenchMisfit_eq hj hclosed hx]
  · rw [List.forall₂_map_right_iff]
    refine hplane.flip.imp fun e axis hlaw => ?_
    show e.residual x = .ok (s.outOfPlane axis)
    rw [hlaw.residual_eq (List.forall_mem_singleton.mpr hchild),
      Spatial.ofEntries_valuation hx.childWrench]
    rfl

end State

/-! ### Fixed torques -/

end Joint

/-- The equation says, exactly and about one variable only, that it is a number. -/
def LinearEquation.Fixes (e : LinearEquation Key ℝ) (key : Key) (target : ℝ) : Prop :=
  e.isHard = true ∧ e.keys = [key] ∧
    ∀ (x : Solution Key ℝ) (v : ℝ), x.get? key = some [v] → e.residual x = .ok [v - target]

/-- The relation says, exactly and about one variable only, that it is a number. -/
def Relation.Fixes (r : Relation ℝ) (key : Key) (target : ℝ) : Prop :=
  r.noise.isHard = true ∧ r.keys = [key] ∧
    ∀ (values : Values ℝ) (v : ℝ), values.get? key = some (.scalar v) → r.HasResidual values [v - target]

namespace RelationPlan

variable (plan : RelationPlan ℝ) (j : Joint ℝ) (t : ℕ) {known : Values ℝ}

theorem exists_fixTorque (target : Option ℝ) : ∃ system, fixTorque j t target = .ok system ∧
    List.Forall₂ (fun e v => e.Fixes (j.torqueKey t) v) system.equations target.toList := by
  cases target with
  | none => exact ⟨.empty, rfl, .nil⟩
  | some torque =>
    obtain ⟨e, he, hlaw⟩ := exists_fixValue (j.torqueKey t) [torque] rfl
    replace he : exactEquation [(j.torqueKey t, Dense.identity 1)] [torque] = .ok e := he
    refine ⟨⟨[e]⟩, by rw [fixTorque, he]; rfl, .cons ⟨hlaw.isHard, hlaw.keys, fun x v hv => ?_⟩ .nil⟩
    rw [hlaw.residual_eq (List.forall_mem_singleton.mpr ⟨_, hv, rfl⟩), valuation_of_get? hv]
    simp only [one_mul]
    rfl

theorem exists_fixedTorque {target : Option ℝ} (h : knownTorque j t known = .ok target) :
    ∃ objective, plan.fixedTorque j t known = .ok objective ∧
      List.Forall₂ (fun r v => r.Fixes (j.torqueKey t) v) objective.relations target.toList := by
  rw [fixedTorque, h]
  cases target with
  | none => exact ⟨.empty, rfl, .nil⟩
  | some torque =>
    refine ⟨_, rfl, .cons ⟨rfl, rfl, fun values v hv => ?_⟩ .nil⟩
    exact Relation.hasResidual_of_parameters (.cons (Values.parameters_eq hv rfl) .nil) rfl

/-- The two ways to give torques are one. -/
theorem linearFixedTorqueOf_eq {torques : List (String × ℝ)} {target : Option ℝ}
    (h : knownTorque j t known = .ok target)
    (htorques : j.params.effort = .actuated → torques.lookup j.name = target) :
    plan.linearFixedTorqueOf j t torques = fixTorque j t target := by
  rw [knownTorque] at h
  rw [linearFixedTorqueOf]
  cases heffort : j.params.effort with
  | actuated =>
    rw [heffort] at h
    cases hstored : known.scalar (j.torqueKey t) with
    | error e =>
      rw [hstored] at h
      cases h
    | ok torque =>
      rw [hstored] at h
      cases h
      simp only [htorques heffort]
  | unactuated =>
    rw [heffort] at h
    cases h
    rfl
  | fixed =>
    rw [heffort] at h
    cases h
    rfl

/-- A torque is known unless the joint is held. -/
theorem exists_knownTorque {torques : List (String × ℝ)}
    (h : j.params.effort = .actuated → ∃ torque, known.scalar (j.torqueKey t) = .ok torque ∧
      torques.lookup j.name = some torque) :
    ∃ target, knownTorque j t known = .ok target ∧ (target = none ↔ j.params.effort = .fixed) ∧
      (j.params.effort = .actuated → torques.lookup j.name = target) := by
  rw [knownTorque]
  cases heffort : j.params.effort with
  | actuated =>
    obtain ⟨torque, hstored, hlookup⟩ := h heffort
    exact ⟨some torque, by rw [hstored]; rfl, by simp, fun _ => hlookup⟩
  | unactuated => exact ⟨some 0, rfl, by simp, nofun⟩
  | fixed => exact ⟨none, rfl, by simp, nofun⟩

end RelationPlan

/-! ### Agreement -/

/-- The linear equation has the residual of the nonlinear relation. -/
def LinearEquation.AgreesWith (e : LinearEquation Key ℝ) (x : Solution Key ℝ) (r : Relation ℝ)
    (values : Values ℝ) : Prop :=
  ∃ residual, e.residual x = .ok residual ∧ r.HasResidual values residual

theorem LinearEquation.forall₂_agreesWith {equations : List (LinearEquation Key ℝ)}
    {relations : List (Relation ℝ)} {residuals : List (List ℝ)} {x : Solution Key ℝ} {values : Values ℝ}
    (he : List.Forall₂ (fun e residual => e.residual x = .ok residual) equations residuals)
    (hr : List.Forall₂ (fun r residual => r.HasResidual values residual) relations residuals) :
    List.Forall₂ (fun e r => e.AgreesWith x r values) equations relations := by
  induction he generalizing relations with
  | nil =>
    cases hr
    exact .nil
  | cons hresidual _ ih =>
    cases hr with
    | cons hsame hrest => exact .cons ⟨_, hresidual, hsame⟩ (ih hrest)

namespace Joint

/-- **The linear families agree with the nonlinear ones.** Around known poses that close the
loop, for all values of the unknowns, the equations of accelerations and of the dynamics have,
in order, the residuals of the nonlinear relations. The families that fix the torque fix it to
one number, none of them if the joint is held. -/
theorem linear_agrees {j : Joint ℝ} (hj : j.IsAssembled) (hne : j.parent ≠ j.child)
    (plan : RelationPlan ℝ) {t : ℕ} {s : State} {known values : Values ℝ} {x : Solution Key ℝ}
    (hclosed : s.IsClosed j) (hknown : s.IsKnown j t known) (hvalues : s.IsStored j t values)
    (hx : s.IsUnknown j t x) {torques : List (String × ℝ)}
    (htorques : j.params.effort = .actuated → ∃ torque,
      known.scalar (j.torqueKey t) = .ok torque ∧ torques.lookup j.name = some torque) :
    (∃ system, plan.linearAcceleration j t known = .ok system ∧
      List.Forall₂ (fun e r => e.AgreesWith x r values) system.equations
        (plan.accelComposition j t).relations) ∧
    (∃ system, plan.linearDynamics j t known = .ok system ∧
      List.Forall₂ (fun e r => e.AgreesWith x r values) system.equations
        (plan.wrenchTransmission j t).relations) ∧
    ∃ (target : Option ℝ) (system : LinearSystem Key ℝ) (objective : Objective ℝ),
      RelationPlan.knownTorque j t known = .ok target ∧ (target = none ↔ j.params.effort = .fixed) ∧
      plan.linearFixedTorque j t known = .ok system ∧
      plan.linearFixedTorqueOf j t torques = .ok system ∧
      plan.fixedTorque j t known = .ok objective ∧
      List.Forall₂ (fun e v => e.Fixes (j.torqueKey t) v) system.equations target.toList ∧
      List.Forall₂ (fun r v => r.Fixes (j.torqueKey t) v) objective.relations target.toList := by
  refine ⟨?_, ?_, ?_⟩
  · obtain ⟨system, hsystem, hresiduals⟩ :=
      State.residual_linearAcceleration plan hj hne hknown hclosed hx
    exact ⟨system, hsystem,
      LinearEquation.forall₂_agreesWith hresiduals (hvalues.hasResidual_accel plan)⟩
  · obtain ⟨system, hsystem, hresiduals⟩ := State.residual_linearDynamics plan hj hne hknown hclosed hx
    exact ⟨system, hsystem,
      LinearEquation.forall₂_agreesWith hresiduals (hvalues.hasResidual_dynamics plan)⟩
  · obtain ⟨target, htarget, hfixed, hlookup⟩ := RelationPlan.exists_knownTorque j t htorques
    obtain ⟨system, hsystem, hequations⟩ := RelationPlan.exists_fixTorque j t target
    obtain ⟨objective, hobjective, hrelations⟩ := plan.exists_fixedTorque j t htarget
    refine ⟨target, system, objective, htarget, hfixed, ?_, ?_, hobjective, hequations, hrelations⟩
    · rw [RelationPlan.linearFixedTorque, htarget]
      exact hsystem
    · rw [plan.linearFixedTorqueOf_eq j t htarget hlookup, hsystem]

theorem isClosed_turningHinge : turningHinge.IsClosed hinge where
  isUnit_parent := Rotation.isUnit_identity
  isUnit_child := isAssembled_hinge.isUnit_poseOfOther .parent 1
  matrix_child := by
    have hunit : turningHinge.parentPose.IsUnit := Rotation.isUnit_identity
    rw [hunit.matrix_compose]
    show _ = Pose.identity.matrix * _
    rw [Pose.matrix_identity, one_mul]
    rfl

/-- A turning hinge, all of whose variables are stored. -/
theorem linear_agrees_turningHinge : hinge.IsAssembled ∧ hinge.parent ≠ hinge.child ∧
    turningHinge.IsClosed hinge ∧ turningHinge.IsKnown hinge 0 (turningHinge.store hinge 0) ∧
    turningHinge.IsUnknown hinge 0 (turningHinge.unknowns hinge 0) ∧
    ∃ system, RelationPlan.standard.linearAcceleration hinge 0 (turningHinge.store hinge 0) = .ok system ∧
      List.Forall₂ (fun e r => e.AgreesWith (turningHinge.unknowns hinge 0) r (turningHinge.store hinge 0))
        system.equations (RelationPlan.standard.accelComposition hinge 0).relations := by
  have hne : hinge.parent ≠ hinge.child := by simp [hinge, assemble]
  have htorque : (turningHinge.store hinge 0).scalar (hinge.torqueKey 0) = .ok 2.5 := by
    rw [Values.scalar, Values.lookup, isStored_turningHinge.torque]
    rfl
  have htorques : hinge.params.effort = .actuated → ∃ torque,
      (turningHinge.store hinge 0).scalar (hinge.torqueKey 0) = .ok torque ∧
        [("hinge", (2.5 : ℝ))].lookup hinge.name = some torque := fun _ => ⟨2.5, htorque, rfl⟩
  have hknown := isStored_turningHinge.isKnown
  have hunknown := turningHinge.isUnknown_unknowns hne 0
  exact ⟨isAssembled_hinge, hne, isClosed_turningHinge, hknown, hunknown,
    (linear_agrees isAssembled_hinge hne .standard isClosed_turningHinge hknown isStored_turningHinge
      hunknown htorques).1⟩

end Joint
end Kinodynamics
