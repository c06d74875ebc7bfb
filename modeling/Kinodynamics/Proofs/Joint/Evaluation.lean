/-
# What can fail in the relations of a joint

The relations of a joint between two links are typed: each one is on distinct variables of the
kinds that its factor takes (`Joint.isTyped_of_mem_allFamilies`). Their cost and their
linearisation therefore fail only where the store does not supply a variable, both at the first one,
and otherwise the system has one equation for each relation (`Joint.evaluation_agrees`).

Key theorems: `Joint.isTyped_of_mem_allFamilies`, `Joint.evaluation_agrees`.
-/
import Kinodynamics.Proofs.Evaluation
import Kinodynamics.Proofs.Joint.State

namespace Kinodynamics

theorem Values.Holds.supplies {values : Values ℝ} {keys : List Key} (h : values.Holds keys) :
    values.Supplies keys := fun key hkey => by
  obtain ⟨value, hvalue, hkind, -⟩ := h key hkey
  exact ⟨value, hvalue, hkind⟩

namespace Joint

/-- **The relations of a joint are typed** if its links are two. -/
theorem isTyped_of_mem_allFamilies {α : Type} [Scalar α] (plan : RelationPlan α) {j : Joint α}
    (hlinks : j.parent ≠ j.child) (t : ℕ) :
    ∀ r ∈ (plan.allFamilies j t).relations, r.IsTyped := by
  have hdynamics : ∀ r ∈ (plan.wrenchTransmission j t).relations, r.IsTyped := by
    refine List.forall_mem_cons.mpr ⟨⟨.torque j, ?_⟩, List.forall_mem_cons.mpr ⟨⟨.wrenchBalance j, ?_⟩, ?_⟩⟩
    · simp [wrenchKey, torqueKey]
    · simp [wrenchKey, angleKey, link, hlinks]
    · cases plan.plane with
      | none => exact List.forall_mem_nil _
      | some axis => exact List.forall_mem_singleton.mpr ⟨.planar axis, List.nodup_singleton _⟩
  have hlimits : ∀ r ∈ (plan.limitPenalties j t).relations, r.IsTyped := by
    simp only [RelationPlan.limitPenalties, List.map_cons, List.map_nil, List.forall_mem_cons,
      List.not_mem_nil, false_imp_iff, implies_true, and_true]
    exact ⟨⟨.limit _ _, List.nodup_singleton _⟩, ⟨.limit _ _, List.nodup_singleton _⟩,
      ⟨.limit _ _, List.nodup_singleton _⟩, ⟨.limit _ _, List.nodup_singleton _⟩⟩
  refine List.forall_mem_append.mpr ⟨List.forall_mem_singleton.mpr ⟨.pose j, ?_⟩,
    List.forall_mem_append.mpr ⟨List.forall_mem_singleton.mpr ⟨.twist j, ?_⟩,
      List.forall_mem_append.mpr ⟨List.forall_mem_singleton.mpr ⟨.twistAccel j, ?_⟩,
        List.forall_mem_append.mpr ⟨hdynamics, hlimits⟩⟩⟩⟩
  · simp [poseKey, angleKey, link, hlinks]
  · simp [twistKey, angleKey, velocityKey, link, hlinks]
  · simp [twistKey, twistAccelKey, angleKey, velocityKey, accelerationKey, link, hlinks]

/-- **Cost and linearisation of all relations of a joint agree**, and they fail only on the store,
whatever the scalars are. Each succeeds just if every variable has a value of its kind. Otherwise
both report what is wrong with the first variable, in the order of the relations and of their keys.
Where they succeed the system has the relations in order, each as an equation of its shape. Over
the reals it has their cost at the solution that is zero. -/
theorem evaluation_agrees :
    (∀ {α : Type} [Scalar α] (plan : RelationPlan α) (j : Joint α), j.parent ≠ j.child →
      ∀ (t : ℕ) (values : Values α), let s := plan.allFamilies j t
      ((∃ c, s.cost values = .ok c) ↔ values.Supplies s.keys) ∧
      ((∃ system, s.linearize values = .ok system) ↔ values.Supplies s.keys) ∧
      (¬values.Supplies s.keys → ∃ cause,
        values.firstOffence? (s.relations.flatMap Relation.keys) = some cause ∧
        s.cost values = Outcome.fail cause ∧ s.linearize values = Outcome.fail cause) ∧
      ∀ system, s.linearize values = .ok system →
        List.Forall₂ Relation.ShapedAs s.relations system.equations) ∧
    ∀ (plan : RelationPlan ℝ) (j : Joint ℝ) (t : ℕ) (values : Values ℝ), let s := plan.allFamilies j t
      ∀ system, s.linearize values = .ok system → ∀ x : Solution Key ℝ,
        (∀ key ∈ s.keys, x.get? key = some (List.replicate key.dim 0)) →
        ∃ c, s.cost values = .ok c ∧ system.error x = .ok c := by
  refine ⟨fun plan j hlinks t values => ?_, fun plan j t values system hsystem x hx =>
    Objective.error_still hsystem hx⟩
  intro s
  have hs : ∀ r ∈ s.relations, r.IsTyped := isTyped_of_mem_allFamilies plan hlinks t
  have hcost := Objective.decidedBy_cost hs values
  have hlinearize := Objective.decidedBy_linearize hs values
  have hnone : values.firstOffence? (s.relations.flatMap Relation.keys) = none ↔ values.Supplies s.keys :=
    Values.firstOffence?_eq_none_iff.trans Objective.supplies_keys_iff.symm
  refine ⟨hcost.exists_ok_iff.trans hnone, hlinearize.exists_ok_iff.trans hnone, fun hlacks => ?_,
    fun system hsystem => Objective.shapedAs_of_linearize hsystem⟩
  obtain ⟨cause, hcause⟩ := Option.ne_none_iff_exists'.mp (mt hnone.mp hlacks)
  rw [hcause] at hcost hlinearize
  exact ⟨cause, hcause, hcost, hlinearize⟩

/-- The system of a turning hinge has the cost of its relations without a step, and in a store that
is empty the pose of the parent is missing first. -/
theorem evaluation_agrees_turningHinge : hinge.parent ≠ hinge.child ∧
    (∃ system x c, (RelationPlan.standard.allFamilies hinge 0).linearize (turningHinge.store hinge 0) =
        .ok system ∧
      (∀ key ∈ (RelationPlan.standard.allFamilies hinge 0).keys,
        x.get? key = some (List.replicate key.dim 0)) ∧
      (RelationPlan.standard.allFamilies hinge 0).cost (turningHinge.store hinge 0) = .ok c ∧
      system.error x = .ok c) ∧
    (RelationPlan.standard.allFamilies hinge 0).linearize Assignment.empty =
      Outcome.fail (.missingVariable (hinge.poseKey .parent 0)) := by
  have hlinks : hinge.parent ≠ hinge.child := by simp [hinge, assemble]
  have hholds : (turningHinge.store hinge 0).Holds (RelationPlan.standard.allFamilies hinge 0).keys :=
    fun key hkey => isStored_turningHinge.holds Rotation.isUnit_identity
      (isAssembled_hinge.isUnit_poseOfOther .parent 1) key ((mem_keys_iff _).mp hkey)
  obtain ⟨-, hlinearizes, -⟩ := evaluation_agrees.1 .standard hinge hlinks 0 (turningHinge.store hinge 0)
  obtain ⟨system, hsystem⟩ := hlinearizes.mpr hholds.supplies
  obtain ⟨x, hx⟩ := Values.exists_still (RelationPlan.standard.allFamilies hinge 0).keys
  obtain ⟨c, hcost, hstill⟩ :=
    evaluation_agrees.2 .standard hinge 0 (turningHinge.store hinge 0) system hsystem x hx
  obtain ⟨-, -, hfail, -⟩ := evaluation_agrees.1 .standard hinge hlinks 0 Assignment.empty
  have hlacks : ¬Values.Supplies (Assignment.empty : Values ℝ)
      (RelationPlan.standard.allFamilies hinge 0).keys := by
    intro h
    obtain ⟨value, hvalue, -⟩ := h (hinge.poseKey .parent 0)
      ((mem_keys_iff _).mpr List.mem_cons_self)
    cases hvalue
  obtain ⟨cause, hcause, -, hlinearize⟩ := hfail hlacks
  obtain rfl : ModelError.missingVariable (hinge.poseKey .parent 0) = cause := Option.some.inj hcause
  exact ⟨hlinks, ⟨system, x, c, hsystem, hx, hcost, hstill⟩, hlinearize⟩

end Joint
end Kinodynamics
