/-
# A driven joint

Fix the acceleration of the parent, that of the joint and the child wrench exactly, next to the
linear equations of the joint. What is left to solve for is what the joint makes of these: the
acceleration of the child, the torque and the parent wrench. Elimination finds it in every order
of the six unknowns (`Joint.driven_solution`), because the equations are well conditioned at
every joint whose links are not too far from one another and whose axis is not too long.

Key definitions: `LinearSystem.States`, `RelationPlan.drivenSystem`, `Joint.State.driven`.
Key theorems: `LinearSystem.States.exists_solve`, `Joint.State.exists_drivenSystem`,
`Joint.driven_solution`.
-/
import Kinodynamics.Proofs.Elimination.HardConditioning
import Kinodynamics.Proofs.Joint.Conditioning
import Kinodynamics.Proofs.Joint.LinearFamilies
import Kinodynamics.Proofs.Joint.OneParameter

namespace Kinodynamics

open Finset Elimination

theorem Key.dim_pos (key : Key) : 0 < key.dim := by
  cases key <;> exact Nat.succ_pos _

theorem normSq_singleton (y : ℝ) : Scalar.normSq [y] = y ^ 2 := by
  rw [Scalar.normSq_eq_sum, List.length_singleton, sum_range_one, List.getD_cons_zero]

/-! ### Systems of laws -/

/-- What an equation is about and what it measures. -/
structure Law where
  keys : List Key
  misfit : ℝ → Valuation Key → List ℝ

/-- The variable has the value. -/
def Law.fix (key : Key) (value : List ℝ) : Law where
  keys := [key]
  misfit τ x := (List.range value.length).map fun i => x key i - τ * value.getD i 0

theorem Law.normSq_fix (key : Key) (value : List ℝ) (τ : ℝ) (x : Valuation Key) :
    Scalar.normSq ((fix key value).misfit τ x) =
      ∑ i ∈ range value.length, (x key i - τ * value.getD i 0) ^ 2 := by
  rw [Scalar.normSq_eq_sum, fix, List.length_map, List.length_range]
  exact sum_congr rfl fun i hi => by rw [getD_map_range _ (mem_range.mp hi)]

namespace LinearSystem

/-- The equations of the system are, in order, equations of the laws. -/
def States (s : LinearSystem Key ℝ) (laws : List Law) : Prop :=
  List.Forall₂ (fun e l => e.IsLaw l.keys l.misfit) s.equations laws

namespace States

variable {s : LinearSystem Key ℝ} {laws : List Law}

theorem exists_isLaw (h : s.States laws) {e : LinearEquation Key ℝ} (he : e ∈ s.equations) :
    ∃ l ∈ laws, e.IsLaw l.keys l.misfit := by
  obtain ⟨equations⟩ := s
  replace h : List.Forall₂ _ equations laws := h
  induction h with
  | nil => cases he
  | cons hlaw _ ih =>
    rcases List.mem_cons.mp he with rfl | he
    · exact ⟨_, List.mem_cons_self, hlaw⟩
    · obtain ⟨l, hl, hlaw⟩ := ih he
      exact ⟨l, List.mem_cons_of_mem _ hl, hlaw⟩

theorem map_eq (h : s.States laws) {β : Type} {f : LinearEquation Key ℝ → β} {g : Law → β}
    (hfg : ∀ e l, e.IsLaw l.keys l.misfit → f e = g l) : s.equations.map f = laws.map g := by
  rw [← List.forall₂_eq_eq_eq, List.forall₂_map_left_iff, List.forall₂_map_right_iff]
  exact h.imp hfg

/-- The energy of a system is the squared length of what its equations measure. -/
theorem totalEnergy_eq (h : s.States laws) (τ : ℝ) (x : Valuation Key) :
    totalEnergy s.equations τ x = (laws.map fun l => Scalar.normSq (l.misfit τ x)).sum := by
  rw [totalEnergy, h.map_eq fun _ _ hlaw => hlaw.measures.energy_eq τ x]

theorem mem_keys (h : s.States laws) {key : Key} : key ∈ s.keys ↔ ∃ l ∈ laws, key ∈ l.keys := by
  rw [LinearSystem.mem_keys, List.flatMap_def, h.map_eq fun _ _ hlaw => hlaw.keys, ← List.flatMap_def,
    List.mem_flatMap]

theorem filter_hard (h : s.States laws) : (s.equations.filter fun r => r.isHard) = s.equations :=
  List.filter_eq_self.mpr fun _ he => (h.exists_isLaw he).elim fun _ hl => hl.2.isHard

theorem ncols (h : s.States laws) : ∀ b ∈ s.equations.flatMap LinearEquation.blocks, b.2.ncols = b.1.dim := by
  intro b hb
  obtain ⟨e, he, hb⟩ := List.mem_flatMap.mp hb
  obtain ⟨l, -, hlaw⟩ := h.exists_isLaw he
  exact hlaw.ncols b hb

theorem consistent (h : s.States laws) : s.Consistent := fun b hb b' hb' hkey => by
  rw [h.ncols b hb, h.ncols b' hb', hkey]

theorem dim_eq (h : s.States laws) {key : Key} (hkey : key ∈ s.keys) : s.dim key = key.dim := by
  obtain ⟨w, hw⟩ := exists_widths h.consistent
  obtain ⟨hfit, hdim⟩ := widths_eq_ok hw
  obtain ⟨e, he, hkey⟩ := mem_mentioned.mp (LinearSystem.mem_keys.mp hkey)
  obtain ⟨b, hb, rfl⟩ := mem_keys_iff.mp hkey
  rw [← hdim, hfit.widthOf_eq he hb, h.ncols b (List.mem_flatMap.mpr ⟨e, he, hb⟩)]

/-- **Well-conditioned laws are solved in every order** by the values at which they hold. -/
theorem exists_solve (h : s.States laws) {D : Decompositions ℝ} (hD : D.IsExact)
    (hspectrum : D.HasExactSpectrum) {τ υ : ℝ} (hsep : Separated τ υ) {keys : List Key}
    (hkeys : keys.Perm s.keys) (hstretches : Stretches τ Key.dim keys s.equations)
    (henergy : ∀ x, totalEnergy s.equations 0 x ≤ υ ^ 2 * squaredLength Key.dim keys x)
    {solution : Solution Key ℝ}
    (hvalue : ∀ key ∈ keys, ∃ v, solution.get? key = some v ∧ v.length = key.dim)
    (hholds : totalEnergy s.equations 1 (valuation solution) = 0) {ordering : List Key}
    (hperm : ordering.Perm keys) :
    ∃ net x, eliminate D s ordering = .ok net ∧ net.solve = .ok x ∧
      ∀ key ∈ keys, x.get? key = solution.get? key := by
  obtain ⟨w, hw⟩ := exists_widths h.consistent
  have hlength : ∀ x, squaredLength s.dim s.keys x = squaredLength Key.dim keys x := fun x => by
    rw [squaredLength_perm _ hkeys]
    exact congrArg List.sum (List.map_congr_left fun key hkey => by rw [h.dim_eq hkey])
  have hwell : WellConditioned τ υ s.dim s.keys s.equations := by
    refine ⟨fun x hx => ?_, fun x => ?_⟩
    · rw [hlength] at hx ⊢
      rw [h.filter_hard]
      exact hstretches x hx
    · rw [hlength, h.filter_hard]
      exact henergy x
  have hfits : s.Fits solution := fun key hkey => by
    rw [h.dim_eq hkey]
    exact hvalue key (hkeys.mem_iff.mpr hkey)
  have hsat : s.SatisfiesHard solution := by
    rw [satisfiesHard_iff hw hfits, hardEnergy_prepared, h.filter_hard]
    exact hholds
  have hwide : ∀ key ∈ s.keys, 0 < s.dim key := fun key hkey => by
    rw [h.dim_eq hkey]
    exact key.dim_pos
  obtain ⟨net, x, hnet, hx, hall⟩ := exists_solve_of_wellConditioned hsep hD hspectrum h.consistent
    hwide hwell hfits hsat (hperm.trans hkeys)
  exact ⟨net, x, hnet, hx, fun key hkey => hall key (hkeys.mem_iff.mp hkey)⟩

end States

end LinearSystem

/-! ### The system of a driven joint -/

/-- The equations of accelerations and of the dynamics around known poses, with the acceleration
of the parent, that of the joint and the child wrench fixed. -/
def RelationPlan.drivenSystem {α : Type} [Scalar α] (plan : RelationPlan α) (j : Joint α) (t : ℕ)
    (known : Values α) (parentAccel : Spatial α) (qDDot : α) (childWrench : Spatial α) :
    Except ModelError (LinearSystem Key α) := do
  let accelerations ← plan.linearAcceleration j t known
  let dynamics ← plan.linearDynamics j t known
  let parent ← fixValue (j.twistAccelKey .parent t) parentAccel.toList
  let joint ← fixValue (j.accelerationKey t) [qDDot]
  let child ← fixValue (j.wrenchKey .child t) childWrench.toList
  return (accelerations.append dynamics).append ⟨[parent, joint, child]⟩

namespace Joint

theorem dot_screwAxis_le {j : Joint ℝ} {side : Side} {r : ℝ} (h : (j.screwAxis side).norm ≤ r) :
    (j.screwAxis side).dot (j.screwAxis side) ≤ r ^ 2 := by
  rw [← Spatial.norm_sq]
  exact pow_le_pow_left₀ (Real.sqrt_nonneg _) h 2

namespace State

/-- The state with what the joint makes of the acceleration of the parent, of its own and of the
child wrench. -/
noncomputable def driven (s : State) (j : Joint ℝ) : State :=
  { s with
    childAccel := j.accelFromOther .child s.q s.qDot s.qDDot s.childTwist s.parentAccel
    parentWrench := -(j.poseOfOther .parent s.q).carryWrench s.childWrench
    torque := j.torqueOf .child s.childWrench }

/-- What the equations of a driven joint are about and measure. -/
noncomputable def drivenLaws (s : State) (j : Joint ℝ) (t : ℕ) : List Law :=
  [⟨j.accelKeys t, fun τ x => (j.accelMisfit t (s.childPose.between s.parentPose)
      (((s.childTwist.cross.apply (j.screwAxis .child)).scale s.qDot).scale τ) x).toList⟩,
    ⟨[j.wrenchKey .child t, j.torqueKey t], fun _ x => [j.torqueMisfit t x]⟩,
    ⟨[j.wrenchKey .parent t, j.wrenchKey .child t],
      fun _ x => (j.wrenchMisfit t (s.childPose.between s.parentPose) x).toList⟩,
    .fix (j.twistAccelKey .parent t) s.parentAccel.toList, .fix (j.accelerationKey t) [s.qDDot],
    .fix (j.wrenchKey .child t) s.childWrench.toList]

variable {s : State} {j : Joint ℝ} {t : ℕ} {system : LinearSystem Key ℝ}

/-- **The system of a driven joint** can be set up, and states its laws. -/
theorem exists_drivenSystem (hj : j.IsAssembled) (hne : j.parent ≠ j.child) {plan : RelationPlan ℝ}
    (hplane : plan.plane = none) {known : Values ℝ} (hknown : s.IsKnown j t known) :
    ∃ system, plan.drivenSystem j t known s.parentAccel s.qDDot s.childWrench = .ok system ∧
      system.States (s.drivenLaws j t) := by
  obtain ⟨accel, haccel, haccelLaw⟩ :=
    plan.exists_linearAcceleration hj hne hknown.knownTransform hknown.childTwist hknown.qDot
  obtain ⟨transmission, balance, restrictions, hdynamics, htorque, hwrench, hplanes⟩ :=
    plan.exists_linearDynamics hne hknown.knownTransform
  obtain ⟨parent, hparent, hparentLaw⟩ :=
    RelationPlan.exists_fixValue (j.twistAccelKey .parent t) s.parentAccel.toList rfl
  obtain ⟨joint, hjoint, hjointLaw⟩ := RelationPlan.exists_fixValue (j.accelerationKey t) [s.qDDot] rfl
  obtain ⟨child, hchild, hchildLaw⟩ :=
    RelationPlan.exists_fixValue (j.wrenchKey .child t) s.childWrench.toList rfl
  rw [hplane] at hplanes
  cases hplanes
  refine ⟨⟨[accel, transmission, balance, parent, joint, child]⟩, ?_, .cons haccelLaw <|
    .cons htorque <| .cons hwrench <| .cons hparentLaw <| .cons hjointLaw <| .cons hchildLaw .nil⟩
  rw [RelationPlan.drivenSystem, haccel, hdynamics, hparent, hjoint, hchild]
  rfl

theorem mem_keys_driven (h : system.States (s.drivenLaws j t)) {key : Key} :
    key ∈ system.keys ↔ key ∈ j.unknownKeys t := by
  rw [h.mem_keys]
  simp only [drivenLaws, accelKeys, unknownKeys, Law.fix]
  split_ifs <;> simp <;> tauto

/-- Right-hand sides aside, the equations measure the misfit and the fixed unknowns. -/
theorem totalEnergy_zero_driven (h : system.States (s.drivenLaws j t)) (x : Valuation Key) :
    totalEnergy system.equations 0 x =
      j.misfit t (s.childPose.between s.parentPose) x + j.givenLength t x := by
  have hfix : ∀ (key : Key) (value : List ℝ), Scalar.normSq ((Law.fix key value).misfit 0 x) =
      ∑ i ∈ range value.length, x key i ^ 2 := fun key value => by
    simp only [Law.normSq_fix, zero_mul, sub_zero]
  have hscalar : ∑ i ∈ range [s.qDDot].length, x (j.accelerationKey t) i ^ 2 =
      x (j.accelerationKey t) 0 ^ 2 := sum_range_one _
  have hspatial : ∀ (key : Key) (v : Spatial ℝ), ∑ i ∈ range v.toList.length, x key i ^ 2 =
      (Spatial.ofEntries (x key)).dot (.ofEntries (x key)) := fun key _ =>
    (Spatial.dot_ofEntries_self (x key)).symm
  rw [h.totalEnergy_eq, drivenLaws]
  simp only [List.map_cons, List.map_nil, List.sum_cons, List.sum_nil, Spatial.normSq_toList, hfix,
    normSq_singleton, hscalar, hspatial, Spatial.scale_zero]
  rw [misfit, givenLength]
  ring

/-- The equations hold at the state that follows. -/
theorem totalEnergy_one_driven (hj : j.IsAssembled) (hclosed : s.IsClosed j)
    (h : system.States (s.drivenLaws j t)) {x : Solution Key ℝ} (hx : (s.driven j).IsUnknown j t x) :
    totalEnergy system.equations 1 (valuation x) = 0 := by
  have hdriven : (s.driven j).IsClosed j :=
    ⟨hclosed.isUnit_parent, hclosed.isUnit_child, hclosed.matrix_child⟩
  have haccel : j.accelMisfit t (s.childPose.between s.parentPose)
      (((s.childTwist.cross.apply (j.screwAxis .child)).scale s.qDot).scale 1) (valuation x) = 0 :=
    (accelMisfit_eq hj hdriven hx).trans (sub_self _)
  have htorque : j.torqueMisfit t (valuation x) = 0 := (torqueMisfit_eq hx).trans (sub_self _)
  have hwrench : j.wrenchMisfit t (s.childPose.between s.parentPose) (valuation x) = 0 :=
    (wrenchMisfit_eq hj hdriven hx).trans (neg_add_cancel _)
  have hfix : ∀ (key : Key) (value : List ℝ), x.get? key = some value →
      Scalar.normSq ((Law.fix key value).misfit 1 (valuation x)) = 0 := fun key value hvalue => by
    rw [Law.normSq_fix, valuation_of_get? hvalue]
    exact sum_eq_zero fun i _ => by rw [one_mul, sub_self, zero_pow two_ne_zero]
  have hparent := hfix (j.twistAccelKey .parent t) s.parentAccel.toList hx.parentAccel
  have hjoint := hfix (j.accelerationKey t) [s.qDDot] hx.qDDot
  have hchild := hfix (j.wrenchKey .child t) s.childWrench.toList hx.childWrench
  rw [h.totalEnergy_eq, drivenLaws]
  simp only [List.map_cons, List.map_nil, List.sum_cons, List.sum_nil, haccel, htorque, hwrench,
    hparent, hjoint, hchild, Spatial.normSq_toList, Spatial.zero_dot, normSq_singleton]
  norm_num

/-- Values that are the same on the unknowns. -/
theorem IsUnknown.congr {x y : Solution Key ℝ} (hx : s.IsUnknown j t x)
    (h : ∀ key ∈ j.unknownKeys t, y.get? key = x.get? key) : s.IsUnknown j t y := by
  simp only [unknownKeys, List.forall_mem_cons] at h
  obtain ⟨hparentAccel, hchildAccel, hqDDot, hparentWrench, hchildWrench, htorque, -⟩ := h
  exact ⟨hparentAccel.trans hx.parentAccel, hchildAccel.trans hx.childAccel, hqDDot.trans hx.qDDot,
    hparentWrench.trans hx.parentWrench, hchildWrench.trans hx.childWrench, htorque.trans hx.torque⟩

/-! ### Conditioning -/

/-- The factors by which the equations stretch are far enough from those at which directions stop to
count. -/
theorem separated_driven : Separated 1e-4 1e4 where
  pivot_le := by norm_num [negligiblePivot]
  ratio_mul_le := by norm_num [negligibleRatio]
  nonneg := by norm_num

section Bounds

variable (hclosed : s.IsClosed j) (hdistance : (s.childPose.between s.parentPose).position.norm ≤ 1000)
  (haxis : (j.screwAxis .child).norm ≤ 1000) (h : system.States (s.drivenLaws j t))

include hclosed hdistance

theorem isBoundedBy_between : (s.childPose.between s.parentPose).adjoint.IsBoundedBy (2 * (1000 ^ 2 + 1)) :=
  (hclosed.isUnit_child.inverse.compose hclosed.isUnit_parent).isBoundedBy_adjoint hdistance

include haxis h

/-- With links at most a thousand apart and an axis at most a thousand long the equations make no
unknowns much shorter. -/
theorem stretches_driven : Stretches 1e-4 Key.dim (j.unknownKeys t) system.equations := fun x hx => by
  have hle := squaredLength_le (t := t) (isBoundedBy_between hclosed hdistance) (by positivity)
    (dot_screwAxis_le haxis) (by positivity) x
  rw [totalEnergy_zero_driven h]
  linarith

/-- They make no unknowns much longer either. -/
theorem totalEnergy_driven_le (x : Valuation Key) : totalEnergy system.equations 0 x ≤
    1e4 ^ 2 * squaredLength Key.dim (j.unknownKeys t) x := by
  have hge := le_squaredLength (t := t) (isBoundedBy_between hclosed hdistance) (by positivity)
    (dot_screwAxis_le haxis) (by positivity) x
  have hnonneg := squaredLength_nonneg Key.dim (j.unknownKeys t) x
  rw [totalEnergy_zero_driven h]
  linarith

end Bounds

end State

/-! ### The solution -/

/-- **Elimination finds what a driven joint does, in every order.** Around known poses that close
the loop, with links at most a thousand apart and an axis at most a thousand long, fix the
acceleration of the parent, that of the joint and the child wrench to whatever they are in a state.
The system can be set up, eliminated and solved; the solution keeps to the fixed values, and the rest
is what the joint makes of them. -/
theorem driven_solution {j : Joint ℝ} (hj : j.IsAssembled) (hne : j.parent ≠ j.child)
    {plan : RelationPlan ℝ} (hplane : plan.plane = none) {D : Decompositions ℝ} (hD : D.IsExact)
    (hspectrum : D.HasExactSpectrum) {t : ℕ} {s : State} {known : Values ℝ} (hclosed : s.IsClosed j)
    (hknown : s.IsKnown j t known) (hdistance : (s.childPose.between s.parentPose).position.norm ≤ 1000)
    (haxis : (j.screwAxis .child).norm ≤ 1000) :
    ∃ system, plan.drivenSystem j t known s.parentAccel s.qDDot s.childWrench = .ok system ∧
      ∀ ordering : List Key, ordering.Perm (j.unknownKeys t) →
        ∃ net x, eliminate D system ordering = .ok net ∧ net.solve = .ok x ∧
          (s.driven j).IsUnknown j t x := by
  obtain ⟨system, hsystem, hstates⟩ := State.exists_drivenSystem hj hne hplane hknown
  refine ⟨system, hsystem, fun ordering hperm => ?_⟩
  have hkeys : (j.unknownKeys t).Perm system.keys :=
    (List.perm_ext_iff_of_nodup (nodup_unknownKeys hne t) system.nodup_keys).mpr fun _ =>
      (State.mem_keys_driven hstates).symm
  have hunknown := (s.driven j).isUnknown_unknowns hne t
  obtain ⟨net, x, hnet, hx, hall⟩ := hstates.exists_solve hD hspectrum State.separated_driven hkeys
    (State.stretches_driven hclosed hdistance haxis hstates)
    (State.totalEnergy_driven_le hclosed hdistance haxis hstates) hunknown.exists_value
    (State.totalEnergy_one_driven hj hclosed hstates hunknown) hperm
  exact ⟨net, x, hnet, hx, hunknown.congr hall⟩

/-! ### A hinge at rest -/

/-- A hinge that passes the pose it has at rest. -/
noncomputable def passingHinge : State :=
  { turningHinge with
    childPose := ⟨⟨0.6, 0.8, 0, 0⟩, ⟨1, 0, 0.5⟩⟩
    q := 0 }

theorem isClosed_passingHinge : passingHinge.IsClosed hinge where
  isUnit_parent := Rotation.isUnit_identity
  isUnit_child := by
    show (0.6 : ℝ) ^ 2 + 0.8 ^ 2 + 0 ^ 2 + 0 ^ 2 = 1
    norm_num
  matrix_child := by
    have hunit : (Pose.identity : Pose ℝ).IsUnit := Rotation.isUnit_identity
    have hback := hunit.inverse_mul_matrix
    rw [Pose.matrix_identity, mul_one] at hback
    have hrest : hinge.restPose.matrix = passingHinge.childPose.matrix := by
      show ((Pose.identity : Pose ℝ).inverse.compose passingHinge.childPose).matrix = _
      rw [hunit.inverse.matrix_compose, hback, one_mul]
    show _ = (Pose.identity.compose (hinge.childInParent 0)).matrix
    rw [hunit.matrix_compose, Pose.matrix_identity, one_mul,
      isAssembled_hinge.matrix_childInParent hinge.isExactAt_zero, Screw.flow_zero, mul_one, hrest]

theorem norm_position_passingHinge :
    (passingHinge.childPose.between passingHinge.parentPose).position.norm ≤ 1000 := by
  refine Real.sqrt_le_iff.mpr ⟨by norm_num, ?_⟩
  simp only [Vec3.normSq_eq, passingHinge, turningHinge, Pose.between, Pose.compose, Pose.inverse,
    Pose.identity, Rotation.inverse, Rotation.act, Rotation.imaginary, Vec3.cross, Vec3.scale,
    Vec3.add_def, Vec3.neg_def, Vec3.zero_def]
  norm_num

theorem norm_screwAxis_hinge : (hinge.screwAxis .child).norm ≤ 1000 := by
  refine Real.sqrt_le_iff.mpr ⟨by norm_num, ?_⟩
  simp only [hinge, assemble, screwAxis, JointMotion.screwAxis, Pose.compose, Pose.inverse,
    Pose.ofPosition, Pose.adjoint_apply, Rotation.inverse, Rotation.act, Rotation.compose,
    Rotation.imaginary, Rotation.identity, Rotation.matrix, Mat3.apply, Spatial.dot_eq, Vec3.dot,
    Vec3.cross, Vec3.scale, Vec3.add_def, Vec3.neg_def, Vec3.zero_def]
  norm_num

/-- The hinge, driven around the pose at rest. -/
theorem driven_solution_passingHinge : hinge.IsAssembled ∧ hinge.parent ≠ hinge.child ∧
    passingHinge.IsClosed hinge ∧ passingHinge.IsKnown hinge 0 (passingHinge.store hinge 0) ∧
    (passingHinge.childPose.between passingHinge.parentPose).position.norm ≤ 1000 ∧
    (hinge.screwAxis .child).norm ≤ 1000 ∧
    ∃ system, RelationPlan.standard.drivenSystem hinge 0 (passingHinge.store hinge 0)
        passingHinge.parentAccel passingHinge.qDDot passingHinge.childWrench = .ok system ∧
      ∀ ordering : List Key, ordering.Perm (hinge.unknownKeys 0) →
        ∃ net x, eliminate .spectral system ordering = .ok net ∧ net.solve = .ok x ∧
          (passingHinge.driven hinge).IsUnknown hinge 0 x := by
  have hne : hinge.parent ≠ hinge.child := by simp [hinge, assemble]
  have hknown := (passingHinge.isStored_store hne 0).isKnown
  exact ⟨isAssembled_hinge, hne, isClosed_passingHinge, hknown, norm_position_passingHinge,
    norm_screwAxis_hinge, driven_solution isAssembled_hinge hne rfl Decompositions.spectral_isExact
      Decompositions.spectral_hasExactSpectrum isClosed_passingHinge hknown norm_position_passingHinge
      norm_screwAxis_hinge⟩

end Joint
end Kinodynamics
