/-
# Relations are local

All that the methods of a plan emit for a joint at a time step is about variables of that
joint and its two links at that step (`RelationPlan.owns_of_emit`), and all that they read
of a store are values of such variables (`RelationPlan.emit_congr`), as is what the maps
of the joint read (`Joint.readsAlike`). Joints of one robot have ids of their own, so
what two of them, or one at two steps, have in common are variables of a link
(`Robot.Built.shared_of_owns`).

Key definitions: `Joint.Owns`, `Values.AgreeOn`, `RelationPlan.Family`, `RelationPlan.emit`.
Key theorems: `RelationPlan.owns_of_emit`, `RelationPlan.emit_congr`, `RelationPlan.isLocal_emit`.
-/
import Kinodynamics.Joint.Relations
import Kinodynamics.Joint.Stored
import Kinodynamics.Proofs.Topology

namespace Kinodynamics

/-! ### What a key names -/

namespace Key

/-- The link that a key names, if any. -/
def link? : Key → Option LinkId
  | pose link _ | twist link _ | twistAccel link _ | wrench link _ _ => some link
  | angle .. | velocity .. | acceleration .. | torque .. => none

/-- The joint that a key names, if any. -/
def joint? : Key → Option JointId
  | pose .. | twist .. | twistAccel .. => none
  | wrench _ joint _ | angle joint _ | velocity joint _ | acceleration joint _ | torque joint _ =>
    some joint

/-- A key without a joint is of a link. -/
theorem exists_link_of_joint?_eq_none {key : Key} (h : key.joint? = none) :
    ∃ link, key.link? = some link ∧ (key = .pose link key.time ∨ key = .twist link key.time ∨
      key = .twistAccel link key.time) := by
  cases key <;> simp_all [joint?, link?, time]

end Key

namespace Joint

variable {α : Type}

/-- A key of time `t` that names no joint but this one and no link but its two. -/
structure Owns (j : Joint α) (t : ℕ) (key : Key) : Prop where
  time_eq : key.time = t
  touches : ∀ link, key.link? = some link → j.Touches link
  joint_eq : ∀ id, key.joint? = some id → id = j.id

variable (j : Joint α) (t : ℕ) (side : Side)

theorem owns_of_link {key : Key} (ht : key.time = t) (hl : key.link? = some (j.link side))
    (hj : key.joint? = none ∨ key.joint? = some j.id) : j.Owns t key where
  time_eq := ht
  touches := fun link h => by
    rw [hl] at h
    exact Option.some.inj h ▸ j.touches_link side
  joint_eq := fun id h => by
    rcases hj with hj | hj <;> rw [hj] at h
    · cases h
    · exact (Option.some.inj h).symm

theorem owns_of_joint {key : Key} (ht : key.time = t) (hl : key.link? = none)
    (hj : key.joint? = some j.id) : j.Owns t key where
  time_eq := ht
  touches := fun link h => by
    rw [hl] at h
    cases h
  joint_eq := fun id h => by
    rw [hj] at h
    exact (Option.some.inj h).symm

@[simp] theorem owns_poseKey : j.Owns t (j.poseKey side t) := j.owns_of_link t side rfl rfl (.inl rfl)

@[simp] theorem owns_twistKey : j.Owns t (j.twistKey side t) :=
  j.owns_of_link t side rfl rfl (.inl rfl)

@[simp] theorem owns_twistAccelKey : j.Owns t (j.twistAccelKey side t) :=
  j.owns_of_link t side rfl rfl (.inl rfl)

@[simp] theorem owns_wrenchKey : j.Owns t (j.wrenchKey side t) :=
  j.owns_of_link t side rfl rfl (.inr rfl)

@[simp] theorem owns_angleKey : j.Owns t (j.angleKey t) := j.owns_of_joint t rfl rfl rfl

@[simp] theorem owns_velocityKey : j.Owns t (j.velocityKey t) := j.owns_of_joint t rfl rfl rfl

@[simp] theorem owns_accelerationKey : j.Owns t (j.accelerationKey t) := j.owns_of_joint t rfl rfl rfl

@[simp] theorem owns_torqueKey : j.Owns t (j.torqueKey t) := j.owns_of_joint t rfl rfl rfl

end Joint

/-! ### Results -/

theorem Except.map_eq_ok {ε α β : Type} {f : α → β} {x : Except ε α} {b : β} :
    f <$> x = .ok b ↔ ∃ a, x = .ok a ∧ f a = b := by
  cases x <;> simp [Functor.map, Except.map]

/-! ### What is emitted -/

namespace RelationPlan

variable {α : Type}

/-- Relations, or equations around known values. -/
inductive Emission (α : Type) where
  | relations (objective : Objective α)
  | equations (system : LinearSystem Key α)

/-- The keys of the relations or equations. -/
def Emission.keys : Emission α → List Key
  | relations objective => objective.relations.flatMap Relation.keys
  | equations system => system.equations.flatMap LinearEquation.keys

/-- The methods of a plan that emit relations or equations of a joint. -/
inductive Family (α : Type) where
  | loopClosure
  | twistComposition
  | accelComposition
  | wrenchTransmission
  | limitPenalties
  | all
  | fixedTorque
  | linearAcceleration
  | linearDynamics
  | linearFixedTorque
  | linearFixedTorqueOf (torques : List (String × α))

variable {plan : RelationPlan α} {j : Joint α} {t : ℕ} {known : Values α}

/-! ### The keys that are emitted -/

theorem Emission.keys_append (o o' : Objective α) : (Emission.relations (o.append o')).keys =
    (Emission.relations o).keys ++ (Emission.relations o').keys := List.flatMap_append

theorem owns_loopClosure : ∀ key ∈ (Emission.relations (plan.loopClosure j t)).keys, j.Owns t key := by
  simp [Emission.keys, loopClosure]

theorem owns_twistComposition :
    ∀ key ∈ (Emission.relations (plan.twistComposition j t)).keys, j.Owns t key := by
  simp [Emission.keys, twistComposition]

theorem owns_accelComposition :
    ∀ key ∈ (Emission.relations (plan.accelComposition j t)).keys, j.Owns t key := by
  simp [Emission.keys, accelComposition]

theorem owns_wrenchTransmission :
    ∀ key ∈ (Emission.relations (plan.wrenchTransmission j t)).keys, j.Owns t key := by
  cases hplane : plan.plane <;> simp [Emission.keys, wrenchTransmission, hplane]

/-- An exact equation has the keys of its blocks. -/
theorem keys_of_exactEquation {blocks : List (Key × Dense α)} {rhs : List α} {e : LinearEquation Key α}
    (h : exactEquation blocks rhs = .ok e) : e.keys = blocks.map Prod.fst := by
  unfold exactEquation at h
  split at h
  · next hmake =>
    cases h
    rw [LinearEquation.keys, (Elimination.make_eq_ok_iff.mp hmake).1]
  · cases h

variable [Scalar α]

/-- What a method emits for a joint at a time step. Those of the nonlinear families read no
values. -/
def emit (plan : RelationPlan α) (j : Joint α) (t : ℕ) (known : Values α) :
    Family α → Except ModelError (Emission α)
  | .loopClosure => .ok (.relations (plan.loopClosure j t))
  | .twistComposition => .ok (.relations (plan.twistComposition j t))
  | .accelComposition => .ok (.relations (plan.accelComposition j t))
  | .wrenchTransmission => .ok (.relations (plan.wrenchTransmission j t))
  | .limitPenalties => .ok (.relations (plan.limitPenalties j t))
  | .all => .ok (.relations (plan.allFamilies j t))
  | .fixedTorque => .relations <$> plan.fixedTorque j t known
  | .linearAcceleration => .equations <$> plan.linearAcceleration j t known
  | .linearDynamics => .equations <$> plan.linearDynamics j t known
  | .linearFixedTorque => .equations <$> plan.linearFixedTorque j t known
  | .linearFixedTorqueOf torques => .equations <$> plan.linearFixedTorqueOf j t torques

theorem owns_limitPenalties :
    ∀ key ∈ (Emission.relations (plan.limitPenalties j t)).keys, j.Owns t key := by
  simp [Emission.keys, limitPenalties]

theorem owns_allFamilies : ∀ key ∈ (Emission.relations (plan.allFamilies j t)).keys, j.Owns t key := by
  intro key hkey
  simp only [allFamilies, Emission.keys_append, List.mem_append] at hkey
  rcases hkey with h | h | h | h | h
  · exact owns_loopClosure key h
  · exact owns_twistComposition key h
  · exact owns_accelComposition key h
  · exact owns_wrenchTransmission key h
  · exact owns_limitPenalties key h

theorem owns_fixedTorque {o : Objective α} (h : plan.fixedTorque j t known = .ok o) :
    ∀ key ∈ (Emission.relations o).keys, j.Owns t key := by
  obtain ⟨torque, -, h⟩ := Except.bind_eq_ok.mp h
  cases torque with
  | none =>
    cases h
    simp [Emission.keys, Objective.empty]
  | some torque =>
    cases h
    simp [Emission.keys]

theorem owns_linearAcceleration {s : LinearSystem Key α}
    (h : plan.linearAcceleration j t known = .ok s) :
    ∀ key ∈ (Emission.equations s).keys, j.Owns t key := by
  obtain ⟨transform, -, h⟩ := Except.bind_eq_ok.mp h
  obtain ⟨childTwist, -, h⟩ := Except.bind_eq_ok.mp h
  obtain ⟨qDot, -, h⟩ := Except.bind_eq_ok.mp h
  obtain ⟨e, he, h⟩ := Except.bind_eq_ok.mp h
  cases h
  have hkeys := keys_of_exactEquation he
  split_ifs at hkeys <;> simp [Emission.keys, hkeys]

theorem owns_linearDynamics {s : LinearSystem Key α} (h : plan.linearDynamics j t known = .ok s) :
    ∀ key ∈ (Emission.equations s).keys, j.Owns t key := by
  obtain ⟨transform, -, h⟩ := Except.bind_eq_ok.mp h
  obtain ⟨transmission, htransmission, h⟩ := Except.bind_eq_ok.mp h
  obtain ⟨balance, hbalance, h⟩ := Except.bind_eq_ok.mp h
  have hkeys := keys_of_exactEquation htransmission
  have hkeys' := keys_of_exactEquation hbalance
  split at h
  · obtain ⟨restriction, hrestriction, h⟩ := Except.bind_eq_ok.mp h
    cases h
    simp [Emission.keys, hkeys, hkeys', keys_of_exactEquation hrestriction]
  · cases h
    simp [Emission.keys, hkeys, hkeys']

theorem owns_fixTorque {torque : Option α} {s : LinearSystem Key α} (h : fixTorque j t torque = .ok s) :
    ∀ key ∈ (Emission.equations s).keys, j.Owns t key := by
  cases torque with
  | none =>
    cases h
    simp [Emission.keys, LinearSystem.empty]
  | some torque =>
    obtain ⟨e, he, h⟩ := Except.bind_eq_ok.mp h
    cases h
    simp [Emission.keys, keys_of_exactEquation he]

theorem owns_linearFixedTorqueOf {torques : List (String × α)} {s : LinearSystem Key α}
    (h : plan.linearFixedTorqueOf j t torques = .ok s) :
    ∀ key ∈ (Emission.equations s).keys, j.Owns t key := by
  unfold linearFixedTorqueOf at h
  split at h
  · split at h
    · exact owns_fixTorque h
    · cases h
  · exact owns_fixTorque h
  · exact owns_fixTorque h

/-- **Every key that a method emits is local** to the joint and the time step. -/
theorem owns_of_emit {f : Family α} {e : Emission α} (h : plan.emit j t known f = .ok e) :
    ∀ key ∈ e.keys, j.Owns t key := by
  cases f with
  | loopClosure => cases h; exact owns_loopClosure
  | twistComposition => cases h; exact owns_twistComposition
  | accelComposition => cases h; exact owns_accelComposition
  | wrenchTransmission => cases h; exact owns_wrenchTransmission
  | limitPenalties => cases h; exact owns_limitPenalties
  | all => cases h; exact owns_allFamilies
  | fixedTorque =>
    obtain ⟨o, ho, rfl⟩ := Except.map_eq_ok.mp h
    exact owns_fixedTorque ho
  | linearAcceleration =>
    obtain ⟨s, hs, rfl⟩ := Except.map_eq_ok.mp h
    exact owns_linearAcceleration hs
  | linearDynamics =>
    obtain ⟨s, hs, rfl⟩ := Except.map_eq_ok.mp h
    exact owns_linearDynamics hs
  | linearFixedTorque =>
    obtain ⟨s, hs, rfl⟩ := Except.map_eq_ok.mp h
    obtain ⟨torque, -, hs⟩ := Except.bind_eq_ok.mp hs
    exact owns_fixTorque hs
  | linearFixedTorqueOf torques =>
    obtain ⟨s, hs, rfl⟩ := Except.map_eq_ok.mp h
    exact owns_linearFixedTorqueOf hs

end RelationPlan

/-! ### What is read -/

namespace Values

variable {α : Type}

/-- Two stores have the same value, or none, for each key of a kind. -/
def AgreeOn (owned : Key → Prop) (known known' : Values α) : Prop :=
  ∀ key, owned key → known.get? key = known'.get? key

variable {owned : Key → Prop} {known known' : Values α} {key : Key}

theorem AgreeOn.scalar_eq (h : AgreeOn owned known known') (hkey : owned key) :
    known.scalar key = known'.scalar key := by
  simp only [scalar, lookup, h key hkey]

theorem AgreeOn.spatial_eq (h : AgreeOn owned known known') (hkey : owned key) :
    known.spatial key = known'.spatial key := by
  simp only [spatial, lookup, h key hkey]

theorem AgreeOn.pose_eq (h : AgreeOn owned known known') (hkey : owned key) :
    known.pose key = known'.pose key := by
  simp only [pose, lookup, h key hkey]

theorem AgreeOn.spatialOrZero_eq [Scalar α] (h : AgreeOn owned known known') (hkey : owned key) :
    known.spatialOrZero key = known'.spatialOrZero key := by
  unfold spatialOrZero Assignment.contains
  rw [h key hkey, h.spatial_eq hkey]

end Values

section Read

variable {α : Type} [Scalar α] {j : Joint α} {t : ℕ} {known known' : Values α}

namespace RelationPlan

theorem knownTransform_congr (h : Values.AgreeOn (j.Owns t) known known') :
    knownTransform j t known = knownTransform j t known' := by
  simp only [knownTransform, h.pose_eq (j.owns_poseKey t _)]

theorem knownTorque_congr (h : Values.AgreeOn (j.Owns t) known known') :
    knownTorque j t known = knownTorque j t known' := by
  simp only [knownTorque, h.scalar_eq (j.owns_torqueKey t)]

/-- **What a method emits depends on local values only**, errors included. -/
theorem emit_congr (plan : RelationPlan α) (h : Values.AgreeOn (j.Owns t) known known')
    (f : Family α) : plan.emit j t known f = plan.emit j t known' f := by
  cases f with
  | fixedTorque => simp only [emit, fixedTorque, knownTorque_congr h]
  | linearAcceleration =>
    simp only [emit, linearAcceleration, knownTransform_congr h, h.spatial_eq (j.owns_twistKey t _),
      h.scalar_eq (j.owns_velocityKey t)]
  | linearDynamics => simp only [emit, linearDynamics, knownTransform_congr h]
  | linearFixedTorque => simp only [emit, linearFixedTorque, knownTorque_congr h]
  | _ => rfl

end RelationPlan

namespace Joint

/-- The maps of a joint on stored values have the same results on two stores, errors
included. -/
structure ReadsAlike (j : Joint α) (t : ℕ) (known known' : Values α) : Prop where
  poseOfOther : ∀ side, j.poseOfOtherStored side known t = j.poseOfOtherStored side known' t
  poseOfOtherTangent : ∀ side,
    j.poseOfOtherTangentStored side known t = j.poseOfOtherTangentStored side known' t
  poseInOther : ∀ side, j.poseInOtherStored side known t = j.poseInOtherStored side known' t
  twistFromOther : ∀ side, j.twistFromOtherStored side known t = j.twistFromOtherStored side known' t
  twistFromOtherPartials : ∀ side,
    j.twistFromOtherPartialsStored side known t = j.twistFromOtherPartialsStored side known' t
  twistOfOther : ∀ side, j.twistOfOtherStored side known t = j.twistOfOtherStored side known' t
  accelFromOther : ∀ side, j.accelFromOtherStored side known t = j.accelFromOtherStored side known' t
  accelOfOther : ∀ side, j.accelOfOtherStored side known t = j.accelOfOtherStored side known' t
  torque : ∀ side, j.torqueStored side known t = j.torqueStored side known' t

/-- **The maps of a joint read local values only.** -/
theorem readsAlike (h : Values.AgreeOn (j.Owns t) known known') : j.ReadsAlike t known known' := by
  have hangle := h.scalar_eq (j.owns_angleKey t)
  have hvelocity := h.scalar_eq (j.owns_velocityKey t)
  have hacceleration := h.scalar_eq (j.owns_accelerationKey t)
  have harguments : ∀ side, j.twistArguments side known t = j.twistArguments side known' t :=
    fun side => by
      simp only [twistArguments, hangle, hvelocity, h.spatialOrZero_eq (j.owns_twistKey t _)]
  have hpose : ∀ side, j.poseOfOtherStored side known t = j.poseOfOtherStored side known' t :=
    fun side => by simp only [poseOfOtherStored, hangle]
  have htwist : ∀ side, j.twistFromOtherStored side known t = j.twistFromOtherStored side known' t :=
    fun side => by simp only [twistFromOtherStored, harguments]
  have haccel : ∀ side, j.accelFromOtherStored side known t = j.accelFromOtherStored side known' t :=
    fun side => by
      simp only [accelFromOtherStored, hangle, hvelocity, hacceleration,
        h.spatialOrZero_eq (j.owns_twistKey t _), h.spatialOrZero_eq (j.owns_twistAccelKey t _)]
  exact {
    poseOfOther := hpose
    poseOfOtherTangent := fun side => by simp only [poseOfOtherTangentStored, hangle]
    poseInOther := fun side => hpose side.other
    twistFromOther := htwist
    twistFromOtherPartials := fun side => by simp only [twistFromOtherPartialsStored, harguments]
    twistOfOther := fun side => htwist side.other
    accelFromOther := haccel
    accelOfOther := fun side => haccel side.other
    torque := fun side => by simp only [torqueStored, h.spatial_eq (j.owns_wrenchKey t side)] }

end Joint

end Read

/-! ### Joints of one robot -/

/-- **What two joints have in common**, or one at two time steps, are poses, twists and twist
accelerations of a shared link at a shared time. -/
theorem Robot.Built.shared_of_owns {α : Type} [Scalar α] {r : Robot α} (hr : r.Built)
    {id id' : JointId} {j j' : Joint α} {t t' : ℕ} (hj : r.joint id = .ok j)
    (hj' : r.joint id' = .ok j') (hne : (id, t) ≠ (id', t')) {key : Key} (h : j.Owns t key)
    (h' : j'.Owns t' key) : t = t' ∧ ∃ link, j.Touches link ∧ j'.Touches link ∧
      (key = .pose link t ∨ key = .twist link t ∨ key = .twistAccel link t) := by
  have ht : t = t' := h.time_eq.symm.trans h'.time_eq
  have hnone : key.joint? = none := by
    rw [Option.eq_none_iff_forall_ne_some]
    intro i hi
    refine hne (Prod.ext ?_ ht)
    rw [← hr.joint_id hj, ← hr.joint_id hj', ← h.joint_eq i hi, ← h'.joint_eq i hi]
  obtain ⟨link, hlink, hkey⟩ := Key.exists_link_of_joint?_eq_none hnone
  rw [h.time_eq] at hkey
  exact ⟨ht, link, h.touches link hlink, h'.touches link hlink, hkey⟩

/-- **Relations are local in joint and time.** Whatever a plan emits for a joint at a time step
has keys of that step that name this joint and its two links only. On stores with the same
values for such keys every method of every plan and every map of the joint have the same
result, errors included. And what two different joints of a robot, or one at different
steps, emit has in common only poses, twists and twist accelerations of a shared link at a
shared time. -/
theorem RelationPlan.isLocal_emit {α : Type} [Scalar α] :
    (∀ (plan : RelationPlan α) (j : Joint α) (t : ℕ) (known : Values α) (f : Family α)
      (e : Emission α), plan.emit j t known f = .ok e → ∀ key ∈ e.keys, j.Owns t key) ∧
    (∀ (j : Joint α) (t : ℕ) (known known' : Values α), Values.AgreeOn (j.Owns t) known known' →
      (∀ (plan : RelationPlan α) (f : Family α), plan.emit j t known f = plan.emit j t known' f) ∧
        j.ReadsAlike t known known') ∧
    ∀ r : Robot α, r.Built → ∀ (id id' : JointId) (j j' : Joint α) (t t' : ℕ),
      r.joint id = .ok j → r.joint id' = .ok j' → (id, t) ≠ (id', t') →
      ∀ (plan plan' : RelationPlan α) (known known' : Values α) (f f' : Family α) (e e' : Emission α),
        plan.emit j t known f = .ok e → plan'.emit j' t' known' f' = .ok e' →
        ∀ key ∈ e.keys, key ∈ e'.keys → t = t' ∧ ∃ link, j.Touches link ∧ j'.Touches link ∧
          (key = .pose link t ∨ key = .twist link t ∨ key = .twistAccel link t) := by
  refine ⟨fun plan j t known f e h => owns_of_emit h, fun j t known known' h =>
    ⟨fun plan => emit_congr plan h, Joint.readsAlike h⟩, ?_⟩
  intro r hr id id' j j' t t' hj hj' hne plan plan' known known' f f' e e' he he' key hkey hkey'
  exact hr.shared_of_owns hj hj' hne (owns_of_emit he key hkey) (owns_of_emit he' key hkey')

/-! ### A row of links -/

noncomputable def wrist : Joint ℝ := unitHinge 1 "wrist" (unitLink 1 "arm") (unitLink 2 "hand")

/-- Three links in a row with hinges between them. -/
noncomputable def arm : Robot ℝ := Robot.empty.tryAll
  [.link "base" 1 1 .identity, .link "arm" 1 1 .identity, .link "hand" 1 1 .identity,
    .joint "shoulder" .identity ⟨0⟩ ⟨1⟩ .standard (.revolute ⟨0, 0, 1⟩),
    .joint "wrist" .identity ⟨1⟩ ⟨2⟩ .standard (.revolute ⟨0, 0, 1⟩)]

theorem built_arm : arm.Built := Robot.Built.empty.tryAll _

/-- A pose stored for time step 1. -/
noncomputable def laterPose : Values ℝ := Assignment.empty.insert (.pose ⟨0⟩ 1) (.pose .identity)

/-- The shoulder and the wrist at time step 0. -/
theorem isLocal_emit_arm :
    (∀ key ∈ (RelationPlan.Emission.relations (RelationPlan.standard.allFamilies shoulder 0)).keys,
      shoulder.Owns 0 key) ∧
    RelationPlan.standard.emit shoulder 0 .empty .linearAcceleration =
      RelationPlan.standard.emit shoulder 0 laterPose .linearAcceleration ∧
    ∀ key ∈ (RelationPlan.Emission.relations (RelationPlan.standard.allFamilies shoulder 0)).keys,
      key ∈ (RelationPlan.Emission.relations (RelationPlan.standard.allFamilies wrist 0)).keys →
      ∃ link, shoulder.Touches link ∧ wrist.Touches link ∧
        (key = .pose link 0 ∨ key = .twist link 0 ∨ key = .twistAccel link 0) := by
  obtain ⟨hkeys, hread, hshared⟩ := @RelationPlan.isLocal_emit ℝ _
  have hagree : Values.AgreeOn (shoulder.Owns 0) .empty laterPose := fun key hkey => by
    have hne : Key.pose ⟨0⟩ 1 ≠ key := fun heq => by
      have htime := hkey.time_eq
      rw [← heq] at htime
      cases htime
    rw [laterPose, Assignment.get?_insert_of_ne _ _ hne]
  refine ⟨hkeys .standard shoulder 0 .empty .all _ rfl,
    (hread shoulder 0 _ _ hagree).1 .standard .linearAcceleration, fun key hkey hkey' => ?_⟩
  exact (hshared _ built_arm ⟨0⟩ ⟨1⟩ shoulder wrist 0 0 rfl rfl (by decide) .standard .standard .empty
    .empty .all .all _ _ rfl rfl key hkey hkey').2

end Kinodynamics
