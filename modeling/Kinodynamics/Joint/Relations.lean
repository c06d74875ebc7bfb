/-
# The relations of a joint

The relations that one joint contributes at one time step, family by family:

| family       | variables                                  | noise       |
|--------------|--------------------------------------------|-------------|
| pose         | parent pose, child pose, angle             | pose        |
| velocity     | both twists, angle, velocity               | twist       |
| acceleration | child twist, both accelerations, the joint motion | exact |
| dynamics     | child wrench, torque                       | torque      |
|              | both wrenches, angle                       | wrench      |
|              | child wrench, if a plane is set            | wrench      |
| limits       | angle, velocity, acceleration, torque      | joint limit |
| fixed torque | torque                                     | exact       |

The linear families state the same physics around known poses and twists.

Key definitions: `RelationPlan`, `RelationPlan.allFamilies`,
`RelationPlan.fixedTorque`, `RelationPlan.linearAcceleration`,
`RelationPlan.linearDynamics`, `RelationPlan.linearFixedTorque`,
`RelationPlan.linearFixedTorqueOf`.
-/
import Kinodynamics.NoiseSettings
import Kinodynamics.Objective

namespace Kinodynamics

/-- What relations are built with. -/
structure RelationPlan (α : Type) where
  settings : NoiseSettings α
  /-- The normal of the plane that wrenches are restricted to. -/
  plane : Option PlaneNormal

namespace RelationPlan

variable {α : Type} [Scalar α]

/-- Standard deviations and no plane. -/
def standard : RelationPlan α := ⟨.standard, none⟩

/-! ### Nonlinear families -/

/-- The loop of poses across the joint closes. -/
def loopClosure (plan : RelationPlan α) (j : Joint α) (t : Nat) : Objective α :=
  ⟨[⟨[j.poseKey .parent t, j.poseKey .child t, j.angleKey t], .pose j, plan.settings.poseNoise,
    rfl⟩]⟩

/-- The child twist is the parent twist carried over plus the joint rate. -/
def twistComposition (plan : RelationPlan α) (j : Joint α) (t : Nat) : Objective α :=
  ⟨[⟨[j.twistKey .parent t, j.twistKey .child t, j.angleKey t, j.velocityKey t], .twist j,
    plan.settings.twistNoise, rfl⟩]⟩

/-- The child acceleration follows from the parent acceleration, exactly. -/
def accelComposition (_plan : RelationPlan α) (j : Joint α) (t : Nat) : Objective α :=
  ⟨[⟨[j.twistKey .child t, j.twistAccelKey .parent t, j.twistAccelKey .child t, j.angleKey t,
    j.velocityKey t, j.accelerationKey t], .twistAccel j, .constrained 6, rfl⟩]⟩

/-- Torque transmission, balance of wrenches and, if a plane is set, restriction of
the child wrench to it. -/
def wrenchTransmission (plan : RelationPlan α) (j : Joint α) (t : Nat) : Objective α :=
  ⟨[⟨[j.wrenchKey .child t, j.torqueKey t], .torque j, plan.settings.torqueNoise, rfl⟩,
    ⟨[j.wrenchKey .parent t, j.wrenchKey .child t, j.angleKey t], .wrenchBalance j,
      plan.settings.wrenchNoise 6, rfl⟩] ++
    match plan.plane with
    | some axis => [⟨[j.wrenchKey .child t], .planar axis, plan.settings.wrenchNoise 3, rfl⟩]
    | none => []⟩

/-- Penalties on angle, velocity, acceleration and torque. -/
def limitPenalties (plan : RelationPlan α) (j : Joint α) (t : Nat) : Objective α :=
  ⟨[(j.angleKey t, j.params.angle), (j.velocityKey t, j.params.velocity),
    (j.accelerationKey t, j.params.acceleration), (j.torqueKey t, j.params.torque)].map
      fun (key, limit) => ⟨[key], .ofLimit limit, plan.settings.jointLimitNoise, rfl⟩⟩

/-- All nonlinear families but the fixed torque. -/
def allFamilies (plan : RelationPlan α) (j : Joint α) (t : Nat) : Objective α :=
  (plan.loopClosure j t).append <| (plan.twistComposition j t).append <|
    (plan.accelComposition j t).append <| (plan.wrenchTransmission j t).append <|
      plan.limitPenalties j t

/-- The torque that forward dynamics fixes: a stored one for an actuated joint, zero
for a passive one, none for a joint that is held. -/
def knownTorque (j : Joint α) (t : Nat) (known : Values α) : Except ModelError (Option α) :=
  match j.params.effort with
  | .actuated => some <$> known.scalar (j.torqueKey t)
  | .unactuated => .ok (some 0)
  | .fixed => .ok none

/-- The torque that forward dynamics fixes, as a relation that holds exactly. -/
def fixedTorque (_plan : RelationPlan α) (j : Joint α) (t : Nat) (known : Values α) :
    Except ModelError (Objective α) := do
  match ← knownTorque j t known with
  | some torque => return ⟨[⟨[j.torqueKey t], .prior [torque], .constrained 1, rfl⟩]⟩
  | none => return .empty

/-! ### Linear families -/

/-- The parent frame in the child frame, by the known poses of the links. -/
def knownTransform (j : Joint α) (t : Nat) (known : Values α) : Except ModelError (Pose α) := do
  let parent ← known.pose (j.poseKey .parent t)
  let child ← known.pose (j.poseKey .child t)
  return child.between parent

/-- An equation that holds exactly, or the sizes that disagree. -/
def exactEquation (blocks : List (Key × Dense α)) (rhs : List α) :
    Except ModelError (LinearEquation Key α) :=
  match LinearEquation.make blocks rhs (.constrained rhs.length) with
  | .ok equation => .ok equation
  | .error cause => .error (.elimination (.mismatch cause))

/-- `A_c - Ad A_p - S q̈ = ad(V_c) S q̇` around the known poses, child twist and
rate. A fixed joint has no acceleration to enter. -/
def linearAcceleration (_plan : RelationPlan α) (j : Joint α) (t : Nat) (known : Values α) :
    Except ModelError (LinearSystem Key α) := do
  let transform ← knownTransform j t known
  let childTwist ← known.spatial (j.twistKey .child t)
  let qDot ← known.scalar (j.velocityKey t)
  let axis := j.screwAxis .child
  let rhs := (childTwist.cross.apply axis).scale qDot
  let equation ← exactEquation
    ([(j.twistAccelKey .child t, Dense.identity 6),
      (j.twistAccelKey .parent t, (-transform.adjoint).toDense)] ++
      if j.kind.isFixed then [] else [(j.accelerationKey t, (-axis).toColumn)])
    rhs.toList
  return ⟨[equation]⟩

/-- Torque transmission and balance of wrenches around the known poses and, if a
plane is set, restriction of the child wrench to it. -/
def linearDynamics (plan : RelationPlan α) (j : Joint α) (t : Nat) (known : Values α) :
    Except ModelError (LinearSystem Key α) := do
  let transform ← knownTransform j t known
  let transmission ← exactEquation
    [(j.wrenchKey .child t, (j.screwAxis .child).toRow),
      (j.torqueKey t, Dense.ofFn 1 1 fun _ _ => -1)] [0]
  let balance ← exactEquation
    [(j.wrenchKey .parent t, (1 : SpatialMat α).toDense),
      (j.wrenchKey .child t, transform.adjoint.transpose.toDense)] (List.replicate 6 0)
  match plan.plane with
  | some axis => do
    let restriction ← exactEquation [(j.wrenchKey .child t, axis.selection)] (List.replicate 3 0)
    return ⟨[transmission, balance, restriction]⟩
  | none => return ⟨[transmission, balance]⟩

/-- The torque fixed to a number, or nothing. -/
def fixTorque (j : Joint α) (t : Nat) : Option α → Except ModelError (LinearSystem Key α)
  | some torque => do
    let equation ← exactEquation [(j.torqueKey t, Dense.identity 1)] [torque]
    return ⟨[equation]⟩
  | none => .ok .empty

/-- The torque that forward dynamics fixes, as an equation. -/
def linearFixedTorque (_plan : RelationPlan α) (j : Joint α) (t : Nat) (known : Values α) :
    Except ModelError (LinearSystem Key α) := do
  fixTorque j t (← knownTorque j t known)

/-- The same with the torques of actuated joints given by joint name. -/
def linearFixedTorqueOf (_plan : RelationPlan α) (j : Joint α) (t : Nat)
    (torques : List (String × α)) : Except ModelError (LinearSystem Key α) :=
  match j.params.effort with
  | .actuated =>
    match torques.lookup j.name with
    | some torque => fixTorque j t (some torque)
    | none => .error (.missingVariable (j.torqueKey t))
  | .unactuated => fixTorque j t (some 0)
  | .fixed => fixTorque j t none

end RelationPlan

end Kinodynamics
