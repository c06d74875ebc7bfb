/-
# Joint maps on stored values

The maps of a joint with the coordinate, its rates and the twists read from a
store. A twist or acceleration that the store lacks counts as zero.

Key definitions: `Joint.poseOfOtherStored`, `Joint.twistFromOtherStored`,
`Joint.accelFromOtherStored`, `Joint.torqueStored`.
-/
import Kinodynamics.Values

namespace Kinodynamics

namespace Joint

variable {α : Type} [Scalar α]

/-- `poseOfOther` at the stored coordinate. -/
def poseOfOtherStored (j : Joint α) (side : Side) (values : Values α) (t : Nat) :
    Except ModelError (Pose α) := do
  let q ← values.scalar (j.angleKey t)
  return j.poseOfOther side q

/-- Jacobian of `poseOfOther` at the stored coordinate. -/
def poseOfOtherTangentStored (j : Joint α) (side : Side) (values : Values α) (t : Nat) :
    Except ModelError (Spatial α) := do
  let q ← values.scalar (j.angleKey t)
  return j.poseOfOtherTangent side q

/-- `poseInOther` at the stored coordinate. -/
def poseInOtherStored (j : Joint α) (side : Side) (values : Values α) (t : Nat) :
    Except ModelError (Pose α) :=
  j.poseOfOtherStored side.other values t

/-- The stored arguments of `twistFromOther`. -/
def twistArguments (j : Joint α) (side : Side) (values : Values α) (t : Nat) :
    Except ModelError (α × α × Spatial α) := do
  let q ← values.scalar (j.angleKey t)
  let qDot ← values.scalar (j.velocityKey t)
  let other ← values.spatialOrZero (j.twistKey side.other t)
  return (q, qDot, other)

/-- `twistFromOther` at stored arguments. -/
def twistFromOtherStored (j : Joint α) (side : Side) (values : Values α) (t : Nat) :
    Except ModelError (Spatial α) := do
  let (q, qDot, other) ← j.twistArguments side values t
  return j.twistFromOther side q qDot other

/-- Jacobians of `twistFromOther` at stored arguments. -/
def twistFromOtherPartialsStored (j : Joint α) (side : Side) (values : Values α) (t : Nat) :
    Except ModelError (TwistPartials α) := do
  let (q, qDot, other) ← j.twistArguments side values t
  return j.twistFromOtherPartials side q qDot other

/-- Twist of the other link at stored arguments. -/
def twistOfOtherStored (j : Joint α) (side : Side) (values : Values α) (t : Nat) :
    Except ModelError (Spatial α) :=
  j.twistFromOtherStored side.other values t

/-- `accelFromOther` at stored arguments. -/
def accelFromOtherStored (j : Joint α) (side : Side) (values : Values α) (t : Nat) :
    Except ModelError (Spatial α) := do
  let q ← values.scalar (j.angleKey t)
  let qDot ← values.scalar (j.velocityKey t)
  let qDDot ← values.scalar (j.accelerationKey t)
  let thisTwist ← values.spatialOrZero (j.twistKey side t)
  let otherAccel ← values.spatialOrZero (j.twistAccelKey side.other t)
  return j.accelFromOther side q qDot qDDot thisTwist otherAccel

/-- Twist acceleration of the other link at stored arguments. -/
def accelOfOtherStored (j : Joint α) (side : Side) (values : Values α) (t : Nat) :
    Except ModelError (Spatial α) :=
  j.accelFromOtherStored side.other values t

/-- `torqueOf` the stored wrench, which has to be there. -/
def torqueStored (j : Joint α) (side : Side) (values : Values α) (t : Nat) :
    Except ModelError α := do
  let wrench ← values.spatial (j.wrenchKey side t)
  return j.torqueOf side wrench

end Joint

end Kinodynamics
