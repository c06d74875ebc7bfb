/-
# Links and joints

A joint connects a parent and a child link. Its screw axis is carried into the
frames of both links when it is made:

    S_child  =  Ad(joint_child⁻¹) S
    S_parent = -Ad(joint_parent⁻¹) S

With the sign on the parent side each axis describes the motion of its own link
relative to the other one, so for either side the pose of the other link is
`exp(-S q) T(0)`, and every map below is written once for both sides.

Key definitions: `Link`, `Side`, `Joint`, `Joint.assemble`, `Joint.poseOfOther`,
`Joint.twistFromOther`, `Joint.accelFromOther`, `Joint.torqueOf`.
-/
import Kinodynamics.Joint.Motion
import Kinodynamics.Key
import Kinodynamics.Screw

namespace Kinodynamics

/-- A rigid body with a frame at its centre of mass. -/
structure Link (α : Type) where
  id : LinkId
  name : String
  mass : α
  /-- Rotational inertia about the centre of mass. -/
  inertia : Mat3 α
  /-- World pose of the frame at rest. -/
  worldPose : Pose α

/-- Inertia of the link on spatial vectors, in its own frame. -/
def Link.spatialInertia {α : Type} [Scalar α] (link : Link α) : SpatialMat α :=
  ⟨link.inertia, 0, 0, (1 : Mat3 α).scale link.mass⟩

/-- One of the two links of a joint. -/
inductive Side where
  | parent
  | child
deriving DecidableEq

/-- The other link of the joint. -/
def Side.other : Side → Side
  | parent => child
  | child => parent

@[simp] theorem Side.other_other (s : Side) : s.other.other = s := by cases s <;> rfl

/-- A joint with its frames and axes. -/
structure Joint (α : Type) where
  id : JointId
  name : String
  kind : JointMotion α
  params : JointSettings α
  parent : LinkId
  child : LinkId
  /-- World pose of the joint frame at rest. -/
  worldPose : Pose α
  /-- Parent frame in the joint frame. -/
  parentPose : Pose α
  /-- Child frame in the joint frame. -/
  childPose : Pose α
  /-- Child frame in the parent frame at coordinate zero. -/
  restPose : Pose α
  parentAxis : Spatial α
  childAxis : Spatial α

namespace Joint

variable {α : Type} [Scalar α]

/-- The joint between two links at rest, with its frame placed in the world. -/
def assemble (id : JointId) (name : String) (worldPose : Pose α) (parent child : Link α)
    (params : JointSettings α) (kind : JointMotion α) : Joint α :=
  let parentPose := worldPose.inverse.compose parent.worldPose
  let childPose := worldPose.inverse.compose child.worldPose
  { id, name, kind, params
    parent := parent.id
    child := child.id
    worldPose, parentPose, childPose
    restPose := parent.worldPose.between child.worldPose
    parentAxis := -parentPose.inverse.adjoint.apply kind.screwAxis
    childAxis := childPose.inverse.adjoint.apply kind.screwAxis }

/-- The link on a side. -/
def link (j : Joint α) : Side → LinkId
  | .parent => j.parent
  | .child => j.child

/-- The side that a link is on, if it is one of the two. -/
def side? (j : Joint α) (link : LinkId) : Option Side :=
  if link = j.child then some .child else if link = j.parent then some .parent else none

/-- Screw axis in the frame of the link on a side. -/
def screwAxis (j : Joint α) : Side → Spatial α
  | .parent => j.parentAxis
  | .child => j.childAxis

/-! ### Poses -/

/-- Child frame in the parent frame. -/
def childInParent (j : Joint α) (q : α) : Pose α := j.restPose.compose (Screw.exp j.childAxis q)

/-- Pose of the other link in the frame of the link on a side. -/
def poseOfOther (j : Joint α) : Side → α → Pose α
  | .parent, q => j.childInParent q
  | .child, q => (j.childInParent q).inverse

/-- Jacobian of `poseOfOther` in the coordinate. -/
def poseOfOtherTangent (j : Joint α) : Side → α → Spatial α
  | .parent, q =>
    (j.restPose.composeJacobians (Screw.exp j.childAxis q)).second.apply
      (Screw.expJacobian j.childAxis q)
  | .child, q =>
    (j.childInParent q).inverseJacobian.apply
      ((j.restPose.composeJacobians (Screw.exp j.childAxis q)).second.apply
        (Screw.expJacobian j.childAxis q))

/-- Pose of the link on a side in the frame of the other link. -/
def poseInOther (j : Joint α) (side : Side) (q : α) : Pose α := j.poseOfOther side.other q

/-- Jacobian of `poseInOther` in the coordinate. -/
def poseInOtherTangent (j : Joint α) (side : Side) (q : α) : Spatial α :=
  j.poseOfOtherTangent side.other q

/-- Derivative of the adjoint matrix of `poseOfOther` in the coordinate. -/
def adjointRate (j : Joint α) (side : Side) (q : α) : SpatialMat α :=
  Screw.adjointRate (j.screwAxis side) (j.poseOfOther side q)

/-! ### Twists -/

/-- Twist of the link on a side from the twist of the other link. -/
def twistFromOther (j : Joint α) (side : Side) (q qDot : α) (other : Spatial α) : Spatial α :=
  (j.poseOfOther side q).adjoint.apply other + (j.screwAxis side).scale qDot

/-- Jacobians of `twistFromOther` in the coordinate, its rate, and the other twist. -/
structure TwistPartials (α : Type) where
  q : Spatial α
  qDot : Spatial α
  other : SpatialMat α

/-- Jacobians of `twistFromOther`. -/
def twistFromOtherPartials (j : Joint α) (side : Side) (q _qDot : α) (other : Spatial α) :
    TwistPartials α where
  q := (j.adjointRate side q).apply other
  qDot := j.screwAxis side
  other := (j.poseOfOther side q).adjoint

/-- Twist of the other link from the twist of the link on a side. -/
def twistOfOther (j : Joint α) (side : Side) (q qDot : α) (this : Spatial α) : Spatial α :=
  j.twistFromOther side.other q qDot this

/-! ### Accelerations -/

/-- Twist acceleration of the link on a side from its twist and the acceleration
of the other link. -/
def accelFromOther (j : Joint α) (side : Side) (q qDot qDDot : α)
    (thisTwist otherAccel : Spatial α) : Spatial α :=
  (j.poseOfOther side q).adjoint.apply otherAccel
    + thisTwist.cross.apply ((j.screwAxis side).scale qDot)
    + (j.screwAxis side).scale qDDot

/-- Jacobians of `accelFromOther` in the coordinate, its first and second rate, the
twist of the link, and the acceleration of the other link. -/
structure AccelPartials (α : Type) where
  q : Spatial α
  qDot : Spatial α
  qDDot : Spatial α
  thisTwist : SpatialMat α
  otherAccel : SpatialMat α

/-- Jacobians of `accelFromOther`. -/
def accelFromOtherPartials (j : Joint α) (side : Side) (q qDot _qDDot : α)
    (thisTwist otherAccel : Spatial α) : AccelPartials α where
  q := (j.adjointRate side q).apply otherAccel
  qDot := thisTwist.cross.apply (j.screwAxis side)
  qDDot := j.screwAxis side
  thisTwist := -((j.screwAxis side).scale qDot).cross
  otherAccel := (j.poseOfOther side q).adjoint

/-- Twist acceleration of the other link from its twist and the acceleration of
the link on a side. -/
def accelOfOther (j : Joint α) (side : Side) (q qDot qDDot : α)
    (otherTwist thisAccel : Spatial α) : Spatial α :=
  j.accelFromOther side.other q qDot qDDot otherTwist thisAccel

/-! ### Torques -/

/-- Torque that a wrench on the link on a side gives the joint. -/
def torqueOf (j : Joint α) (side : Side) (wrench : Spatial α) : α := (j.screwAxis side).dot wrench

/-! ### Variables -/

def angleKey (j : Joint α) (t : Nat) : Key := .angle j.id t

def velocityKey (j : Joint α) (t : Nat) : Key := .velocity j.id t

def accelerationKey (j : Joint α) (t : Nat) : Key := .acceleration j.id t

def torqueKey (j : Joint α) (t : Nat) : Key := .torque j.id t

/-- The wrench on the link on a side through the joint. -/
def wrenchKey (j : Joint α) (side : Side) (t : Nat) : Key := .wrench (j.link side) j.id t

def poseKey (j : Joint α) (side : Side) (t : Nat) : Key := .pose (j.link side) t

def twistKey (j : Joint α) (side : Side) (t : Nat) : Key := .twist (j.link side) t

def twistAccelKey (j : Joint α) (side : Side) (t : Nat) : Key := .twistAccel (j.link side) t

end Joint

end Kinodynamics
