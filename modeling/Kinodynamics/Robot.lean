/-
# Robots

A robot is a list of links and a list of joints; an id is a place in its list.
Names are unique among links and among joints, and a table beside each list leads
from the names to the ids. A joint is added between two existing, distinct links
only, so which side of a joint a link is on can be asked of the robot.

Key definitions: `Robot`, `Robot.addLink`, `Robot.addJoint`, `Robot.link`,
`Robot.joint`, `Robot.side`, `Robot.jointsAt`, `TopologyError`.
-/
import Kinodynamics.Joint.Basic

namespace Kinodynamics

/-- Why a link or joint cannot be added or found. -/
inductive TopologyError where
  | duplicateLink (name : String)
  | duplicateJoint (name : String)
  | selfConnection (name : String) (link : LinkId)
  | unknownLink (id : LinkId)
  | unknownLinkName (name : String)
  | unknownJoint (id : JointId)
  | unknownJointName (name : String)
  | notAdjacent (link : LinkId) (joint : String)

/-- What the error is called. -/
def TopologyError.message : TopologyError → String
  | duplicateLink name => "duplicate link name '" ++ name ++ "'"
  | duplicateJoint name => "duplicate joint name '" ++ name ++ "'"
  | selfConnection name link =>
    "joint '" ++ name ++ "' connects link " ++ toString link.index ++ " to itself"
  | unknownLink id => "unknown link id " ++ toString id.index
  | unknownLinkName name => "unknown link '" ++ name ++ "'"
  | unknownJoint id => "unknown joint id " ++ toString id.index
  | unknownJointName name => "unknown joint '" ++ name ++ "'"
  | notAdjacent link joint =>
    "link " ++ toString link.index ++ " is not adjacent to joint '" ++ joint ++ "'"

/-- Links and joints in the order in which they were added. -/
structure Robot (α : Type) where
  links : List (Link α)
  joints : List (Joint α)
  /-- The ids of the links by their names. -/
  linkIds : List (String × LinkId)
  /-- The ids of the joints by their names. -/
  jointIds : List (String × JointId)

namespace Robot

variable {α : Type}

/-- No links and no joints. -/
def empty : Robot α := ⟨[], [], [], []⟩

/-! ### Looking up -/

def link (r : Robot α) (id : LinkId) : Except TopologyError (Link α) :=
  match r.links[id.index]? with
  | some link => .ok link
  | none => .error (.unknownLink id)

def linkNamed (r : Robot α) (name : String) : Except TopologyError (Link α) :=
  match r.linkIds.lookup name with
  | some id => r.link id
  | none => .error (.unknownLinkName name)

def joint (r : Robot α) (id : JointId) : Except TopologyError (Joint α) :=
  match r.joints[id.index]? with
  | some joint => .ok joint
  | none => .error (.unknownJoint id)

def jointNamed (r : Robot α) (name : String) : Except TopologyError (Joint α) :=
  match r.jointIds.lookup name with
  | some id => r.joint id
  | none => .error (.unknownJointName name)

/-- The joints at a link, in the order in which they were added. -/
def jointsAt (r : Robot α) (link : LinkId) : List (Joint α) :=
  r.joints.filter fun joint => link = joint.parent || link = joint.child

/-- A joint with the side that a link is on. -/
def side (r : Robot α) (joint : JointId) (link : LinkId) :
    Except TopologyError (Joint α × Side) := do
  let joint ← r.joint joint
  match joint.side? link with
  | some side => return (joint, side)
  | none => .error (.notAdjacent link joint.name)

/-- The other link of a joint. -/
def opposite (r : Robot α) (joint : JointId) (link : LinkId) : Except TopologyError LinkId := do
  let (joint, side) ← r.side joint link
  return joint.link side.other

/-- The link is the child of the joint. -/
def isChild (r : Robot α) (joint : JointId) (link : LinkId) : Except TopologyError Bool := do
  let (_, side) ← r.side joint link
  return side = .child

/-! ### Adding -/

/-- The robot with one more link, and its id. -/
def addLink (r : Robot α) (name : String) (mass : α) (inertia : Mat3 α) (worldPose : Pose α) :
    Except TopologyError (Robot α × LinkId) :=
  if (r.linkIds.lookup name).isSome then .error (.duplicateLink name)
  else
    let id : LinkId := ⟨r.links.length⟩
    .ok ({ r with links := r.links ++ [⟨id, name, mass, inertia, worldPose⟩],
                  linkIds := (name, id) :: r.linkIds }, id)

/-- The robot with one more joint, and its id. -/
def addJoint [Scalar α] (r : Robot α) (name : String) (worldPose : Pose α) (parent child : LinkId)
    (params : JointSettings α) (kind : JointMotion α) :
    Except TopologyError (Robot α × JointId) := do
  if (r.jointIds.lookup name).isSome then .error (.duplicateJoint name)
  if parent = child then .error (.selfConnection name parent)
  let id : JointId := ⟨r.joints.length⟩
  let parent ← r.link parent
  let child ← r.link child
  let joint := Joint.assemble id name worldPose parent child params kind
  return ({ r with joints := r.joints ++ [joint], jointIds := (name, id) :: r.jointIds }, id)

end Robot

end Kinodynamics
