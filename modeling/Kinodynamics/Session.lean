/-
# Sessions

A session holds a robot, values, a plan, the relations collected so far and a
linear system. Its operations answer and give the next session; one that fails
leaves the session as it was, but for `update`, which keeps the values it moved
before it failed.

Key definitions: `Session`, `Session.drive`, `Session.addFactor`, `Session.build`,
`Session.linearize`, `Session.systemError`, `Session.update`, `EliminationReport`.
-/
import Kinodynamics.Gaussian.Elimination
import Kinodynamics.Joint.Stored
import Kinodynamics.Joint.Relations

namespace Kinodynamics

/-! ### Elimination with its solution -/

/-- A net with what it solves to and the error of the system there. -/
structure EliminationReport (κ α : Type) where
  net : BayesNet κ α
  solution : Outcome (EliminationError κ) (Solution κ α)
  error : Outcome (EliminationError κ) α

/-- Eliminate, solve, and measure the solution. -/
def EliminationReport.make {κ α : Type} [Scalar α] [DecidableEq κ] [LT κ] [DecidableLT κ]
    (D : Decompositions α) (s : LinearSystem κ α) (ordering : List κ) :
    Outcome (EliminationError κ) (EliminationReport κ α) := do
  let net ← eliminate D s ordering
  let solution := net.solve
  return ⟨net, solution, do Outcome.ofExcept (s.error (← solution))⟩

/-! ### State -/

/-- The state between two operations. -/
structure Session (α : Type) where
  robot : Robot α
  values : Values α
  plan : RelationPlan α
  objective : Objective α
  system : LinearSystem Key α

namespace Session

variable {α : Type} [Scalar α]

/-- Everything empty, the standard plan. -/
def start : Session α := ⟨.empty, .empty, .standard, .empty, .empty⟩

/-- A topology error as an outcome. -/
def topology {β : Type} (result : Except TopologyError β) : Outcome ModelError β :=
  (Outcome.ofExcept result).wrap .topology

/-- The motion of a joint and of its parent link at one time. -/
structure Drive (α : Type) where
  q : α
  qDot : α
  qDDot : α
  /-- Pose of the parent link. -/
  pose : Pose α
  /-- Twist of the parent link. -/
  twist : Spatial α
  /-- Twist acceleration of the parent link. -/
  accel : Spatial α
  /-- Wrench on the child link. -/
  wrench : Spatial α

/-- The values of all variables of a joint at one time that a motion gives. -/
def Drive.entries (d : Drive α) (j : Joint α) (t : Nat) : List (Key × Value α) :=
  let step := j.poseOfOther .parent d.q
  let childTwist := j.twistFromOther .child d.q d.qDot d.twist
  [(j.poseKey .parent t, .pose d.pose),
   (j.poseKey .child t, .pose (d.pose.compose step)),
   (j.twistKey .parent t, .spatial d.twist),
   (j.twistKey .child t, .spatial childTwist),
   (j.twistAccelKey .parent t, .spatial d.accel),
   (j.twistAccelKey .child t,
     .spatial (j.accelFromOther .child d.q d.qDot d.qDDot childTwist d.accel)),
   (j.wrenchKey .child t, .spatial d.wrench),
   (j.wrenchKey .parent t, .spatial (-step.carryWrench d.wrench)),
   (j.angleKey t, .scalar d.q),
   (j.velocityKey t, .scalar d.qDot),
   (j.accelerationKey t, .scalar d.qDDot),
   (j.torqueKey t, .scalar (j.torqueOf .child d.wrench))]

/-- Store the values that a motion of a joint gives. -/
def drive (s : Session α) (joint : JointId) (t : Nat) (d : Drive α) :
    Outcome ModelError (Session α) := do
  let joint ← topology (s.robot.joint joint)
  return { s with values := s.values.insertAll (d.entries joint t) }

/-! ### Relations -/

/-- The families of nonlinear relations of a joint. -/
inductive Family where
  | pose
  | velocity
  | acceleration
  | dynamics
  | limit
  /-- All of the above. -/
  | joint
  /-- The torque that forward dynamics fixes. -/
  | fixedTorque

/-- The relations of a family. -/
def familyObjective (s : Session α) (family : Family) (j : Joint α) (t : Nat) :
    Except ModelError (Objective α) :=
  match family with
  | .pose => .ok (s.plan.loopClosure j t)
  | .velocity => .ok (s.plan.twistComposition j t)
  | .acceleration => .ok (s.plan.accelComposition j t)
  | .dynamics => .ok (s.plan.wrenchTransmission j t)
  | .limit => .ok (s.plan.limitPenalties j t)
  | .joint => .ok (s.plan.allFamilies j t)
  | .fixedTorque => s.plan.fixedTorque j t s.values

/-- Bind a factor to variables and append the relation. The noise has to have one
deviation for each row of the factor. -/
def addFactor (s : Session α) (keys : List Key) (factor : Factor α) (noise : Noise α) :
    Outcome ModelError (Session α) := do
  let relation ← Outcome.ofOption (Relation.make? keys factor noise)
  return { s with objective := s.objective.append ⟨[relation]⟩ }

/-- Append the relations of a family. -/
def build (s : Session α) (family : Family) (joint : JointId) (t : Nat) :
    Outcome ModelError (Session α) := do
  let joint ← topology (s.robot.joint joint)
  let relations ← Outcome.ofExcept (s.familyObjective family joint t)
  return { s with objective := s.objective.append relations }

/-- Append equations to the linear system. -/
def extendSystem (s : Session α) (system : LinearSystem Key α) : Session α :=
  { s with system := s.system.append system }

/-- Linearise the relations at the values and append the outcome to the system. -/
def linearize (s : Session α) : Outcome ModelError (Session α × LinearSystem Key α) := do
  let system ← s.objective.linearize s.values
  return (s.extendSystem system, system)

/-- The families of equations of a joint. -/
inductive LinearFamily (α : Type) where
  | acceleration
  | dynamics
  | fixedTorque
  /-- The torque that forward dynamics fixes, from torques by joint name. -/
  | fixedTorqueOf (torques : List (String × α))

/-- Append the equations of a family to the system. -/
def buildLinear (s : Session α) (family : LinearFamily α) (joint : JointId) (t : Nat) :
    Outcome ModelError (Session α × LinearSystem Key α) := do
  let joint ← topology (s.robot.joint joint)
  let system ← Outcome.ofExcept <| match family with
    | .acceleration => s.plan.linearAcceleration joint t s.values
    | .dynamics => s.plan.linearDynamics joint t s.values
    | .fixedTorque => s.plan.linearFixedTorque joint t s.values
    | .fixedTorqueOf torques => s.plan.linearFixedTorqueOf joint t torques
  return (s.extendSystem system, system)

/-! ### The linear system -/

/-- The parameters that the store has for some of the keys. -/
def storedParameters (values : Values α) (keys : List Key) :
    Except ModelError (Solution Key α) :=
  (keys.filter fun key => values.contains key).foldlM (fun x key => do
    return x.insert key (← values.parameters key)) Assignment.empty

/-- The error of the system at the stored parameters of its variables. -/
def systemError (s : Session α) :
    Except ModelError (Except (EliminationError Key) α) := do
  let x ← storedParameters s.values s.system.keys
  return s.system.error x

/-- Eliminate the system. -/
def eliminate (D : Decompositions α) (s : Session α) (ordering : List Key) :
    Outcome (EliminationError Key) (EliminationReport Key α) :=
  EliminationReport.make D s.system ordering

/-- Move the values by the solution, in the order of the net, up to the first one
that cannot be moved. -/
def retractAll (x : Solution Key α) : List Key → Values α → Values α × Outcome ModelError Unit
  | [], values => (values, .ok ())
  | key :: keys, values =>
    match values.retract key ((x.get? key).getD []) with
    | .ok values => retractAll x keys values
    | .error e => (values, .error e)

/-- Eliminate, solve, and move the values by the solution. -/
def update (D : Decompositions α) (s : Session α) (ordering : List Key) :
    Outcome (EliminationError Key) (Session α × Outcome ModelError (Solution Key α)) := do
  let net ← Kinodynamics.eliminate D s.system ordering
  let x ← net.solve
  let (values, result) := retractAll x net.ordering s.values
  return ({ s with values := values }, result.map fun _ => x)

end Session

end Kinodynamics
