/-
# Settings as JSON

The JSON forms of settings, joint kinds, planes and keys.

A record is an object with its fields by name, or a list of its fields in order.
Unknown fields of an object are skipped and no known one may be repeated. A record
of settings has defaults for missing fields and for the end of a short list; any
other record needs all of them. A case is its name if it carries nothing, else an
object with its name as the only field; a case that carries nothing may also carry
`null`.

Key definitions: `Document.fields?`, `Document.case?`, `Schema.noiseSettings?`,
`Schema.jointParams?`, `Schema.scalarLimit?`, `Schema.jointKind?`,
`Schema.planarAxis?`, `Schema.key?`, `Schema.jointKindJson`, `Schema.planarAxisJson`,
`Schema.keyJson`.
-/
import Kinodynamics.Factor
import Kinodynamics.NoiseSettings
import Kinodynamics.Text.Document
import Kinodynamics.Text.Json

namespace Kinodynamics

namespace Document

/-- The value of a field that occurs at most once; absent if it occurs twice. -/
def field? (name : String) (fields : List (Option String × Document)) : Option (Option Document) :=
  match fields.filter fun f => f.1 = some name with
  | [] => some none
  | [f] => some (some f.2)
  | _ => none

/-- The values of the named fields of a record, each if it is there. -/
def fields? (names : List String) : Document → Option (List (Option Document))
  | list items =>
    if items.length ≤ names.length then
      some ((List.range names.length).map fun i => items[i]?)
    else none
  | object fields =>
    if fields.all fun f => f.1.isSome then names.mapM fun name => field? name fields
    else none
  | _ => none

/-- The name of a case with what it carries. -/
def case? : Document → Option (String × Option Document)
  | string (some name) => some (name, none)
  | object [(some name, value)] => some (name, some value)
  | _ => none

/-- A number of 64 bits without a sign. -/
def nat? : Document → Option Nat
  | number n => n.toNat?
  | _ => none

/-- A binary64 number. -/
def float? : Document → Option Float
  | number n => n.toFloat?
  | _ => none

/-- A list of three numbers. -/
def vec3? : Document → Option (Vec3 Float)
  | list [x, y, z] => do return ⟨← x.float?, ← y.float?, ← z.float?⟩
  | _ => none

end Document

namespace Schema

open Document

/-- A field that has a default. -/
def orDefault {β : Type} (read : Document → Option β) (default : β) : Option Document → Option β
  | some d => read d
  | none => some default

/-! ### Reading -/

def noiseSettings? (d : Document) : Option (NoiseSettings Float) := do
  let standard : NoiseSettings Float := .standard
  match ← d.fields? ["pose_sigma", "twist_sigma", "wrench_sigma", "torque_sigma",
      "joint_limit_sigma"] with
  | [pose, twist, wrench, torque, jointLimit] =>
    return {
      pose := ← orDefault float? standard.pose pose
      twist := ← orDefault float? standard.twist twist
      wrench := ← orDefault float? standard.wrench wrench
      torque := ← orDefault float? standard.torque torque
      jointLimit := ← orDefault float? standard.jointLimit jointLimit }
  | _ => none

def scalarLimit? (d : Document) : Option (Bounds Float) := do
  match ← d.fields? ["lower", "upper", "threshold"] with
  | [some lower, some upper, some threshold] =>
    return ⟨← lower.float?, ← upper.float?, ← threshold.float?⟩
  | _ => none

/-- A case that carries nothing. -/
def unitCase? : Document → Option String
  | d => match d.case? with
    | some (name, none) => some name
    | some (name, some null) => some name
    | _ => none

def effortType? (d : Document) : Option EffortType := do
  match ← unitCase? d with
  | "Actuated" => return .actuated
  | "Unactuated" => return .unactuated
  | "Fixed" => return .fixed
  | _ => none

def jointParams? (d : Document) : Option (JointSettings Float) := do
  let standard : JointSettings Float := .standard
  match ← d.fields? ["effort_type", "angle_limits", "velocity_limits", "acceleration_limits",
      "torque_limits"] with
  | [effort, angle, velocity, acceleration, torque] =>
    return {
      effort := ← orDefault effortType? standard.effort effort
      angle := ← orDefault scalarLimit? standard.angle angle
      velocity := ← orDefault scalarLimit? standard.velocity velocity
      acceleration := ← orDefault scalarLimit? standard.acceleration acceleration
      torque := ← orDefault scalarLimit? standard.torque torque }
  | _ => none

def jointKind? (d : Document) : Option (JointMotion Float) := do
  match ← d.case? with
  | ("Revolute", some carried) =>
    match ← carried.fields? ["axis"] with
    | [some axis] => return .revolute (← axis.vec3?)
    | _ => none
  | ("Prismatic", some carried) =>
    match ← carried.fields? ["axis"] with
    | [some axis] => return .prismatic (← axis.vec3?)
    | _ => none
  | ("Screw", some carried) =>
    match ← carried.fields? ["axis", "pitch"] with
    | [some axis, some pitch] => return .screw (← axis.vec3?) (← pitch.float?)
    | _ => none
  | ("Fixed", none) => return .fixed
  | ("Fixed", some null) => return .fixed
  | _ => none

def planarAxis? (d : Document) : Option PlaneNormal := do
  match ← unitCase? d with
  | "X" => return .x
  | "Y" => return .y
  | "Z" => return .z
  | _ => none

/-- The named fields of a record, all of them numbers without a sign. -/
def nats? (names : List String) (d : Document) : Option (List Nat) := do
  (← d.fields? names).mapM fun field => field.bind nat?

def key? (d : Document) : Option Key := do
  let (name, carried) ← d.case?
  let carried ← carried
  match name with
  | "Pose" =>
    match ← nats? ["link", "t"] carried with
    | [link, t] => return .pose ⟨link⟩ t
    | _ => none
  | "Twist" =>
    match ← nats? ["link", "t"] carried with
    | [link, t] => return .twist ⟨link⟩ t
    | _ => none
  | "TwistAccel" =>
    match ← nats? ["link", "t"] carried with
    | [link, t] => return .twistAccel ⟨link⟩ t
    | _ => none
  | "Wrench" =>
    match ← nats? ["link", "joint", "t"] carried with
    | [link, joint, t] => return .wrench ⟨link⟩ ⟨joint⟩ t
    | _ => none
  | "JointAngle" =>
    match ← nats? ["joint", "t"] carried with
    | [joint, t] => return .angle ⟨joint⟩ t
    | _ => none
  | "JointVel" =>
    match ← nats? ["joint", "t"] carried with
    | [joint, t] => return .velocity ⟨joint⟩ t
    | _ => none
  | "JointAccel" =>
    match ← nats? ["joint", "t"] carried with
    | [joint, t] => return .acceleration ⟨joint⟩ t
    | _ => none
  | "Torque" =>
    match ← nats? ["joint", "t"] carried with
    | [joint, t] => return .torque ⟨joint⟩ t
    | _ => none
  | _ => none

/-! ### Writing -/

/-- A number in the fewest digits. -/
def floatJson (x : Float) : JsonText := .raw (Decimal.shortest x)

def vec3Json (v : Vec3 Float) : JsonText := .list (v.toList.map floatJson)

/-- A case that carries a record. -/
def caseJson (name : String) (fields : List (String × JsonText)) : JsonText :=
  .object [(name, .object fields)]

def jointKindJson : JointMotion Float → JsonText
  | .revolute axis => caseJson "Revolute" [("axis", vec3Json axis)]
  | .prismatic axis => caseJson "Prismatic" [("axis", vec3Json axis)]
  | .screw axis pitch => caseJson "Screw" [("axis", vec3Json axis), ("pitch", floatJson pitch)]
  | .fixed => .string "Fixed"

def planarAxisJson : PlaneNormal → JsonText
  | .x => .string "X"
  | .y => .string "Y"
  | .z => .string "Z"

def linkField (link : LinkId) : String × JsonText := ("link", .nat link.index)

def jointField (joint : JointId) : String × JsonText := ("joint", .nat joint.index)

def timeField (t : Nat) : String × JsonText := ("t", .nat t)

def keyJson : Key → JsonText
  | .pose link t => caseJson "Pose" [linkField link, timeField t]
  | .twist link t => caseJson "Twist" [linkField link, timeField t]
  | .twistAccel link t => caseJson "TwistAccel" [linkField link, timeField t]
  | .wrench link joint t => caseJson "Wrench" [linkField link, jointField joint, timeField t]
  | .angle joint t => caseJson "JointAngle" [jointField joint, timeField t]
  | .velocity joint t => caseJson "JointVel" [jointField joint, timeField t]
  | .acceleration joint t => caseJson "JointAccel" [jointField joint, timeField t]
  | .torque joint t => caseJson "Torque" [jointField joint, timeField t]

end Schema

end Kinodynamics
