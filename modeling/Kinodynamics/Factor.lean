/-
# Factors

A factor maps the parameters of its variables, in order, to a residual that
vanishes where the variables agree, with its Jacobian in the tangent directions of
all variables side by side.

Parameters of a pose are its seven numbers; of a twist, an acceleration or a wrench
its six; of a coordinate or a torque the number itself. A factor has no answer for
parameters that are too few or too short.

Key definitions: `PlaneNormal`, `Factor`, `Factor.dim`, `Linearization`,
`Factor.linearize?`.
-/
import Kinodynamics.Joint.Basic

namespace Kinodynamics

/-- The normal of the plane to which motion is restricted. -/
inductive PlaneNormal where
  | x
  | y
  | z
deriving DecidableEq

namespace PlaneNormal

/-- The name of the axis. -/
def text : PlaneNormal → String
  | x => "x"
  | y => "y"
  | z => "z"

/-- The components of a wrench that vanish: moments out of the plane and the force
along its normal. -/
def components : PlaneNormal → List Nat
  | x => [1, 2, 3]
  | y => [0, 2, 4]
  | z => [0, 1, 5]

/-- The matrix that selects these components. -/
def selection {α : Type} [Scalar α] (axis : PlaneNormal) : Dense α :=
  Dense.ofFn 3 6 fun i j => if axis.components[i]? = some j then 1 else 0

end PlaneNormal

/-- A residual with analytic derivatives. -/
inductive Factor (α : Type) where
  /-- The child pose is the parent pose moved through the joint. -/
  | pose (joint : Joint α)
  /-- The child twist follows from the parent twist and the joint rate. -/
  | twist (joint : Joint α)
  /-- The child acceleration follows from the parent acceleration, the child twist
  and the joint motion. -/
  | twistAccel (joint : Joint α)
  /-- The torque is the child wrench along the screw axis. -/
  | torque (joint : Joint α)
  /-- The wrenches on the two links balance. -/
  | wrenchBalance (joint : Joint α)
  /-- The wrench stays in a plane. -/
  | planar (axis : PlaneNormal)
  /-- The number stays between two bounds. -/
  | limit (lower upper : α)
  /-- The variable has the given parameters. -/
  | prior (value : List α)

/-- A residual and its Jacobian. -/
structure Linearization (α : Type) where
  residual : List α
  jacobian : Dense α

namespace Factor

variable {α : Type} [Scalar α]

/-- The bounds of a limit, moved inwards by its threshold. -/
def ofLimit (l : Bounds α) : Factor α :=
  limit (l.lower + l.threshold) (l.upper - l.threshold)

/-- The number of rows of the residual. -/
def dim : Factor α → Nat
  | pose _ | twist _ | twistAccel _ | wrenchBalance _ => 6
  | torque _ | limit _ _ => 1
  | planar _ => 3
  | prior value => value.length

/-- Child pose against the parent pose moved through the joint. -/
def linearizePose (j : Joint α) (parent child : Pose α) (q : α) : Linearization α :=
  let step := j.poseOfOther .parent q
  let predicted := parent.compose step
  let difference := child.between predicted
  let composed := parent.composeJacobians step
  let related := child.betweenJacobians predicted
  let logarithm := difference.logJacobian
  let logPredicted := logarithm * related.second
  let ofPoses := (logPredicted * composed.first).toDense.beside (logarithm * related.first).toDense
  { residual := difference.log.toList
    jacobian := ofPoses.beside
      ((logPredicted * composed.second).apply (j.poseOfOtherTangent .parent q)).toColumn }

/-- Child twist against the one that the parent twist gives. -/
def linearizeTwist (j : Joint α) (parent child : Spatial α) (q qDot : α) : Linearization α :=
  let h := j.twistFromOtherPartials .child q qDot parent
  { residual := (child - j.twistFromOther .child q qDot parent).toList
    jacobian := (((-h.other).toDense.beside (1 : SpatialMat α).toDense).beside
      (-h.q).toColumn).beside (-h.qDot).toColumn }

/-- Child acceleration against the one that the parent acceleration gives. -/
def linearizeTwistAccel (j : Joint α) (childTwist parentAccel childAccel : Spatial α)
    (q qDot qDDot : α) : Linearization α :=
  let h := j.accelFromOtherPartials .child q qDot qDDot childTwist parentAccel
  { residual := (childAccel - j.accelFromOther .child q qDot qDDot childTwist parentAccel).toList
    jacobian := (((((-h.thisTwist).toDense.beside (-h.otherAccel).toDense).beside
      (1 : SpatialMat α).toDense).beside (-h.q).toColumn).beside (-h.qDot).toColumn).beside
      (-h.qDDot).toColumn }

/-- Torque of the child wrench against the torque. -/
def linearizeTorque (j : Joint α) (wrench : Spatial α) (torque : α) : Linearization α :=
  { residual := [j.torqueOf .child wrench - torque]
    jacobian := (j.screwAxis .child).toRow.beside (Dense.ofFn 1 1 fun _ _ => -1) }

/-- Parent wrench plus the child wrench carried to the parent frame. -/
def linearizeWrenchBalance (j : Joint α) (parent child : Spatial α) (q : α) : Linearization α :=
  let adjoint := (j.poseOfOther .child q).adjoint
  { residual := (parent + adjoint.transpose.apply child).toList
    jacobian := ((1 : SpatialMat α).toDense.beside adjoint.transpose.toDense).beside
      ((j.adjointRate .child q).transpose.apply child).toColumn }

/-- How far a number is outside its bounds. -/
def limitResidual (lower upper x : α) : α :=
  if x < lower then lower - x else if upper < x then x - upper else 0

/-- The slope of `limitResidual`. -/
def limitSlope (lower upper x : α) : α :=
  if x < lower then -1 else if upper < x then 1 else 0

/-- The residual and the Jacobian at the parameters of the variables; absent if
they do not fit. Parameters that the factor does not use are not read. -/
def linearize? (f : Factor α) (params : List (List α)) : Option (Linearization α) :=
  match f, params with
  | pose j, parent :: child :: (q :: _) :: _ => do
    return linearizePose j (← Pose.ofList? parent) (← Pose.ofList? child) q
  | twist j, parent :: child :: (q :: _) :: (qDot :: _) :: _ => do
    return linearizeTwist j (← Spatial.ofList? parent) (← Spatial.ofList? child) q qDot
  | twistAccel j,
      childTwist :: parent :: child :: (q :: _) :: (qDot :: _) :: (qDDot :: _) :: _ => do
    return linearizeTwistAccel j (← Spatial.ofList? childTwist) (← Spatial.ofList? parent)
      (← Spatial.ofList? child) q qDot qDDot
  | torque j, wrench :: (tau :: _) :: _ => do
    return linearizeTorque j (← Spatial.ofList? wrench) tau
  | wrenchBalance j, parent :: child :: (q :: _) :: _ => do
    return linearizeWrenchBalance j (← Spatial.ofList? parent) (← Spatial.ofList? child) q
  | planar axis, wrench :: _ => do
    let wrench ← Spatial.ofList? wrench
    return ⟨axis.selection.mulVec wrench.toList, axis.selection⟩
  | limit lower upper, (x :: _) :: _ =>
    some ⟨[limitResidual lower upper x], Dense.ofFn 1 1 fun _ _ => limitSlope lower upper x⟩
  | prior value, param :: _ =>
    if param.length = value.length then
      some ⟨List.zipWith (· - ·) param value, Dense.identity value.length⟩
    else none
  | _, _ => none

end Factor

end Kinodynamics
