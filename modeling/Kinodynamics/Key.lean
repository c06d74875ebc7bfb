/-
# Variables

A key names a variable by the kind of quantity, the link or joint it belongs to,
and the time step. Keys are ordered by kind, then by their ids, then by time.

Key definitions: `LinkId`, `JointId`, `ValueKind`, `Key`, `Key.dim`,
`Key.valueKind`, `Key.time`, `Key.code`, `Key.text`.
-/
namespace Kinodynamics

/-- The place of a link in its robot. -/
@[ext]
structure LinkId where
  index : Nat
deriving DecidableEq

/-- The place of a joint in its robot. -/
@[ext]
structure JointId where
  index : Nat
deriving DecidableEq

/-- What a variable ranges over. -/
inductive ValueKind where
  | scalar
  | spatial
  | pose
deriving DecidableEq

/-- The name of the kind. -/
def ValueKind.text : ValueKind → String
  | scalar => "scalar"
  | spatial => "vector6"
  | pose => "pose"

/-- A variable at time step `t`. -/
inductive Key where
  /-- World pose of the frame at the centre of mass of a link. -/
  | pose (link : LinkId) (t : Nat)
  /-- Twist of a link, in its own frame. -/
  | twist (link : LinkId) (t : Nat)
  /-- Rate of change of the twist of a link, in its own frame. -/
  | twistAccel (link : LinkId) (t : Nat)
  /-- Wrench on a link through a joint, in the frame of the link. -/
  | wrench (link : LinkId) (joint : JointId) (t : Nat)
  /-- Coordinate of a joint. -/
  | angle (joint : JointId) (t : Nat)
  /-- Rate of a joint. -/
  | velocity (joint : JointId) (t : Nat)
  /-- Acceleration of a joint. -/
  | acceleration (joint : JointId) (t : Nat)
  /-- Torque of a joint. -/
  | torque (joint : JointId) (t : Nat)
deriving DecidableEq

namespace Key

/-- What the variable ranges over. -/
def valueKind : Key → ValueKind
  | pose .. => .pose
  | twist .. | twistAccel .. | wrench .. => .spatial
  | angle .. | velocity .. | acceleration .. | torque .. => .scalar

/-- The number of directions in which the variable can move. -/
def dim : Key → Nat
  | pose .. | twist .. | twistAccel .. | wrench .. => 6
  | angle .. | velocity .. | acceleration .. | torque .. => 1

/-- The time step. -/
def time : Key → Nat
  | pose _ t | twist _ t | twistAccel _ t | wrench _ _ t => t
  | angle _ t | velocity _ t | acceleration _ t | torque _ t => t

/-! ### Order -/

/-- The kind, the ids and the time as numbers, first things first. -/
def code : Key → List Nat
  | pose link t => [0, link.index, t]
  | twist link t => [1, link.index, t]
  | twistAccel link t => [2, link.index, t]
  | wrench link joint t => [3, link.index, joint.index, t]
  | angle joint t => [4, joint.index, t]
  | velocity joint t => [5, joint.index, t]
  | acceleration joint t => [6, joint.index, t]
  | torque joint t => [7, joint.index, t]

/-- Keys with one code are equal. -/
theorem code_injective {k l : Key} (h : k.code = l.code) : k = l := by
  cases k <;> cases l <;> simp_all [code, LinkId.ext_iff, JointId.ext_iff]

/-- Keys are in the lexicographic order of their codes. -/
instance : LT Key := ⟨fun k l => k.code < l.code⟩

instance (k l : Key) : Decidable (k < l) := inferInstanceAs (Decidable (k.code < l.code))

theorem lt_iff_code_lt {k l : Key} : k < l ↔ k.code < l.code := Iff.rfl

/-! ### Text -/

/-- The letter of the quantity with the ids and the time. -/
def text : Key → String
  | pose link t => s!"p(l={link.index}, t={t})"
  | twist link t => s!"V(l={link.index}, t={t})"
  | twistAccel link t => s!"A(l={link.index}, t={t})"
  | wrench link joint t => s!"F(l={link.index}, j={joint.index}, t={t})"
  | angle joint t => s!"q(j={joint.index}, t={t})"
  | velocity joint t => s!"v(j={joint.index}, t={t})"
  | acceleration joint t => s!"a(j={joint.index}, t={t})"
  | torque joint t => s!"T(j={joint.index}, t={t})"

end Key

end Kinodynamics
