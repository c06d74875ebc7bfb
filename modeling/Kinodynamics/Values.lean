/-
# Values of variables

A value is a number, a spatial vector or a pose. A store gives values to keys.
Reading a key as a certain kind fails if the key has no value, or one of another
kind. Retracting moves the value of one key by a tangent vector and changes
nothing else.

Key definitions: `Value`, `Value.moved?`, `Values`, `Values.lookup`, `Values.kinded`,
`Values.scalar`, `Values.parameters`, `Values.retract`.
-/
import Kinodynamics.ModelError

namespace Kinodynamics

/-- What a variable holds. -/
inductive Value (α : Type) where
  | scalar (x : α)
  | spatial (v : Spatial α)
  | pose (p : Pose α)

namespace Value

variable {α : Type}

/-- What the value ranges over. -/
def kind : Value α → ValueKind
  | scalar _ => .scalar
  | spatial _ => .spatial
  | pose _ => .pose

/-- The number of directions in which the value can move. -/
def dim : Value α → Nat
  | scalar _ => 1
  | spatial _ => 6
  | pose _ => 6

/-- The parameters of the value. -/
def toList [Scalar α] : Value α → List α
  | scalar x => [x]
  | spatial v => v.toList
  | pose p => p.toList

/-- The value moved by a tangent vector; absent if the vector is too short. Further
entries are not read. -/
def moved? [Scalar α] (value : Value α) (tangent : List α) : Option (Value α) :=
  match value with
  | scalar x => tangent.head?.map fun d => scalar (x + d)
  | spatial v => (Spatial.ofList? tangent).map fun d => spatial (v + d)
  | pose p => (Spatial.ofList? tangent).map fun d => pose (p.rightPlus d)

/-- Moving a value keeps its kind. -/
theorem kind_of_moved? [Scalar α] {value moved : Value α} {tangent : List α}
    (h : value.moved? tangent = some moved) : moved.kind = value.kind := by
  cases value <;> simp only [moved?, Option.map_eq_some_iff] at h <;>
    obtain ⟨d, -, rfl⟩ := h <;> rfl

end Value

/-- The dimension of a variable is that of the values of its kind. -/
theorem Key.dim_eq_of_kind {α : Type} {key : Key} {value : Value α}
    (h : value.kind = key.valueKind) : value.dim = key.dim := by
  cases key <;> cases value <;> simp_all [Value.kind, Key.valueKind, Value.dim, Key.dim]

/-- A store of values. -/
abbrev Values (α : Type) := Assignment Key (Value α)

namespace Values

variable {α : Type}

/-- The value of a key. -/
def lookup (values : Values α) (key : Key) : Except ModelError (Value α) :=
  match values.get? key with
  | some value => .ok value
  | none => .error (.missingVariable key)

/-- The value of a key as a number. -/
def scalar (values : Values α) (key : Key) : Except ModelError α := do
  match ← values.lookup key with
  | .scalar x => .ok x
  | other => .error (.typeMismatch key .scalar other.kind)

/-- The value of a key as a spatial vector. -/
def spatial (values : Values α) (key : Key) : Except ModelError (Spatial α) := do
  match ← values.lookup key with
  | .spatial v => .ok v
  | other => .error (.typeMismatch key .spatial other.kind)

/-- The value of a key as a pose. -/
def pose (values : Values α) (key : Key) : Except ModelError (Pose α) := do
  match ← values.lookup key with
  | .pose p => .ok p
  | other => .error (.typeMismatch key .pose other.kind)

/-- The value of a key as a number, a default if the key has none. -/
def scalarD (values : Values α) (key : Key) (default : α) : Except ModelError α :=
  if values.contains key then values.scalar key else .ok default

/-- The value of a key as a spatial vector, zero if the key has none. -/
def spatialOrZero [Scalar α] (values : Values α) (key : Key) : Except ModelError (Spatial α) :=
  if values.contains key then values.spatial key else .ok 0

/-- The value of a key, which has to be of the kind of the key. -/
def kinded (values : Values α) (key : Key) : Except ModelError (Value α) := do
  let value ← values.lookup key
  if value.kind = key.valueKind then .ok value
  else .error (.typeMismatch key key.valueKind value.kind)

variable [Scalar α]

/-- The parameters of the value of a key. -/
def parameters (values : Values α) (key : Key) : Except ModelError (List α) := do
  return (← values.kinded key).toList

/-- The store with the value of a key moved by a tangent vector of its dimension. -/
def retract (values : Values α) (key : Key) (tangent : List α) :
    Outcome ModelError (Values α) := do
  let value ← Outcome.ofExcept (values.kinded key)
  if tangent.length ≠ value.dim then
    Outcome.fail (.tangentDimension value.dim tangent.length)
  let moved ← Outcome.ofOption (value.moved? tangent)
  return values.insert key moved

end Values

end Kinodynamics
