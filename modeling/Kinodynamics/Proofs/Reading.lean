/-
# Reading a store

A variable is read as a value of the kind that its key has. There are two ways for that to fail,
and which one it is depends on the key and the store alone (`Values.offence?`), so whatever reads
several variables in order fails at the first one that is missing or of another kind
(`Values.firstOffence?`), or at none if the store supplies them all.

Key definitions: `Values.offence?`, `Values.firstOffence?`, `Values.Supplies`.
Key theorems: `Values.firstOffence?_eq_none_iff`, `Values.mapM_parameters`,
`Values.mapM_parameters_eq_error`.
-/
import Mathlib.Data.List.Forall2
import Kinodynamics.Values

namespace Kinodynamics

/-- A list of computations has the answers of each. -/
theorem mapM_eq_ok_iff {ε ρ β : Type} {f : ρ → Except ε β} {items : List ρ} {answers : List β} :
    items.mapM f = .ok answers ↔ List.Forall₂ (fun r b => f r = .ok b) items answers := by
  induction items generalizing answers with
  | nil =>
    rw [List.forall₂_nil_left_iff]
    exact ⟨fun h => (Except.ok.inj h).symm, fun h => congrArg Except.ok h.symm⟩
  | cons r items ih =>
    rw [List.mapM_cons, List.forall₂_cons_left_iff]
    constructor
    · intro h
      cases hr : f r with
      | error e =>
        rw [hr] at h
        cases h
      | ok b =>
        cases hitems : items.mapM f with
        | error e =>
          rw [hr, hitems] at h
          cases h
        | ok rest =>
          rw [hr, hitems] at h
          obtain rfl := Except.ok.inj h
          exact ⟨b, rest, rfl, ih.mp hitems, rfl⟩
    · rintro ⟨b, rest, hr, hrest, rfl⟩
      rw [hr, ih.mpr hrest]
      rfl

/-! ### Values of a kind -/

namespace Value

variable {α : Type} {value : Value α}

theorem exists_pose (h : value.kind = .pose) : ∃ p, value = pose p := by
  cases value with
  | pose p => exact ⟨p, rfl⟩
  | _ => cases h

theorem exists_spatial (h : value.kind = .spatial) : ∃ v, value = spatial v := by
  cases value with
  | spatial v => exact ⟨v, rfl⟩
  | _ => cases h

theorem exists_scalar (h : value.kind = .scalar) : ∃ x, value = scalar x := by
  cases value with
  | scalar x => exact ⟨x, rfl⟩
  | _ => cases h

end Value

/-! ### What can be wrong -/

namespace Values

variable {α : Type} {values : Values α} {key : Key} {keys keys' : List Key} {value : Value α}
  {e : ModelError}

/-- What is wrong with the variable: it has no value, or one of another kind. -/
def offence? (values : Values α) (key : Key) : Option ModelError :=
  match values.get? key with
  | none => some (.missingVariable key)
  | some value =>
    if value.kind = key.valueKind then none else some (.typeMismatch key key.valueKind value.kind)

/-- What is wrong with the first of the variables with which something is wrong. -/
def firstOffence? (values : Values α) (keys : List Key) : Option ModelError :=
  keys.findSome? values.offence?

/-- Each of the variables has a value of its kind. -/
def Supplies (values : Values α) (keys : List Key) : Prop :=
  ∀ key ∈ keys, ∃ value, values.get? key = some value ∧ value.kind = key.valueKind

theorem offence?_eq_none_iff : values.offence? key = none ↔
    ∃ value, values.get? key = some value ∧ value.kind = key.valueKind := by
  unfold offence?
  cases values.get? key with
  | none => simp
  | some value => simp

/-- **Nothing is wrong with variables that all have values of their kinds.** -/
theorem firstOffence?_eq_none_iff : values.firstOffence? keys = none ↔ values.Supplies keys := by
  rw [firstOffence?, List.findSome?_eq_none_iff]
  exact forall₂_congr fun _ _ => offence?_eq_none_iff

theorem firstOffence?_append : values.firstOffence? (keys ++ keys') =
    (values.firstOffence? keys).or (values.firstOffence? keys') :=
  List.findSome?_append

/-! ### One variable -/

theorem kinded_eq (h : values.get? key = some value) (hkind : value.kind = key.valueKind) :
    values.kinded key = .ok value := by
  rw [kinded, lookup, h]
  exact if_pos hkind

theorem kinded_eq_error (h : values.offence? key = some e) : values.kinded key = .error e := by
  unfold offence? at h
  rw [kinded, lookup]
  split at h
  · next hnone =>
    obtain rfl := Option.some.inj h
    rw [hnone]
    rfl
  · next value hvalue =>
    split_ifs at h with hkind
    obtain rfl := Option.some.inj h
    rw [hvalue]
    exact if_neg hkind

/-! ### Parameters -/

variable [Scalar α]

theorem parameters_eq (h : values.get? key = some value) (hkind : value.kind = key.valueKind) :
    values.parameters key = .ok value.toList := by
  rw [parameters, kinded_eq h hkind]
  rfl

theorem mapM_parameters {params : List (List α)}
    (h : List.Forall₂ (fun key p => values.parameters key = .ok p) keys params) :
    keys.mapM values.parameters = .ok params :=
  mapM_eq_ok_iff.mpr h

/-- **Parameters are read up to the first variable with which something is wrong.** -/
theorem mapM_parameters_eq_error (h : values.firstOffence? keys = some e) :
    keys.mapM values.parameters = .error e := by
  induction keys with
  | nil => cases h
  | cons key keys ih =>
    rw [firstOffence?, List.findSome?_cons] at h
    rw [List.mapM_cons]
    split at h
    · next hoffence =>
      obtain rfl := Option.some.inj h
      rw [parameters, kinded_eq_error hoffence]
      rfl
    · next hnone =>
      obtain ⟨value, hvalue, hkind⟩ := offence?_eq_none_iff.mp hnone
      rw [parameters_eq hvalue hkind, ih h]
      rfl

end Values
end Kinodynamics
