/-
# Moving stored values

A value is moved in place: the variable is read, the size of the tangent vector is compared, and
only then is the store written (`Values.retractInPlace`). There are four ways for that to end
(`Values.Retracts`), three of which leave the store as it was. Two tables say how large a tangent
vector has to be, one by the value and one by the key. They agree on a value that has the kind of
its key, so the value is there to be moved whenever the sizes fit.

What one move keeps is kept by any number of them, failing ones included
(`Values.retractEach_induction`). A move reads and writes its own key only, so moves of two keys
may change places.

Key definitions: `Values.retractInPlace`, `Values.Retracts`, `Values.retractEach`,
`Values.SameKinds`, `Values.HasUnitPose`.
Key theorems: `Values.run_retractInPlace`, `Values.retracts_run`, `Values.retractEach_induction`,
`Values.retract_comm`, `Values.retract_atomic`.
-/
import Kinodynamics.Proofs.Motion.Group
import Kinodynamics.Proofs.Reading
import Kinodynamics.Session

namespace Kinodynamics

section

variable {α : Type} [Scalar α]

/-- A value can be moved by a tangent vector of its dimension. -/
theorem Value.exists_moved {value : Value α} {tangent : List α} (h : tangent.length = value.dim) :
    ∃ moved, value.moved? tangent = some moved := by
  have hspatial : tangent.length = 6 → ∃ d, Spatial.ofList? tangent = some d := fun h6 =>
    Option.isSome_iff_exists.mp (Spatial.ofList?_isSome_iff.mpr h6.ge)
  cases value with
  | scalar x =>
    obtain ⟨d, rfl⟩ := List.length_eq_one_iff.mp h
    exact ⟨.scalar (x + d), rfl⟩
  | spatial v =>
    obtain ⟨d, hd⟩ := hspatial h
    exact ⟨.spatial (v + d), by rw [moved?, hd]; rfl⟩
  | pose p =>
    obtain ⟨d, hd⟩ := hspatial h
    exact ⟨.pose (p.rightPlus d), by rw [moved?, hd]; rfl⟩

namespace Values

variable {values : Values α} {key : Key} {tangent : List α}

theorem retract_eq {value moved : Value α} (hvalue : values.get? key = some value)
    (hkind : value.kind = key.valueKind) (hlength : tangent.length = key.dim)
    (hmoved : value.moved? tangent = some moved) :
    values.retract key tangent = .ok (values.insert key moved) := by
  have hdim : tangent.length = value.dim := hlength.trans (Key.dim_eq_of_kind hkind).symm
  simp only [retract, kinded_eq hvalue hkind, hmoved, Outcome.ofExcept, Outcome.ofOption, bind,
    Except.bind]
  exact if_neg (not_not.mpr hdim)

theorem retract_eq_error {e : ModelError} (h : values.offence? key = some e) :
    values.retract key tangent = Outcome.fail e := by
  rw [retract, kinded_eq_error h]
  rfl

/-- The size that is asked for is the one of the key. -/
theorem retract_eq_tangentDimension {value : Value α} (hvalue : values.get? key = some value)
    (hkind : value.kind = key.valueKind) (hlength : tangent.length ≠ key.dim) :
    values.retract key tangent = Outcome.fail (.tangentDimension key.dim tangent.length) := by
  have hdim : value.dim = key.dim := Key.dim_eq_of_kind hkind
  simp only [retract, kinded_eq hvalue hkind, Outcome.ofExcept, bind, Except.bind, hdim]
  exact if_pos hlength

/-! ### In place -/

/-- Move the value of a key on a store that is read and written. -/
def retractInPlace (key : Key) (tangent : List α) :
    ExceptT (Failure ModelError) (StateM (Values α)) Unit := do
  let value ← ofExcept (Outcome.ofExcept ((← get).kinded key))
  if tangent.length ≠ value.dim then
    throw (.reported (.tangentDimension value.dim tangent.length))
  let moved ← ofExcept (Outcome.ofOption (value.moved? tangent))
  modify fun values => values.insert key moved

/-- The answer and the store that is left. -/
def runRetract (values : Values α) (key : Key) (tangent : List α) :
    Outcome ModelError Unit × Values α :=
  (retractInPlace key tangent).run.run values

omit [Scalar α] in
/-- A check that fails leaves the store as it is. -/
theorem run_ofExcept_bind {β γ : Type} (x : Outcome ModelError β)
    (f : β → ExceptT (Failure ModelError) (StateM (Values α)) γ) (values : Values α) :
    (ofExcept x >>= f).run.run values = match x with
      | .ok b => (f b).run.run values
      | .error e => (.error e, values) := by
  cases x <;> rfl

/-- **The store is written after the last check.** In place the answer is that of the function
from stores to stores, and a store for which it has none is left as it is. -/
theorem run_retractInPlace (values : Values α) (key : Key) (tangent : List α) :
    values.runRetract key tangent = match values.retract key tangent with
      | .ok after => (.ok (), after)
      | .error e => (.error e, values) := by
  refine (run_ofExcept_bind (Outcome.ofExcept (values.kinded key)) _ values).trans ?_
  rw [retract]
  cases Outcome.ofExcept (values.kinded key) with
  | error e => rfl
  | ok value =>
    simp only [bind, Except.bind]
    split_ifs with hlength
    · rfl
    · refine (run_ofExcept_bind (Outcome.ofOption (value.moved? tangent)) _ values).trans ?_
      cases Outcome.ofOption (value.moved? tangent) with
      | error e => rfl
      | ok moved => rfl

/-! ### Ways to end -/

/-- How moving the value of a key can end, with the answer and the store that is left. -/
inductive Retracts (values : Values α) (key : Key) (tangent : List α) :
    Outcome ModelError Unit × Values α → Prop
  /-- The variable has no value. -/
  | missing (hvalue : values.get? key = none) :
    Retracts values key tangent (Outcome.fail (.missingVariable key), values)
  /-- The variable has a value of another kind. -/
  | mismatch {value : Value α} (hvalue : values.get? key = some value)
    (hkind : value.kind ≠ key.valueKind) :
    Retracts values key tangent (Outcome.fail (.typeMismatch key key.valueKind value.kind), values)
  /-- The tangent vector is of another size. -/
  | dimension {value : Value α} (hvalue : values.get? key = some value)
    (hkind : value.kind = key.valueKind) (hlength : tangent.length ≠ key.dim) :
    Retracts values key tangent (Outcome.fail (.tangentDimension key.dim tangent.length), values)
  | moved {value moved : Value α} (hvalue : values.get? key = some value)
    (hkind : value.kind = key.valueKind) (hlength : tangent.length = key.dim)
    (hmoved : value.moved? tangent = some moved) :
    Retracts values key tangent (.ok (), values.insert key moved)

/-- **Moving a value ends in one of these ways.** -/
theorem retracts_run (values : Values α) (key : Key) (tangent : List α) :
    values.Retracts key tangent (values.runRetract key tangent) := by
  rw [run_retractInPlace]
  cases hvalue : values.get? key with
  | none =>
    have hoffence : values.offence? key = some (.missingVariable key) := by rw [offence?, hvalue]
    rw [retract_eq_error hoffence]
    exact .missing hvalue
  | some value =>
    by_cases hkind : value.kind = key.valueKind
    · by_cases hlength : tangent.length = key.dim
      · obtain ⟨moved, hmoved⟩ := Value.exists_moved (hlength.trans (Key.dim_eq_of_kind hkind).symm)
        rw [retract_eq hvalue hkind hlength hmoved]
        exact .moved hvalue hkind hlength hmoved
      · rw [retract_eq_tangentDimension hvalue hkind hlength]
        exact .dimension hvalue hkind hlength
    · have hoffence : values.offence? key = some (.typeMismatch key key.valueKind value.kind) := by
        rw [offence?, hvalue]
        exact if_neg hkind
      rw [retract_eq_error hoffence]
      exact .mismatch hvalue hkind

/-- What is wrong with moving the value of a key: what is wrong with the variable, or else the size
of the tangent vector. -/
def retractOffence? (values : Values α) (key : Key) (tangent : List α) : Option ModelError :=
  (values.offence? key).or
    (if tangent.length = key.dim then none else some (.tangentDimension key.dim tangent.length))

variable {result : Outcome ModelError Unit} {after : Values α}

/-- A move that succeeds writes the moved value. -/
theorem Retracts.of_ok (h : values.Retracts key tangent (.ok (), after)) :
    ∃ value moved, values.get? key = some value ∧ value.kind = key.valueKind ∧
      tangent.length = key.dim ∧ value.moved? tangent = some moved ∧ after = values.insert key moved := by
  cases h with
  | moved hvalue hkind hlength hmoved => exact ⟨_, _, hvalue, hkind, hlength, hmoved, rfl⟩

/-- **A move that fails writes nothing**, and it fails for the first thing that is wrong. -/
theorem Retracts.of_error {e : Failure ModelError} (h : values.Retracts key tangent (.error e, after)) :
    after = values ∧ ∃ cause, values.retractOffence? key tangent = some cause ∧ e = .reported cause := by
  cases h with
  | missing hvalue => exact ⟨rfl, _, by rw [retractOffence?, offence?, hvalue]; rfl, rfl⟩
  | mismatch hvalue hkind =>
    refine ⟨rfl, _, ?_, rfl⟩
    simp only [retractOffence?, offence?, hvalue, if_neg hkind, Option.some_or]
  | dimension hvalue hkind hlength =>
    refine ⟨rfl, _, ?_, rfl⟩
    simp only [retractOffence?, offence?, hvalue, if_pos hkind, if_neg hlength, Option.none_or]

theorem run_eq_ok_iff : (values.runRetract key tangent).1 = .ok () ↔
    ∃ value, values.get? key = some value ∧ value.kind = key.valueKind ∧ tangent.length = key.dim := by
  constructor
  · intro hok
    have hrun := values.retracts_run key tangent
    generalize values.runRetract key tangent = run at hok hrun
    obtain ⟨result, after⟩ := run
    obtain rfl : result = .ok () := hok
    obtain ⟨value, -, hvalue, hkind, hlength, -⟩ := hrun.of_ok
    exact ⟨value, hvalue, hkind, hlength⟩
  · rintro ⟨value, hvalue, hkind, hlength⟩
    obtain ⟨moved, hmoved⟩ := Value.exists_moved (hlength.trans (Key.dim_eq_of_kind hkind).symm)
    rw [run_retractInPlace, retract_eq hvalue hkind hlength hmoved]

/-- The other variables keep their values, whatever the end. -/
theorem Retracts.get?_of_ne (h : values.Retracts key tangent (result, after)) {other : Key}
    (hne : other ≠ key) : after.get? other = values.get? other := by
  cases h with
  | moved => exact values.get?_insert_of_ne _ hne.symm
  | _ => rfl

/-- **Moves of two variables change places.** -/
theorem retract_comm {key' : Key} (hne : key ≠ key') {tangent' : List α} {after both : Values α}
    (h : values.runRetract key tangent = (.ok (), after))
    (h' : after.runRetract key' tangent' = (.ok (), both)) :
    ∃ after' both', values.runRetract key' tangent' = (.ok (), after') ∧
      after'.runRetract key tangent = (.ok (), both') ∧ ∀ k, both'.get? k = both.get? k := by
  obtain ⟨value, moved, hvalue, hkind, hlength, hmoved, rfl⟩ :=
    Retracts.of_ok (h ▸ values.retracts_run key tangent)
  obtain ⟨value', moved', hvalue', hkind', hlength', hmoved', rfl⟩ :=
    Retracts.of_ok (h' ▸ Values.retracts_run _ key' tangent')
  rw [values.get?_insert_of_ne moved hne] at hvalue'
  have hkept : (values.insert key' moved').get? key = some value := by
    rw [values.get?_insert_of_ne moved' hne.symm, hvalue]
  refine ⟨values.insert key' moved', (values.insert key' moved').insert key moved, ?_, ?_, fun k => ?_⟩
  · rw [run_retractInPlace, retract_eq hvalue' hkind' hlength' hmoved']
  · rw [run_retractInPlace, retract_eq hkept hkind hlength hmoved]
  · simp only [Assignment.insert, Assignment.get?_insertEntry]
    split_ifs with hk hk'
    · exact absurd (hk.trans hk'.symm) hne
    all_goals rfl

/-! ### Any number of moves -/

/-- The store after the moves, one after another. One that fails does not stop the others. -/
def retractEach (steps : List (Key × List α)) (values : Values α) : Values α :=
  steps.foldl (fun values step => (values.runRetract step.1 step.2).2) values

section

variable {P : Values α → Prop}
  (hstep : ∀ values key tangent, P values → P (values.runRetract key tangent).2)

include hstep

/-- **What one move keeps is kept by any number of them.** -/
theorem retractEach_induction (steps : List (Key × List α)) {values : Values α} (h : P values) :
    P (retractEach steps values) := by
  induction steps generalizing values with
  | nil => exact h
  | cons step steps ih => exact ih (hstep values step.1 step.2 h)

/-- It is kept by the moves of a solution, too, which stop at the first one that fails. -/
theorem retractAll_induction (x : Solution Key α) (keys : List Key) {values : Values α} (h : P values) :
    P (Session.retractAll x keys values).1 := by
  induction keys generalizing values with
  | nil => exact h
  | cons key keys ih =>
    have hmoved := hstep values key ((x.get? key).getD []) h
    rw [run_retractInPlace] at hmoved
    rw [Session.retractAll]
    split
    · next after hafter =>
      rw [hafter] at hmoved
      exact ih hmoved
    · exact h

end

/-- The same variables have values, of the same kinds. -/
def SameKinds (before after : Values α) : Prop :=
  ∀ key, (after.get? key).map Value.kind = (before.get? key).map Value.kind

/-- **One move**, however it ends. -/
theorem sameKinds_run (values : Values α) (key : Key) (tangent : List α) :
    values.SameKinds (values.runRetract key tangent).2 := by
  intro k
  have hrun := values.retracts_run key tangent
  generalize values.runRetract key tangent = run at hrun
  cases hrun with
  | @moved value moved hvalue _ _ hmoved =>
    rcases eq_or_ne k key with rfl | hne
    · rw [values.get?_insert_self, hvalue, Option.map_some, Option.map_some, Value.kind_of_moved? hmoved]
    · rw [values.get?_insert_of_ne moved hne.symm]
  | _ => rfl

theorem SameKinds.step {before : Values α} (values : Values α) (key : Key) (tangent : List α)
    (h : before.SameKinds values) : before.SameKinds (values.runRetract key tangent).2 :=
  fun k => (values.sameKinds_run key tangent k).trans (h k)

theorem sameKinds_retractEach (steps : List (Key × List α)) (values : Values α) :
    values.SameKinds (retractEach steps values) :=
  retractEach_induction SameKinds.step steps fun _ => rfl

/-- The moves of a solution keep the kinds, whether they all succeed or not. -/
theorem sameKinds_retractAll (x : Solution Key α) (keys : List Key) (values : Values α) :
    values.SameKinds (Session.retractAll x keys values).1 :=
  retractAll_induction SameKinds.step x keys fun _ => rfl

end Values
end

namespace Values

/-- The variable is a pose, and that is a rigid motion. -/
def HasUnitPose (key : Key) (values : Values ℝ) : Prop := ∃ p, values.get? key = some (.pose p) ∧ p.IsUnit

theorem HasUnitPose.step {key : Key} (values : Values ℝ) (key' : Key) (tangent : List ℝ)
    (h : HasUnitPose key values) : HasUnitPose key (values.runRetract key' tangent).2 := by
  obtain ⟨p, hp, hunit⟩ := h
  have hrun := values.retracts_run key' tangent
  generalize values.runRetract key' tangent = run at hrun
  cases hrun with
  | @moved value moved hvalue _ _ hmoved =>
    rcases eq_or_ne key key' with rfl | hne
    · obtain rfl : value = .pose p := Option.some.inj (hvalue.symm.trans hp)
      obtain ⟨d, -, rfl⟩ := Option.map_eq_some_iff.mp hmoved
      exact ⟨p.rightPlus d, values.get?_insert_self key _, hunit.rightPlus d⟩
    · exact ⟨p, by rwa [values.get?_insert_of_ne moved hne.symm], hunit⟩
  | _ => exact ⟨p, hp, hunit⟩

/-- **Moving stored values.** A move succeeds just if the variable has a value of its kind and the
tangent vector has the size of the key. Then the value is moved, it keeps its kind and no other
variable is touched; otherwise the store is left as it was, and the answer is the first thing that
is wrong. Any number of moves keeps the variables and the kinds of their values, and moves of two
variables change places. Over the reals poses that are rigid motions remain so. -/
theorem retract_atomic :
    (∀ {α : Type} [Scalar α] (values : Values α) (key : Key) (tangent : List α),
      ((values.runRetract key tangent).1 = .ok () ↔
        ∃ value, values.get? key = some value ∧ value.kind = key.valueKind ∧ tangent.length = key.dim) ∧
      (∀ after, values.runRetract key tangent = (.ok (), after) →
        (∃ value moved, values.get? key = some value ∧ value.moved? tangent = some moved ∧
          after.get? key = some moved ∧ moved.kind = value.kind) ∧
        ∀ other ≠ key, after.get? other = values.get? other) ∧
      (∀ e after, values.runRetract key tangent = (.error e, after) → after = values ∧
        ∃ cause, values.retractOffence? key tangent = some cause ∧ e = .reported cause) ∧
      (∀ steps, values.SameKinds (retractEach steps values)) ∧
      ∀ key' ≠ key, ∀ tangent' after both, values.runRetract key tangent = (.ok (), after) →
        after.runRetract key' tangent' = (.ok (), both) →
        ∃ after' both', values.runRetract key' tangent' = (.ok (), after') ∧
          after'.runRetract key tangent = (.ok (), both') ∧ ∀ k, both'.get? k = both.get? k) ∧
    ∀ (values : Values ℝ) (key : Key), HasUnitPose key values →
      ∀ steps, HasUnitPose key (retractEach steps values) := by
  refine ⟨fun values key tangent => ⟨run_eq_ok_iff, fun after hrun => ?_, fun e after hrun => ?_,
    fun steps => sameKinds_retractEach steps values, fun key' hne tangent' after both =>
      retract_comm hne.symm⟩, fun values key h steps => retractEach_induction HasUnitPose.step steps h⟩
  · have hretracts : values.Retracts key tangent (.ok (), after) := hrun ▸ values.retracts_run key tangent
    obtain ⟨value, moved, hvalue, -, -, hmoved, rfl⟩ := hretracts.of_ok
    exact ⟨⟨value, moved, hvalue, hmoved, values.get?_insert_self key moved, Value.kind_of_moved? hmoved⟩,
      fun other hne => hretracts.get?_of_ne hne⟩
  · exact Retracts.of_error (hrun ▸ values.retracts_run key tangent)

/-- An angle next to a pose moves by two and by no vector of two entries. -/
theorem retract_atomic_angle :
    let values : Values ℝ := ⟨[(.pose ⟨0⟩ 0, .pose .identity), (.angle ⟨0⟩ 0, .scalar 1)]⟩
    (∃ after, values.runRetract (.angle ⟨0⟩ 0) [2] = (.ok (), after) ∧
      after.get? (.angle ⟨0⟩ 0) = some (.scalar 3) ∧
      after.get? (.pose ⟨0⟩ 0) = some (.pose .identity)) ∧
    (values.runRetract (.angle ⟨0⟩ 0) [2, 0]).1 ≠ .ok () := by
  intro values
  have hangle : values.get? (.angle ⟨0⟩ 0) = some (.scalar 1) := rfl
  refine ⟨?_, fun hok => ?_⟩
  · obtain ⟨hiff, hmoved, -⟩ := retract_atomic.1 values (.angle ⟨0⟩ 0) [2]
    have hrun := Prod.ext_iff.mpr ⟨hiff.mpr ⟨_, hangle, rfl, rfl⟩, rfl⟩
    obtain ⟨⟨value, moved, hvalue, hplus, hafter, -⟩, hother⟩ := hmoved _ hrun
    obtain rfl : Value.scalar 1 = value := Option.some.inj (hangle.symm.trans hvalue)
    obtain rfl : Value.scalar (1 + 2) = moved := Option.some.inj hplus
    exact ⟨_, hrun, by rw [hafter]; norm_num, hother (.pose ⟨0⟩ 0) nofun⟩
  · obtain ⟨-, -, -, hlength⟩ := (retract_atomic.1 values (.angle ⟨0⟩ 0) [2, 0]).1.mp hok
    cases hlength

end Values
end Kinodynamics
