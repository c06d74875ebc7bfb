/-
# Signs

Elimination looks at the sign and the size of pivots. What it takes for granted of
them is little enough (`Scalar.Signed`) to hold of the reals and of binary64
numbers, undefined ones, infinities and both zeros included. What is proved from
it holds of the program as it runs.

A binary64 number is undefined just if it is not at most itself, so `x ≤ x` says
that `x` is a number.

Key definitions: `Scalar.Signed`.
Key theorems: `Scalar.negligiblePivot_lt`.
-/
import Mathlib
import Kinodynamics.Gaussian.Elimination
import Kinodynamics.Proofs.Reals

namespace Kinodynamics
namespace Scalar

/-- What the comparisons of a scalar have in common with those of the reals. -/
class Signed (α : Type) [Scalar α] : Prop where
  isZero_zero : IsZero (0 : α)
  isZero_neg_zero : IsZero (-(0 : α))
  abs_le_of_isZero : ∀ {x : α}, IsZero x → abs x ≤ Elimination.negligiblePivot
  not_neg_lt_of_lt : ∀ {x : α}, x < 0 → ¬-x < 0
  le_negligiblePivot : (Elimination.negligiblePivot : α) ≤ Elimination.negligiblePivot
  lt_of_not_le : ∀ {x y : α}, x ≤ x → y ≤ y → ¬x ≤ y → y < x
  abs_of_pos : ∀ {x : α}, 0 < x → abs x = x

/-- A number that is neither negligible nor below zero is above the negligible size. -/
theorem negligiblePivot_lt {α : Type} [Scalar α] [Signed α] {x : α} (hx : x ≤ x)
    (habs : ¬abs x ≤ Elimination.negligiblePivot) (hneg : ¬x < 0) :
    Elimination.negligiblePivot < x := by
  have hzero : (0 : α) ≤ 0 := Signed.isZero_zero.1
  by_cases hpos : 0 < x
  · rw [Signed.abs_of_pos hpos] at habs
    exact Signed.lt_of_not_le hx Signed.le_negligiblePivot habs
  · have hle : x ≤ 0 := by_contra fun h => hpos (Signed.lt_of_not_le hx hzero h)
    have hge : 0 ≤ x := by_contra fun h => hneg (Signed.lt_of_not_le hzero hx h)
    exact absurd (Signed.abs_le_of_isZero ⟨hle, hge⟩) habs

instance : Signed ℝ where
  isZero_zero := isZero_iff.mpr rfl
  isZero_neg_zero := isZero_iff.mpr neg_zero
  abs_le_of_isZero := fun {x} h => by
    rw [isZero_iff.mp h]
    show |(0 : ℝ)| ≤ 1e-12
    norm_num
  not_neg_lt_of_lt := fun h => not_lt.mpr (neg_nonneg.mpr (le_of_lt h))
  le_negligiblePivot := le_rfl
  lt_of_not_le := fun _ _ h => not_le.mp h
  abs_of_pos := fun h => abs_of_nonneg (le_of_lt h)

end Scalar

/-! ### Binary64 -/

namespace Binary64

open Float.Model (UnpackedFloat Format)
open Float.Model.UnpackedFloat

theorem lt_iff {x y : Float} : x < y ↔ x.toModel.unpack.lt y.toModel.unpack = true :=
  decide_eq_true_iff (p := x.toModel < y.toModel)

theorem le_iff {x y : Float} : x ≤ y ↔ x.toModel.unpack.le y.toModel.unpack = true :=
  decide_eq_true_iff (p := x.toModel ≤ y.toModel)

theorem unpack_zero : (Zero.zero : Float).toModel.unpack = .zero .positive := by
  have hbits : (Zero.zero : Float).toModel.toBits = 0 := by decide +kernel
  unfold Float.Model.unpack
  rw [hbits]
  rfl

theorem unpack_neg (x : Float) : (-x).toModel.unpack =
    unpack Format.binary64 (pack Format.binary64 x.toModel.unpack.neg) := rfl

/-- Only the two zeros are neither above nor below zero. -/
theorem unpack_of_isZero {x : Float} (h : Scalar.IsZero x) : ∃ s, x.toModel.unpack = .zero s := by
  obtain ⟨h1, h2⟩ := h
  have h1 : x.toModel.unpack.le (.zero .positive) = true := unpack_zero ▸ le_iff.mp h1
  have h2 : (UnpackedFloat.zero .positive).le x.toModel.unpack = true := unpack_zero ▸ le_iff.mp h2
  cases hx : x.toModel.unpack with
  | zero s => exact ⟨s, rfl⟩
  | notANumber => rw [hx] at h1; cases h1
  | infinity s => rw [hx] at h1 h2; cases s <;> [cases h2; cases h1]
  | finite s m e hm => rw [hx] at h1 h2; cases s <;> [cases h2; cases h1]

/-- A number without the sign bit is not below zero. -/
theorem not_lt_zero_of_unpackSign {spec : Format} {b : BitVec spec.numBits}
    (h : unpackSign b = 0#1) : (unpack spec b).lt (.zero .positive) = false := by
  have hs : UnpackedFloat.Sign.ofBitVec (unpackSign b) = .positive := by rw [h]; rfl
  unfold unpack
  simp only [hs]
  split
  · split <;> rfl
  · split
    · split <;> rfl
    · rfl

/-- A number below zero loses its sign bit when negated. -/
theorem unpackSign_pack_neg {spec : Format} {f : UnpackedFloat}
    (h : f.lt (.zero .positive) = true) : unpackSign (pack spec f.neg) = 0#1 := by
  cases f with
  | zero s => cases h
  | notANumber => cases h
  | infinity s =>
    cases s with
    | positive => cases h
    | negative => exact unpackSign_packComponents _ _ _
  | finite s m e hm =>
    cases s with
    | positive => cases h
    | negative =>
      show unpackSign (pack spec (.finite .positive m e hm)) = 0#1
      unfold pack
      simp only
      split_ifs
      · exact unpackSign_packComponents _ _ _
      · exact unpackSign_packComponents _ _ _
      · exact unpackSign_packComponents _ _ _

/-! ### Comparing -/

theorem compare_then_swap (e e' : ℤ) (m m' : ℕ) :
    (compare e' e).then (compare m' m) = ((compare e e').then (compare m m')).swap := by
  rw [Ordering.swap_then, ← Std.OrientedOrd.eq_swap, ← Std.OrientedOrd.eq_swap]

/-- Comparing the other way round swaps the result. -/
theorem compare_swap (u v : UnpackedFloat) : v.compare u = (u.compare v).map Ordering.swap := by
  cases u with
  | notANumber => cases v <;> rfl
  | infinity s => cases v with
    | notANumber => rfl
    | infinity t => cases s <;> cases t <;> rfl
    | zero t => cases s <;> rfl
    | finite t m e hm => cases s <;> cases t <;> rfl
  | zero s => cases v with
    | notANumber => rfl
    | infinity t => cases t <;> rfl
    | zero t => rfl
    | finite t m e hm => cases t <;> rfl
  | finite s m e hm => cases v with
    | notANumber => rfl
    | infinity t => cases s <;> cases t <;> rfl
    | zero t => cases s <;> rfl
    | finite t m' e' hm' =>
      -- only numbers of one sign are compared by exponent and mantissa
      cases s <;> cases t
      · exact congrArg (some ·.swap) (compare_then_swap e e' m m')
      · rfl
      · rfl
      · exact congrArg some (compare_then_swap e e' m m')

/-- Any two numbers compare. -/
theorem exists_compare {u v : UnpackedFloat} (hu : u ≠ .notANumber) (hv : v ≠ .notANumber) :
    ∃ o, u.compare v = some o := by
  cases u with
  | notANumber => exact absurd rfl hu
  | infinity s => cases v with
    | notANumber => exact absurd rfl hv
    | infinity t => exact ⟨_, rfl⟩
    | zero t => cases s <;> exact ⟨_, rfl⟩
    | finite t m e hm => cases s <;> exact ⟨_, rfl⟩
  | zero s => cases v with
    | notANumber => exact absurd rfl hv
    | infinity t => cases t <;> exact ⟨_, rfl⟩
    | zero t => exact ⟨_, rfl⟩
    | finite t m e hm => cases t <;> exact ⟨_, rfl⟩
  | finite s m e hm => cases v with
    | notANumber => exact absurd rfl hv
    | infinity t => cases s <;> cases t <;> exact ⟨_, rfl⟩
    | zero t => cases s <;> exact ⟨_, rfl⟩
    | finite t m' e' hm' => cases s <;> cases t <;> exact ⟨_, rfl⟩

theorem ne_notANumber_of_le {u : UnpackedFloat} (h : u.le u = true) : u ≠ .notANumber := by
  rintro rfl
  cases h

/-- Of two numbers, one is at most the other or above it. -/
theorem lt_of_not_le {u v : UnpackedFloat} (hu : u.le u = true) (hv : v.le v = true)
    (h : ¬u.le v = true) : v.lt u = true := by
  obtain ⟨o, ho⟩ := exists_compare (ne_notANumber_of_le hu) (ne_notANumber_of_le hv)
  unfold UnpackedFloat.le at h
  unfold UnpackedFloat.lt
  rw [ho] at h
  rw [compare_swap u v, ho]
  cases o with
  | lt => exact absurd rfl h
  | eq => exact absurd rfl h
  | gt => rfl

/-- A number above zero is its own absolute value, to the bit. -/
theorem abs_of_zero_lt {x : Float} (h : Zero.zero < x) : x.abs = x := by
  have h := lt_iff.mp h
  rw [unpack_zero] at h
  have habs : x.toModel.unpack.abs = x.toModel.unpack := by
    cases hx : x.toModel.unpack with
    | notANumber => rfl
    | zero s => rw [hx] at h; cases h
    | infinity s => rw [hx] at h; cases s <;> [cases h; rfl]
    | finite s m e hm => rw [hx] at h; cases s <;> [cases h; rfl]
  have hpack : Float.Model.pack x.toModel.unpack = x.toModel := by
    obtain ⟨bits, hvalid⟩ := x.toModel
    simp only [Float.Model.pack, Float.Model.unpack, pack_unpack_of_valid hvalid]
  show Float.ofModel (Float.Model.pack x.toModel.unpack.abs) = x
  rw [habs, hpack]

end Binary64

namespace Scalar

open Binary64

instance : Signed Float where
  isZero_zero := by decide +kernel
  isZero_neg_zero := by decide +kernel
  abs_le_of_isZero := fun {x} h => by
    obtain ⟨s, hs⟩ := unpack_of_isZero h
    have habs : x.abs = ⟨Float.Model.pack (.zero .positive)⟩ := by
      show Float.ofModel (Float.Model.pack x.toModel.unpack.abs) = _
      rw [hs]
      rfl
    show x.abs ≤ Elimination.negligiblePivot
    rw [habs]
    decide +kernel
  not_neg_lt_of_lt := fun {x} (h : x < Zero.zero) (h' : -x < Zero.zero) => by
    have h := lt_iff.mp h
    have h' := lt_iff.mp h'
    rw [unpack_zero] at h h'
    rw [unpack_neg, not_lt_zero_of_unpackSign (unpackSign_pack_neg h)] at h'
    cases h'
  le_negligiblePivot := by decide +kernel
  lt_of_not_le := fun hx hy h =>
    lt_iff.mpr (Binary64.lt_of_not_le (le_iff.mp hx) (le_iff.mp hy) (mt le_iff.mpr h))
  abs_of_pos := fun h => abs_of_zero_lt h

end Scalar
end Kinodynamics
