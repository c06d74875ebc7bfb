/-
# Reflections give a triangular factor

At the reals the reflection made for a column sends it to a multiple of the first
basis vector (`Reflection.mirror_ofColumn`) and keeps every product of two columns
(`Reflection.sum_mirror_mul_mirror`). So clearing a column keeps the Gram matrix,
and `Dense.triangularFactor` returns an upper triangular `R` with `Rᵀ R = Mᵀ M`
for every matrix `M`, of any shape and rank.

Key definitions: `Reflection.along`, `Reflection.mirror`, `Reflection.normal`, `Dense.Cleared`.
Key theorems: `Reflection.mirror_ofColumn`, `Dense.gram_clearColumn`,
`Dense.gram_triangularFactor`.
-/
import Mathlib
import Kinodynamics.Dense.Householder
import Kinodynamics.Proofs.Dense.Energy

namespace Kinodynamics

open Finset

namespace Reflection

/-! ### Reflecting a vector -/

/-- The product of `x`, of length `m`, with the normal `u` of a hyperplane. -/
def along (m : ℕ) (u x : ℕ → ℝ) : ℝ := ∑ k ∈ range m, u k * x k

/-- Entry `k` of `x` reflected in the hyperplane with normal `u` and multiplied by `s`. -/
def mirror (m : ℕ) (u : ℕ → ℝ) (s : ℝ) (x : ℕ → ℝ) (k : ℕ) : ℝ :=
  s * (x k - 2 * along m u x * u k)

/-- A reflection, with or without a change of sign, keeps products. The normal has
length one, or is zero and nothing is reflected. -/
theorem sum_mirror_mul_mirror {m : ℕ} {u : ℕ → ℝ} {s : ℝ} (hs : s * s = 1)
    (hu : along m u u = 1 ∨ ∀ k, u k = 0) (x y : ℕ → ℝ) :
    ∑ k ∈ range m, mirror m u s x k * mirror m u s y k = ∑ k ∈ range m, x k * y k := by
  set α := along m u x with hα
  set β := along m u y with hβ
  calc ∑ k ∈ range m, mirror m u s x k * mirror m u s y k
      = ∑ k ∈ range m, (x k * y k - 2 * β * (u k * x k) - 2 * α * (u k * y k) +
          4 * α * β * (u k * u k)) := by
        refine sum_congr rfl fun k _ => ?_
        rw [mirror, mirror, ← hα, ← hβ]
        linear_combination (x k - 2 * α * u k) * (y k - 2 * β * u k) * hs
    _ = ∑ k ∈ range m, x k * y k - 2 * β * α - 2 * α * β + 4 * α * β * along m u u := by
        simp only [sum_add_distrib, sum_sub_distrib, ← mul_sum]
        rfl
    _ = ∑ k ∈ range m, x k * y k := by
        rcases hu with h1 | h0
        · rw [h1]
          ring
        · have : α = 0 := by simp [hα, along, h0]
          rw [this]
          ring

theorem getD_apply {axis x : List ℝ} (h : axis.length = x.length) (s : ℝ) {k : ℕ}
    (hk : k < x.length) :
    (apply axis s x).getD k 0 = mirror x.length (axis.getD · 0) s (x.getD · 0) k := by
  have hk' : k < axis.length := by omega
  rw [mirror, along, ← h, ← Scalar.dot_eq_sum h]
  simp only [apply, List.getD_eq_getElem?_getD, List.getElem?_zipWith, hk, hk',
    List.getElem?_eq_getElem, Option.getD_some]
  norm_num
  ring

theorem getD_map_div (x : List ℝ) (c : ℝ) (k : ℕ) :
    (x.map (· / c)).getD k 0 = x.getD k 0 / c := by
  rw [List.getD_eq_getElem?_getD, List.getElem?_map, List.getD_eq_getElem?_getD]
  cases x[k]? <;> simp

/-! ### The reflection of a column -/

/-- The first entry that the reflected column gets, up to its sign. -/
noncomputable def signedLength (x : List ℝ) : ℝ :=
  Scalar.sign (x.getD 0 0) * Real.sqrt (Scalar.normSq x)

/-- The squared length of the column with its length added to the first entry. -/
noncomputable def scale (x : List ℝ) : ℝ :=
  2 * (Scalar.normSq x + |x.getD 0 0| * Real.sqrt (Scalar.normSq x))

theorem signedLength_sq (x : List ℝ) : signedLength x ^ 2 = Scalar.normSq x := by
  rw [signedLength, mul_pow, Real.sq_sqrt (Scalar.normSq_nonneg x), sq, Scalar.sign_mul_self, one_mul]

theorem signedLength_mul_head (x : List ℝ) :
    signedLength x * x.getD 0 0 = |x.getD 0 0| * Real.sqrt (Scalar.normSq x) := by
  rw [signedLength, mul_right_comm, Scalar.sign_mul]

/-- The column with its length added to the first entry, scaled to length one. -/
noncomputable def normal (x : List ℝ) : List ℝ :=
  ((x.getD 0 0 + signedLength x) :: x.drop 1).map (· / Real.sqrt (scale x))

theorem ofColumn_eq (x : List ℝ) : ofColumn x =
    if scale x = 0 then ⟨x, signedLength x, false⟩
    else ⟨(normal x).map (· / Scalar.norm (normal x)), -signedLength x, true⟩ := by
  have hd : x.headD 0 = x.getD 0 0 := by cases x <;> rfl
  have hsc : (Scalar.normSq x + (Scalar.sign (x.headD 0) * x.headD 0) *
      Scalar.sqrt (Scalar.normSq x)) * 2.0 = scale x := by
    rw [Scalar.sign_mul, hd, scale, mul_comm, show (2.0 : ℝ) = 2 by norm_num]
    rfl
  unfold ofColumn
  simp only [hsc, Scalar.isZero_iff]
  simp only [hd]
  rfl

/-- A column of zeros is left alone. -/
theorem getD_eq_zero_of_scale {x : List ℝ} (h : scale x = 0) (k : ℕ) : x.getD k 0 = 0 := by
  have h0 := Scalar.normSq_nonneg x
  have h1 : 0 ≤ |x.getD 0 0| * Real.sqrt (Scalar.normSq x) := by positivity
  have hz : Scalar.normSq x = 0 := by
    unfold scale at h
    linarith
  rw [Scalar.normSq_eq_sum, sum_eq_zero_iff_of_nonneg fun _ _ => sq_nonneg _] at hz
  by_cases hk : k < x.length
  · exact pow_eq_zero_iff (two_ne_zero) |>.mp (hz k (mem_range.mpr hk))
  · simp [List.getD_eq_getElem?_getD, not_lt.mp hk]

theorem scale_nonneg (x : List ℝ) : 0 ≤ scale x := by
  have := Scalar.normSq_nonneg x
  unfold scale
  positivity

/-- The column with its length added to the first entry. -/
theorem getD_shifted {x : List ℝ} (hx : x ≠ []) (k : ℕ) :
    ((x.getD 0 0 + signedLength x) :: x.drop 1).getD k 0 =
      x.getD k 0 + if k = 0 then signedLength x else 0 := by
  obtain ⟨y, ys, rfl⟩ := List.exists_cons_of_ne_nil hx
  cases k <;> simp

theorem sum_mul_shifted {x : List ℝ} (hx : x ≠ []) :
    ∑ k ∈ range x.length, (x.getD k 0 + if k = 0 then signedLength x else 0) * x.getD k 0 =
      scale x / 2 := by
  have hpos : 0 < x.length := List.length_pos_iff.mpr hx
  simp only [add_mul, sum_add_distrib, ite_mul, zero_mul, ← sq, sum_ite_eq', mem_range, hpos,
    if_true]
  rw [← Scalar.normSq_eq_sum, signedLength_mul_head, scale]
  ring

theorem sum_shifted_sq {x : List ℝ} (hx : x ≠ []) :
    ∑ k ∈ range x.length, (x.getD k 0 + if k = 0 then signedLength x else 0) ^ 2 = scale x := by
  have hpos : 0 < x.length := List.length_pos_iff.mpr hx
  have hsplit : ∀ k, (x.getD k 0 + if k = 0 then signedLength x else 0) ^ 2 =
      (x.getD k 0 + if k = 0 then signedLength x else 0) * x.getD k 0 +
        if k = 0 then signedLength x * (x.getD k 0 + signedLength x) else 0 := fun k => by
    split_ifs <;> ring
  simp only [hsplit, sum_add_distrib, sum_mul_shifted hx, sum_ite_eq', mem_range, hpos, if_true]
  rw [mul_add, signedLength_mul_head, ← sq, signedLength_sq, scale]
  ring

/-- A column without a length is the zero column. -/
theorem signedLength_of_scale {x : List ℝ} (h : scale x = 0) : signedLength x = 0 := by
  have hn : Scalar.normSq x = 0 := by
    rw [Scalar.normSq_eq_sum]
    exact sum_eq_zero fun k _ => by rw [getD_eq_zero_of_scale h k]; norm_num
  rw [signedLength, hn, Real.sqrt_zero, mul_zero]

section Normal

variable {x : List ℝ} (hx : x ≠ [])

include hx

theorem length_normal : (normal x).length = x.length := by
  have hpos := List.length_pos_iff.mpr hx
  simp only [normal, List.length_map, List.length_cons, List.length_drop]
  omega

theorem getD_normal (k : ℕ) : (normal x).getD k 0 =
    (x.getD k 0 + if k = 0 then signedLength x else 0) / Real.sqrt (scale x) := by
  rw [normal, getD_map_div, getD_shifted hx]

theorem along_normal :
    along x.length ((normal x).getD · 0) (x.getD · 0) = scale x / 2 / Real.sqrt (scale x) := by
  rw [along, ← sum_mul_shifted hx, sum_div]
  exact sum_congr rfl fun k _ => by rw [getD_normal hx]; ring

variable (h0 : scale x ≠ 0)

include h0

theorem normSq_normal : Scalar.normSq (normal x) = 1 := by
  rw [Scalar.normSq_eq_sum, length_normal hx]
  simp only [getD_normal hx, div_pow, Real.sq_sqrt (scale_nonneg x), ← sum_div, sum_shifted_sq hx]
  exact div_self h0

/-- Dividing by the length changes nothing. -/
theorem getD_axis (k : ℕ) :
    ((normal x).map (· / Scalar.norm (normal x))).getD k 0 = (normal x).getD k 0 := by
  rw [getD_map_div, Scalar.norm, normSq_normal hx h0]
  exact (congrArg _ Real.sqrt_one).trans (div_one _)

/-- Reflected, the column is minus its length in the first entry, and zero below. -/
theorem mirror_normal (s : ℝ) (k : ℕ) :
    mirror x.length ((normal x).getD · 0) s (x.getD · 0) k =
      s * if k = 0 then -signedLength x else 0 := by
  have hpos : 0 < scale x := lt_of_le_of_ne (scale_nonneg x) (Ne.symm h0)
  have hroot : Real.sqrt (scale x) ^ 2 = scale x := Real.sq_sqrt hpos.le
  have hroot0 : Real.sqrt (scale x) ≠ 0 := (Real.sqrt_pos.mpr hpos).ne'
  rw [mirror, along_normal hx, getD_normal hx]
  split_ifs with hk <;> field_simp <;> rw [hroot] <;> ring

end Normal

/-- What the reflection made for a column `x` does to it: the reflected column, with
the sign that makes its head nonnegative, is zero below its first entry. The normal
has length one, or is not used and the column is zero already. -/
theorem mirror_ofColumn {x : List ℝ} (hx : x ≠ []) :
    ((ofColumn x).proper = false ∧ (ofColumn x).head = 0 ∧ ∀ k, x.getD k 0 = 0) ∨
      ((ofColumn x).proper = true ∧ (ofColumn x).axis.length = x.length ∧
        along x.length ((ofColumn x).axis.getD · 0) ((ofColumn x).axis.getD · 0) = 1 ∧
        ∀ s k, mirror x.length ((ofColumn x).axis.getD · 0) s (x.getD · 0) k =
          s * if k = 0 then (ofColumn x).head else 0) := by
  rw [ofColumn_eq]
  by_cases h0 : scale x = 0
  · simp only [h0, if_true]
    exact Or.inl ⟨trivial, signedLength_of_scale h0, getD_eq_zero_of_scale h0⟩
  · simp only [h0, if_false, getD_axis hx h0]
    refine Or.inr ⟨trivial, by rw [List.length_map, length_normal hx], ?_, mirror_normal hx h0⟩
    rw [← normSq_normal hx h0, Scalar.normSq_eq_sum, length_normal hx]
    exact sum_congr rfl fun k _ => (sq _).symm

end Reflection

namespace Dense

open Reflection

/-! ### Clearing one column -/

/-- The first `i` columns are zero below the diagonal. -/
def Cleared (a : Dense ℝ) (i : ℕ) : Prop := ∀ q < i, ∀ p, q < p → a.entry p q = 0

theorem getD_columnFrom (a : Dense ℝ) (i j k : ℕ) :
    (a.columnFrom i j).getD k 0 = a.entry (i + k) j := by
  by_cases hk : k < a.nrows - i
  · simp [columnFrom, List.getD_eq_getElem?_getD, hk]
  · rw [entry_of_nrows_le a (by omega), List.getD_eq_default]
    simp only [columnFrom, List.length_map, List.length_range]
    omega

theorem length_columnFrom (a : Dense ℝ) (i j : ℕ) : (a.columnFrom i j).length = a.nrows - i := by
  simp [columnFrom]

theorem nrows_clearColumn (a : Dense ℝ) (i : ℕ) : (a.clearColumn i).nrows = a.nrows := rfl

/-- Rows and columns before `i` stay. -/
theorem entry_clearColumn_of_lt (a : Dense ℝ) {i p q : ℕ} (h : p < i ∨ q < i) :
    (a.clearColumn i).entry p q = a.entry p q := by
  unfold clearColumn
  simp only [entry_ofFn, h, if_true]
  split_ifs with hpq
  · rfl
  · by_cases hp : p < a.nrows
    · exact (entry_of_ncols_le a p (not_lt.mp fun hq => hpq ⟨hp, hq⟩)).symm
    · exact (entry_of_nrows_le a (not_lt.mp hp) q).symm

theorem entry_clearColumn_self (a : Dense ℝ) {i p : ℕ} (hp : i < p) :
    (a.clearColumn i).entry p i = 0 := by
  unfold clearColumn
  simp only [entry_ofFn, lt_irrefl, or_false, if_true, hp.not_gt, hp.ne', if_false]
  split_ifs <;> rfl

/-- From row and column `i` on, column `i` gets its length and zeros, and the columns behind
it go through the reflection. -/
theorem entry_clearColumn_of_le (a : Dense ℝ) {i q k : ℕ} (hq : q < a.ncols) (hiq : i ≤ q)
    (hk : k < a.nrows - i) :
    (a.clearColumn i).entry (i + k) q =
      if q = i then if k = 0 then |(ofColumn (a.columnFrom i i)).head| else 0
      else if (ofColumn (a.columnFrom i i)).proper then
        (apply (ofColumn (a.columnFrom i i)).axis (Scalar.sign (ofColumn (a.columnFrom i i)).head)
          (a.columnFrom i q)).getD k 0
      else a.entry (i + k) q := by
  unfold clearColumn
  rw [entry_ofFn_of_lt _ (by omega) hq, if_neg (by omega)]
  by_cases hqi : q = i
  · simp only [hqi, if_true, Nat.add_eq_left]
    rfl
  · have hq' : q - (i + 1) < a.ncols - (i + 1) := by omega
    have hcol : i + 1 + (q - (i + 1)) = q := by omega
    simp only [hqi, if_false, List.getD_eq_getElem?_getD, List.getElem?_map,
      List.getElem?_range hq', Option.map_some, Option.getD_some, hcol, Nat.add_sub_cancel_left]
    split
    · rfl
    · rw [← List.getD_eq_getElem?_getD, getD_columnFrom]

/-- From row and column `i` on, the columns are reflected. -/
theorem exists_mirror_clearColumn (a : Dense ℝ) {i : ℕ} (hi : i < a.nrows) :
    ∃ (u : ℕ → ℝ) (s : ℝ), s * s = 1 ∧ (along (a.nrows - i) u u = 1 ∨ ∀ k, u k = 0) ∧
      ∀ q < a.ncols, i ≤ q → ∀ k < a.nrows - i,
        (a.clearColumn i).entry (i + k) q =
          mirror (a.nrows - i) u s (fun k => a.entry (i + k) q) k := by
  have hne : a.columnFrom i i ≠ [] := by
    rw [← List.length_pos_iff, length_columnFrom]
    omega
  rcases mirror_ofColumn hne with ⟨hp, hh, hz⟩ | ⟨hp, hlen, hu, hm⟩
  · refine ⟨fun _ => 0, 1, one_mul 1, Or.inr fun _ => rfl, fun q hq hiq k hk => ?_⟩
    rw [entry_clearColumn_of_le a hq hiq hk, hp, hh, mirror]
    by_cases hqi : q = i
    · rw [if_pos hqi, hqi, ← getD_columnFrom, hz]
      simp
    · rw [if_neg hqi, if_neg Bool.false_ne_true]
      ring
  · rw [length_columnFrom] at hlen hu hm
    simp only [getD_columnFrom] at hm
    refine ⟨((ofColumn (a.columnFrom i i)).axis.getD · 0),
      Scalar.sign (ofColumn (a.columnFrom i i)).head, Scalar.sign_mul_self _, Or.inl hu,
      fun q hq hiq k hk => ?_⟩
    rw [entry_clearColumn_of_le a hq hiq hk, hp]
    by_cases hqi : q = i
    · rw [if_pos hqi, hqi, hm, mul_ite, Scalar.sign_mul, mul_zero]
    · have hlen' : (ofColumn (a.columnFrom i i)).axis.length = (a.columnFrom i q).length := by
        rw [length_columnFrom, hlen]
      rw [if_neg hqi, if_pos rfl, getD_apply hlen' _ (by rwa [length_columnFrom])]
      simp only [getD_columnFrom, length_columnFrom]

theorem cleared_clearColumn {a : Dense ℝ} {i : ℕ} (h : Cleared a i) :
    Cleared (a.clearColumn i) (i + 1) := by
  intro q hq p hp
  by_cases hqi : q < i
  · rw [entry_clearColumn_of_lt a (Or.inr hqi), h q hqi p hp]
  · obtain rfl : q = i := by omega
    exact entry_clearColumn_self a hp

/-- Clearing a column keeps the Gram matrix, if the columns before it are cleared. -/
theorem gram_clearColumn {a : Dense ℝ} {i : ℕ} (hi : i < a.nrows) (h : Cleared a i) {j k : ℕ}
    (hj : j < a.ncols) (hk : k < a.ncols) : (a.clearColumn i).gram j k = a.gram j k := by
  have hleft : ∀ {j : ℕ}, j < i → ∀ k, (a.clearColumn i).gram j k = a.gram j k := by
    intro j hji k
    refine sum_congr rfl fun p _ => ?_
    rw [entry_clearColumn_of_lt a (Or.inr hji)]
    by_cases hp : p < i
    · rw [entry_clearColumn_of_lt a (Or.inl hp)]
    · rw [h j hji p (by omega), zero_mul, zero_mul]
  by_cases hji : j < i
  · exact hleft hji k
  · by_cases hki : k < i
    · rw [gram_comm, hleft hki j, gram_comm]
    · obtain ⟨u, s, hs, hu, hm⟩ := exists_mirror_clearColumn a hi
      unfold gram
      rw [nrows_clearColumn, ← Nat.add_sub_cancel' hi.le, sum_range_add, sum_range_add]
      congr 1
      · refine sum_congr rfl fun p hp => ?_
        have hp := mem_range.mp hp
        rw [entry_clearColumn_of_lt a (Or.inl hp), entry_clearColumn_of_lt a (Or.inl hp)]
      · rw [← sum_mirror_mul_mirror hs hu fun p => a.entry (i + p) j]
        refine sum_congr rfl fun p hp => ?_
        have hp := mem_range.mp hp
        rw [hm j hj (by omega) p hp, hm k hk (by omega) p hp]

/-! ### The factor -/

/-- The columns before `i` cleared one after another. -/
theorem cleared_foldl_clearColumn (a : Dense ℝ) {i : ℕ} (hi : i ≤ a.nrows) :
    ((List.range i).foldl clearColumn a).nrows = a.nrows ∧
      ((List.range i).foldl clearColumn a).ncols = a.ncols ∧
      Cleared ((List.range i).foldl clearColumn a) i ∧
      ∀ j < a.ncols, ∀ k < a.ncols, ((List.range i).foldl clearColumn a).gram j k = a.gram j k := by
  induction i with
  | zero => exact ⟨rfl, rfl, fun q hq => absurd hq (Nat.not_lt_zero q), fun _ _ _ _ => rfl⟩
  | succ i ih =>
    obtain ⟨hm, hn, hc, hg⟩ := ih (by omega)
    rw [List.range_succ, List.foldl_append, List.foldl_cons, List.foldl_nil]
    refine ⟨hm, hn, cleared_clearColumn hc, fun j hj k hk => ?_⟩
    rw [gram_clearColumn (by omega) hc (by omega) (by omega), hg j hj k hk]

/-- **The factor by reflections keeps the Gram matrix**, whatever the shape and rank. -/
theorem gram_triangularFactor (a : Dense ℝ) {j k : ℕ} (hj : j < a.ncols) (hk : k < a.ncols) :
    a.triangularFactor.gram j k = a.gram j k := by
  obtain ⟨hm, -, hc, hg⟩ := cleared_foldl_clearColumn a (Nat.min_le_left a.nrows a.ncols)
  set r := (List.range (min a.nrows a.ncols)).foldl clearColumn a with hr
  have hrow : ∀ p < min a.nrows a.ncols, ∀ q < a.ncols,
      a.triangularFactor.entry p q = r.entry p q := by
    intro p hp q hq
    unfold triangularFactor
    rw [entry_ofFn_of_lt _ hp hq]
    split_ifs with hqp
    · exact (hc q (by omega) p hqp).symm
    · rfl
  have hrest : ∀ p, min a.nrows a.ncols ≤ p → ∀ q < a.ncols, r.entry p q = 0 := by
    intro p hp q hq
    by_cases hpm : a.nrows ≤ p
    · exact entry_of_nrows_le r (by omega) q
    · exact hc q (by omega) p (by omega)
  rw [← hg j hj k hk]
  unfold gram
  rw [nrows_triangularFactor, hm, ← Nat.add_sub_cancel' (Nat.min_le_left a.nrows a.ncols),
    sum_range_add, Nat.add_sub_cancel' (Nat.min_le_left a.nrows a.ncols)]
  rw [sum_eq_zero (s := range (a.nrows - min a.nrows a.ncols)) fun p _ => by
    rw [hrest _ (Nat.le_add_right _ _) j hj, zero_mul], add_zero]
  refine sum_congr rfl fun p hp => ?_
  rw [hrow p (mem_range.mp hp) j hj, hrow p (mem_range.mp hp) k hk]

end Dense
end Kinodynamics
