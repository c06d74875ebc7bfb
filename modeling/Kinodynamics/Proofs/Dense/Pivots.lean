/-
# Pivots and lengths

A triangular matrix with nonzero pivots can be given any values in the rows that have
them, by the choice of as many entries of the vector (`Dense.Upper.exists_image_eq`). So
each pivot is the length of the product with a vector that has a one in its column and
nothing after it (`Dense.Upper.exists_energy_eq_sq`). If the matrix lengthens every vector
by more than `τ`, all pivots are above `τ`, and there is a row for each of them
(`Dense.Upper.lt_abs_pivot`).

Key theorems: `Dense.Upper.exists_image_eq`, `Dense.Upper.exists_energy_eq_sq`,
`Dense.Upper.lt_abs_pivot`.
-/
import Kinodynamics.Proofs.Dense.Triangular

namespace Kinodynamics
namespace Dense

open Finset

variable {r : Dense ℝ} {n : ℕ}

/-- The first `n` rows take any values `b`, whatever the entries from `n` on are. -/
theorem Upper.exists_image_eq (h : r.Upper) (hn : n ≤ r.ncols) (hdiag : ∀ i < n, r.entry i i ≠ 0)
    (w b : ℕ → ℝ) : ∃ v : ℕ → ℝ, (∀ j, n ≤ j → v j = w j) ∧ ∀ i < n, r.image v i = b i := by
  set square := r.view 0 0 n n with hsquare
  have hentry : ∀ i < n, ∀ j < n, square.entry i j = r.entry i j := fun i hi j hj => by
    rw [hsquare, entry_view _ hi hj, Nat.zero_add, Nat.zero_add]
  have hupper : square.Upper := fun i j hij => by
    by_cases hi : i < n
    · rw [hentry i hi j (hij.trans hi), h i j hij]
    · exact entry_of_nrows_le _ (not_lt.mp hi) j
  -- what the columns from `n` on contribute goes to the right-hand side
  let moved : ℕ → ℝ := fun i => b i - ∑ j ∈ range (r.ncols - n), r.entry i (n + j) * w (n + j)
  obtain ⟨x, hx⟩ := Option.isSome_iff_exists.mp (solveUpper_isSome (r := square) (fun i hi h0 =>
    hdiag i hi ((hentry i hi i hi) ▸ Scalar.isZero_iff.mp h0)) ((List.range n).map moved))
  refine ⟨fun j => if j < n then x.getD j 0 else w j, fun j hj => if_neg (not_lt.mpr hj),
    fun i hi => ?_⟩
  have hfirst : ∑ j ∈ range n, r.entry i j * (if j < n then x.getD j 0 else w j) = moved i := by
    have hrow := image_solveUpper hupper rfl hx hi
    have hget : ((List.range n).map moved).getD i 0 = moved i := by
      simp [List.getD_eq_getElem?_getD, hi]
    rw [hget] at hrow
    rw [← hrow]
    refine sum_congr rfl fun j hj => ?_
    have hj : j < n := mem_range.mp hj
    rw [if_pos hj, hentry i hi j hj]
  have hrest : ∑ j ∈ range (r.ncols - n),
      r.entry i (n + j) * (if n + j < n then x.getD (n + j) 0 else w (n + j)) =
      ∑ j ∈ range (r.ncols - n), r.entry i (n + j) * w (n + j) :=
    sum_congr rfl fun j _ => by rw [if_neg (by omega)]
  have hsplit : r.ncols = n + (r.ncols - n) := (Nat.add_sub_cancel' hn).symm
  rw [image, hsplit, sum_range_add, hfirst, hrest]
  exact sub_add_cancel _ _

/-- **A pivot is the length of a product**: that with a vector whose last entry is a one in
the column of the pivot. -/
theorem Upper.exists_energy_eq_sq (h : r.Upper) {i : ℕ} (hi : i < r.ncols)
    (hdiag : ∀ k < i, r.entry k k ≠ 0) :
    ∃ v : ℕ → ℝ, v i = 1 ∧ (∀ j, i < j → v j = 0) ∧ r.energy v = r.entry i i ^ 2 := by
  obtain ⟨v, hv, habove⟩ := h.exists_image_eq hi.le hdiag (unitVec i) fun _ => 0
  have hone : v i = 1 := (hv i le_rfl).trans (if_pos rfl)
  have hlater : ∀ j, i < j → v j = 0 := fun j hj => (hv j hj.le).trans (if_neg hj.ne')
  have hpivot : r.image v i = r.entry i i := by
    have htail : ∑ j ∈ range (r.ncols - (i + 1)), r.entry i (i + 1 + j) * v (i + 1 + j) = 0 :=
      sum_eq_zero fun j _ => by rw [hlater _ (by omega), mul_zero]
    rw [h.image_eq hi, htail, hone, mul_one, add_zero]
  have hbelow : ∀ k, i < k → r.image v k = 0 := fun k hk => sum_eq_zero fun j _ => by
    by_cases hj : j < k
    · rw [h k j hj, zero_mul]
    · rw [hlater j (by omega), mul_zero]
  refine ⟨v, hone, hlater, ?_⟩
  rw [energy, ← hpivot]
  refine sum_eq_single i (fun k _ hk => ?_) fun hrows => ?_
  · rcases Nat.lt_or_gt_of_ne hk with hk | hk
    · rw [habove k hk, zero_pow two_ne_zero]
    · rw [hbelow k hk, zero_pow two_ne_zero]
  · rw [hpivot, entry_of_nrows_le _ (not_lt.mp fun hlt => hrows (mem_range.mpr hlt)),
      zero_pow two_ne_zero]

/-- **Where every vector is lengthened by more than `τ`, every pivot is above `τ`**, by
induction on its column. -/
theorem Upper.lt_abs_pivot (h : r.Upper) (hn : n ≤ r.ncols) {τ : ℝ} (hτ : 0 ≤ τ)
    (hlong : ∀ v : ℕ → ℝ, (∀ j, n ≤ j → v j = 0) → (∃ j < n, v j ≠ 0) →
      τ ^ 2 * ∑ j ∈ range n, v j ^ 2 < r.energy v) :
    ∀ i < n, i < r.nrows ∧ τ < |r.entry i i| := by
  intro i
  induction i using Nat.strong_induction_on with
  | _ i ih =>
    intro hi
    have hdiag : ∀ k < i, r.entry k k ≠ 0 := fun k hk =>
      abs_pos.mp (hτ.trans_lt (ih k hk (hk.trans hi)).2)
    obtain ⟨v, hone, hlater, henergy⟩ := h.exists_energy_eq_sq (hi.trans_le hn) hdiag
    have hlength : 1 ≤ ∑ j ∈ range n, v j ^ 2 := by
      have hle := single_le_sum (f := fun j => v j ^ 2) (fun j _ => sq_nonneg _) (mem_range.mpr hi)
      simpa [hone] using hle
    have hlt : τ ^ 2 < r.entry i i ^ 2 :=
      calc τ ^ 2 ≤ τ ^ 2 * ∑ j ∈ range n, v j ^ 2 := le_mul_of_one_le_right (sq_nonneg τ) hlength
        _ < r.energy v := hlong v (fun j hj => hlater j (by omega)) ⟨i, hi, by rw [hone]; norm_num⟩
        _ = r.entry i i ^ 2 := henergy
    have habs : τ < |r.entry i i| := by
      rw [sq_lt_sq, abs_of_nonneg hτ] at hlt
      exact hlt
    refine ⟨not_le.mp fun hrows => ?_, habs⟩
    rw [entry_of_nrows_le _ hrows, abs_zero] at habs
    exact absurd habs (not_lt.mpr hτ)

end Dense
end Kinodynamics
