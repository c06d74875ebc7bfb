/-
# The squared length of a product

What elimination keeps of a matrix `M` is the squared length of `M v` for every
vector `v`, its energy. A vector is a function of the column, read below the
width only. The energy is the quadratic form of the Gram matrix `Mᵀ M`, and it
determines that matrix (`gram_eq_of_energy`), so "same energy" and "same Gram
matrix" say the same. Stacking, cutting and multiplying matrices act on the
energy as one expects.

Key definitions: `Dense.image`, `Dense.energy`, `Dense.gram`.
Key theorems: `Dense.energy_eq_sum_gram`, `Dense.gram_eq_of_energy`,
`Dense.energy_split`, `Dense.image_mul`.
-/
import Mathlib
import Kinodynamics.Dense
import Kinodynamics.Proofs.Reals

namespace Kinodynamics
namespace Dense

open Finset

/-- Entry `i` of the product of a matrix with a vector. -/
def image (a : Dense ℝ) (v : ℕ → ℝ) (i : ℕ) : ℝ := ∑ j ∈ range a.ncols, a.entry i j * v j

/-- The squared length of the product of a matrix with a vector. -/
def energy (a : Dense ℝ) (v : ℕ → ℝ) : ℝ := ∑ i ∈ range a.nrows, a.image v i ^ 2

/-- The product of columns `j` and `k`. -/
def gram (a : Dense ℝ) (j k : ℕ) : ℝ := ∑ i ∈ range a.nrows, a.entry i j * a.entry i k

theorem energy_nonneg (a : Dense ℝ) (v : ℕ → ℝ) : 0 ≤ a.energy v :=
  sum_nonneg fun _ _ => sq_nonneg _

/-- The energy is zero just if the product is. -/
theorem energy_eq_zero_iff {a : Dense ℝ} {v : ℕ → ℝ} :
    a.energy v = 0 ↔ ∀ i < a.nrows, a.image v i = 0 := by
  unfold energy
  rw [sum_eq_zero_iff_of_nonneg fun _ _ => sq_nonneg _]
  simp

theorem energy_of_nrows_eq_zero {a : Dense ℝ} (h : a.nrows = 0) (v : ℕ → ℝ) : a.energy v = 0 := by
  simp [energy, h]

/-- A vector is read below the width. -/
theorem image_congr (a : Dense ℝ) {v w : ℕ → ℝ} (h : ∀ j < a.ncols, v j = w j) (i : ℕ) :
    a.image v i = a.image w i :=
  sum_congr rfl fun j hj => by rw [h j (mem_range.mp hj)]

theorem energy_congr (a : Dense ℝ) {v w : ℕ → ℝ} (h : ∀ j < a.ncols, v j = w j) :
    a.energy v = a.energy w :=
  sum_congr rfl fun i _ => by rw [a.image_congr h i]

theorem image_add (a : Dense ℝ) (v w : ℕ → ℝ) (i : ℕ) :
    a.image (fun j => v j + w j) i = a.image v i + a.image w i := by
  simp only [image, mul_add, sum_add_distrib]

theorem image_neg (a : Dense ℝ) (v : ℕ → ℝ) (i : ℕ) :
    a.image (fun j => -v j) i = -a.image v i := by
  simp only [image, mul_neg, sum_neg_distrib]

/-! ### The Gram matrix -/

theorem gram_comm (a : Dense ℝ) (j k : ℕ) : a.gram j k = a.gram k j :=
  sum_congr rfl fun _ _ => mul_comm _ _

/-- The energy is the quadratic form of the Gram matrix. -/
theorem energy_eq_sum_gram (a : Dense ℝ) (v : ℕ → ℝ) :
    a.energy v = ∑ j ∈ range a.ncols, ∑ k ∈ range a.ncols, v j * v k * a.gram j k := by
  calc a.energy v
      = ∑ i ∈ range a.nrows, ∑ j ∈ range a.ncols, ∑ k ∈ range a.ncols,
          (a.entry i j * v j) * (a.entry i k * v k) :=
        sum_congr rfl fun i _ => by rw [sq, image, sum_mul_sum]
    _ = ∑ j ∈ range a.ncols, ∑ k ∈ range a.ncols, ∑ i ∈ range a.nrows,
          (a.entry i j * v j) * (a.entry i k * v k) := by
        rw [sum_comm]
        exact sum_congr rfl fun j _ => sum_comm
    _ = ∑ j ∈ range a.ncols, ∑ k ∈ range a.ncols, v j * v k * a.gram j k := by
        refine sum_congr rfl fun j _ => sum_congr rfl fun k _ => ?_
        rw [gram, mul_sum]
        exact sum_congr rfl fun i _ => by ring

/-- Matrices with one Gram matrix have one energy. -/
theorem energy_eq_of_gram {a b : Dense ℝ} (hn : a.ncols = b.ncols)
    (h : ∀ j < a.ncols, ∀ k < a.ncols, a.gram j k = b.gram j k) (v : ℕ → ℝ) :
    a.energy v = b.energy v := by
  rw [energy_eq_sum_gram, energy_eq_sum_gram, ← hn]
  exact sum_congr rfl fun j hj => sum_congr rfl fun k hk => by
    rw [h j (mem_range.mp hj) k (mem_range.mp hk)]

/-- The vector with a one at `j`. -/
def unitVec (j : ℕ) : ℕ → ℝ := fun k => if k = j then 1 else 0

theorem image_unitVec (a : Dense ℝ) {j : ℕ} (hj : j < a.ncols) (i : ℕ) :
    a.image (unitVec j) i = a.entry i j := by
  simp [image, unitVec, hj]

/-- The energies of unit vectors and of their sums are the Gram matrix. -/
theorem two_mul_gram (a : Dense ℝ) {j k : ℕ} (hj : j < a.ncols) (hk : k < a.ncols) :
    2 * a.gram j k =
      a.energy (fun l => unitVec j l + unitVec k l) - a.energy (unitVec j) - a.energy (unitVec k) := by
  unfold energy gram
  simp only [image_add, a.image_unitVec hj, a.image_unitVec hk]
  rw [← sum_sub_distrib, ← sum_sub_distrib, mul_sum]
  exact sum_congr rfl fun i _ => by ring

/-- Matrices with one energy on vectors supported below `m` have one Gram matrix
there. -/
theorem gram_eq_of_energy {a b : Dense ℝ} {m : ℕ} (ha : m ≤ a.ncols) (hb : m ≤ b.ncols)
    (h : ∀ v : ℕ → ℝ, (∀ j, m ≤ j → v j = 0) → a.energy v = b.energy v) {j k : ℕ} (hj : j < m)
    (hk : k < m) : a.gram j k = b.gram j k := by
  have hu : ∀ i < m, ∀ l, m ≤ l → unitVec i l = 0 := fun i hi l hl =>
    if_neg (by omega)
  have h1 := a.two_mul_gram (hj.trans_le ha) (hk.trans_le ha)
  have h2 := b.two_mul_gram (hj.trans_le hb) (hk.trans_le hb)
  rw [h _ (hu j hj), h _ (hu k hk), h _ fun l hl => by rw [hu j hj l hl, hu k hk l hl, add_zero],
    ← h2] at h1
  linarith

theorem entry_mul_real (a b : Dense ℝ) {i j : ℕ} (hi : i < a.nrows) (hj : j < b.ncols) :
    (a.mul b).entry i j = ∑ k ∈ range a.ncols, a.entry i k * b.entry k j := by
  rw [entry_mul a b hi hj]
  split
  · exact Scalar.fusedRange_eq_sum _ _ _
  · exact Scalar.sumRange_eq_sum _ _

theorem entry_transpose_mul_self (a : Dense ℝ) {j k : ℕ} (hj : j < a.ncols) (hk : k < a.ncols) :
    (a.transpose.mul a).entry j k = a.gram j k := by
  rw [entry_mul_real _ _ hj hk]
  exact sum_congr rfl fun i _ => by rw [entry_transpose]

/-! ### Cutting and stacking -/

theorem image_view (a : Dense ℝ) {r c m n i : ℕ} (hi : i < m) (v : ℕ → ℝ) :
    (a.view r c m n).image v i = ∑ j ∈ range n, a.entry (r + i) (c + j) * v j :=
  sum_congr rfl fun j hj => by rw [a.entry_view hi (mem_range.mp hj)]

/-- The first `n` columns of a matrix meet a vector as the matrix meets it with zeros from
there on. -/
theorem energy_view_columns (a : Dense ℝ) {n : ℕ} (hn : n ≤ a.ncols) {v : ℕ → ℝ}
    (hv : ∀ j, n ≤ j → v j = 0) : (a.view 0 0 a.nrows n).energy v = a.energy v := by
  refine sum_congr rfl fun i hi => ?_
  have htail : ∀ j ∈ range a.ncols, j ∉ range n → a.entry i j * v j = 0 := fun j _ hj => by
    rw [hv j (not_lt.mp fun h => hj (mem_range.mpr h)), mul_zero]
  have himage : (a.view 0 0 a.nrows n).image v i = a.image v i := by
    rw [image_view _ (mem_range.mp hi), image,
      ← sum_subset (range_subset_range.mpr hn) htail]
    simp only [Nat.zero_add]
  rw [himage]

/-- A matrix with zeros below the first `n` rows in its first `n` columns, cut into
those rows and the rows below without those columns. -/
theorem energy_split (a : Dense ℝ) {n : ℕ} (hr : n ≤ a.nrows) (hc : n ≤ a.ncols)
    (below : ∀ i, n ≤ i → ∀ j < n, a.entry i j = 0) (v : ℕ → ℝ) :
    a.energy v = (a.view 0 0 n a.ncols).energy v +
      (a.view n n (a.nrows - n) (a.ncols - n)).energy fun j => v (n + j) := by
  have htop : ∀ i < n, (a.view 0 0 n a.ncols).image v i = a.image v i := fun i hi => by
    rw [image_view _ hi]
    simp [image]
  have hbottom : ∀ i < a.nrows - n,
      (a.view n n (a.nrows - n) (a.ncols - n)).image (fun j => v (n + j)) i = a.image v (n + i) := by
    intro i hi
    have hzero : ∑ j ∈ range n, a.entry (n + i) j * v j = 0 := sum_eq_zero fun j hj => by
      rw [below _ (Nat.le_add_right n i) j (mem_range.mp hj), zero_mul]
    rw [image_view _ hi, image, ← Nat.add_sub_cancel' hc, sum_range_add, hzero, zero_add,
      Nat.add_sub_cancel' hc]
  unfold energy
  rw [nrows_view, nrows_view, ← Nat.add_sub_cancel' hr, sum_range_add, Nat.add_sub_cancel' hr]
  congr 1
  · exact sum_congr rfl fun i hi => by rw [htop i (mem_range.mp hi)]
  · exact sum_congr rfl fun i hi => by rw [hbottom i (mem_range.mp hi)]

theorem entry_beside_of_lt (a b : Dense ℝ) {i j : ℕ} (hi : i < a.nrows) (hj : j < a.ncols) :
    (a.beside b).entry i j = a.entry i j := by
  rw [beside, entry_ofFn_of_lt _ hi (by omega), if_pos hj]

theorem entry_beside_of_le (a b : Dense ℝ) {i j : ℕ} (hi : i < a.nrows) (hj : a.ncols ≤ j)
    (hb : j - a.ncols < b.ncols) : (a.beside b).entry i j = b.entry i (j - a.ncols) := by
  rw [beside, entry_ofFn_of_lt _ hi (by omega), if_neg (not_lt.mpr hj)]

theorem entry_above_of_lt (a b : Dense ℝ) {i j : ℕ} (hi : i < a.nrows) (hj : j < a.ncols) :
    (a.above b).entry i j = a.entry i j := by
  rw [above, entry_ofFn_of_lt _ (by omega) hj, if_pos hi]

theorem image_beside (a b : Dense ℝ) {i : ℕ} (hi : i < a.nrows) (v : ℕ → ℝ) :
    (a.beside b).image v i = a.image v i + b.image (fun j => v (a.ncols + j)) i := by
  unfold image beside
  rw [ncols_ofFn, sum_range_add]
  congr 1
  · refine sum_congr rfl fun j hj => ?_
    have hj := mem_range.mp hj
    rw [entry_ofFn_of_lt _ hi (by omega), if_pos hj]
  · refine sum_congr rfl fun j hj => ?_
    have hj := mem_range.mp hj
    rw [entry_ofFn_of_lt _ hi (by omega), if_neg (by omega), Nat.add_sub_cancel_left]

theorem energy_above (a b : Dense ℝ) (hn : b.ncols = a.ncols) (v : ℕ → ℝ) :
    (a.above b).energy v = a.energy v + b.energy v := by
  unfold energy image above
  rw [nrows_ofFn, ncols_ofFn, sum_range_add, hn]
  congr 1
  · refine sum_congr rfl fun i hi => ?_
    have hi := mem_range.mp hi
    congr 1
    refine sum_congr rfl fun j hj => ?_
    rw [entry_ofFn_of_lt _ (by omega) (mem_range.mp hj), if_pos hi]
  · refine sum_congr rfl fun i hi => ?_
    have hi := mem_range.mp hi
    congr 1
    refine sum_congr rfl fun j hj => ?_
    rw [entry_ofFn_of_lt _ (by omega) (mem_range.mp hj), if_neg (by omega),
      Nat.add_sub_cancel_left]

/-! ### Arithmetic -/

theorem image_mul (a b : Dense ℝ) {i : ℕ} (hi : i < a.nrows) (v : ℕ → ℝ) :
    (a.mul b).image v i = a.image (b.image v) i := by
  calc (a.mul b).image v i
      = ∑ k ∈ range b.ncols, ∑ j ∈ range a.ncols, a.entry i j * b.entry j k * v k := by
        refine sum_congr rfl fun k hk => ?_
        rw [entry_mul_real a b hi (mem_range.mp hk), sum_mul]
    _ = ∑ j ∈ range a.ncols, ∑ k ∈ range b.ncols, a.entry i j * b.entry j k * v k := sum_comm
    _ = a.image (b.image v) i := by
        refine sum_congr rfl fun j _ => ?_
        rw [image, mul_sum]
        exact sum_congr rfl fun k _ => mul_assoc _ _ _

theorem image_sub (a b : Dense ℝ) (hn : b.ncols = a.ncols) {i : ℕ} (hi : i < a.nrows)
    (v : ℕ → ℝ) : (a.sub b).image v i = a.image v i - b.image v i := by
  unfold image
  rw [hn, ← sum_sub_distrib]
  refine sum_congr rfl fun j hj => ?_
  rw [entry_sub a b hi (mem_range.mp hj), sub_mul]

end Dense
end Kinodynamics
