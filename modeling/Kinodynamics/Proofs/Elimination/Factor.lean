/-
# The factor that elimination splits

Elimination takes the triangular factor of a stack and turns the rows with a
negative pivot around. What it needs of the decomposition comes in two parts: the
shape of the result (`Decompositions.IsTriangular`), at any scalar, and the equation
`Rᵀ R = Mᵀ M` (`Decompositions.IsExact`), at the reals. The decomposition by
reflections has both.

Key definitions: `Decompositions.IsTriangular`, `Decompositions.IsExact`.
Key theorems: `Decompositions.standard_isTriangular`, `Decompositions.standard_isExact`,
`Elimination.energy_upperFactor`.
-/
import Kinodynamics.Proofs.Dense.Householder
import Kinodynamics.Proofs.Elimination.Step
import Kinodynamics.Proofs.Signs

namespace Kinodynamics

namespace Decompositions

variable {α : Type} [Scalar α]

/-- The triangular factor has as many rows as the shorter side, and zeros below the
diagonal. -/
structure IsTriangular (D : Decompositions α) : Prop where
  nrows_eq : ∀ m, (D.triangular m).nrows = min m.nrows m.ncols
  ncols_eq : ∀ m, (D.triangular m).ncols = m.ncols
  entry_below : ∀ m {i j}, j < i → (D.triangular m).entry i j = 0

theorem standard_isTriangular : (standard : Decompositions α).IsTriangular where
  nrows_eq := Dense.nrows_triangularFactor
  ncols_eq := Dense.ncols_triangularFactor
  entry_below := fun m _ _ h => m.entry_triangularFactor_of_lt h

/-- The triangular factor is exact: `Rᵀ R = Mᵀ M`. -/
structure IsExact (D : Decompositions ℝ) : Prop extends D.IsTriangular where
  gram_eq : ∀ m, (D.triangular m).transpose.mul (D.triangular m) = m.transpose.mul m

/-- **Reflections give an exact factor.** -/
theorem standard_isExact : (standard : Decompositions ℝ).IsExact where
  toIsTriangular := standard_isTriangular
  gram_eq := fun m => by
    refine Dense.ext_entry rfl rfl fun i j hi hj => ?_
    show (m.triangularFactor.transpose.mul m.triangularFactor).entry i j = _
    rw [Dense.entry_transpose_mul_self m.triangularFactor hi hj,
      Dense.entry_transpose_mul_self m hi hj]
    exact m.gram_triangularFactor hi hj

end Decompositions

namespace Elimination

variable {κ α : Type} [Scalar α] {D : Decompositions α}

/-! ### Shape and signs -/

theorem nrows_upperFactor (hD : D.IsTriangular) (m : Dense α) :
    (upperFactor D m).nrows = min m.nrows m.ncols := hD.nrows_eq m

theorem ncols_upperFactor (hD : D.IsTriangular) (m : Dense α) :
    (upperFactor D m).ncols = m.ncols := hD.ncols_eq m

theorem entry_upperFactor (m : Dense α) {i j : ℕ} (hi : i < (D.triangular m).nrows)
    (hj : j < (D.triangular m).ncols) : (upperFactor D m).entry i j =
      if i < m.ncols - 1 ∧ (D.triangular m).entry i i < 0 then -(D.triangular m).entry i j
      else (D.triangular m).entry i j :=
  Dense.entry_ofFn_of_lt _ hi hj

/-- Below the diagonal of the factor there are zeros, of either sign. -/
theorem isZero_entry_upperFactor [Scalar.Signed α] (hD : D.IsTriangular) (m : Dense α) {i j : ℕ}
    (h : j < i) : Scalar.IsZero ((upperFactor D m).entry i j) := by
  unfold upperFactor
  simp only [Dense.entry_ofFn, hD.entry_below m h]
  split_ifs
  · exact Scalar.Signed.isZero_neg_zero
  · exact Scalar.Signed.isZero_zero
  · exact Scalar.Signed.isZero_zero

/-- No pivot in the coefficient columns of the factor is below zero. -/
theorem not_lt_entry_upperFactor [Scalar.Signed α] {m : Dense α} {i : ℕ} (hc : i < m.ncols - 1)
    (hr : i < (upperFactor D m).nrows) (hn : i < (upperFactor D m).ncols) :
    ¬(upperFactor D m).entry i i < 0 := by
  rw [entry_upperFactor m hr hn]
  split_ifs with h
  · exact Scalar.Signed.not_neg_lt_of_lt h.2
  · exact fun h' => h ⟨hc, h'⟩

/-- A matrix of `n` columns to be eliminated and `tail` more whose first `n` pivots are
sound: not negligible and not negative, with zeros below. -/
structure IsConditional (n tail : ℕ) (rows : Dense α) : Prop where
  ncols_eq : rows.ncols = n + tail
  le_nrows : n ≤ rows.nrows
  isZero_below : ∀ i j, j < i → Scalar.IsZero (rows.entry i j)
  pivot : ∀ i < n, ¬Scalar.abs (rows.entry i i) ≤ negligiblePivot ∧ ¬rows.entry i i < 0

/-- The factor is of that kind if its pivots pass. -/
theorem isConditional_upperFactor [Scalar.Signed α] (hD : D.IsTriangular) {key : κ} {m : Dense α}
    {n tail : ℕ} (hn : m.ncols = n + (tail + 1))
    (h : requirePivots key (upperFactor D m) n = .ok ()) :
    IsConditional n (tail + 1) (upperFactor D m) where
  ncols_eq := (ncols_upperFactor hD m).trans hn
  le_nrows := le_nrows_of_requirePivots h
  isZero_below := fun _ _ => isZero_entry_upperFactor hD m
  pivot := fun i hi => by
    obtain ⟨h1, h2, h3⟩ := requirePivots_eq_ok_iff.mp h i hi
    exact ⟨h3, not_lt_entry_upperFactor (by omega) h1 h2⟩

/-- The first rows are enough. -/
theorem IsConditional.view [Scalar.Signed α] {n tail : ℕ} {rows : Dense α}
    (h : IsConditional n tail rows) : IsConditional n tail (rows.view 0 0 n rows.ncols) where
  ncols_eq := h.ncols_eq
  le_nrows := le_rfl
  isZero_below := fun i j hij => by
    rw [Dense.view, Dense.entry_ofFn, Nat.zero_add, Nat.zero_add]
    split_ifs
    · exact h.isZero_below i j hij
    · exact Scalar.Signed.isZero_zero
  pivot := fun i hi => by
    have hc : i < rows.ncols := by
      have := h.ncols_eq
      omega
    rw [Dense.entry_view _ hi hc, Nat.zero_add]
    exact h.pivot i hi

end Elimination

/-! ### At the reals -/

namespace Elimination

variable {D : Decompositions ℝ}

theorem entry_upperFactor_below (hD : D.IsTriangular) (m : Dense ℝ) {i j : ℕ} (h : j < i) :
    (upperFactor D m).entry i j = 0 :=
  Scalar.isZero_iff.mp (isZero_entry_upperFactor hD m h)

/-- Turning rows around keeps the length of every product. -/
theorem energy_upperFactor_eq (D : Decompositions ℝ) (m : Dense ℝ) (v : ℕ → ℝ) :
    (upperFactor D m).energy v = (D.triangular m).energy v := by
  refine Finset.sum_congr rfl fun i hi => ?_
  have hi : i < (D.triangular m).nrows := Finset.mem_range.mp hi
  by_cases h : i < m.ncols - 1 ∧ (D.triangular m).entry i i < 0
  · have himage : (upperFactor D m).image v i = -(D.triangular m).image v i := by
      unfold Dense.image
      rw [← Finset.sum_neg_distrib]
      refine Finset.sum_congr rfl fun j hj => ?_
      rw [entry_upperFactor m hi (Finset.mem_range.mp hj), if_pos h, neg_mul]
    rw [himage, neg_sq]
  · have himage : (upperFactor D m).image v i = (D.triangular m).image v i := by
      refine Finset.sum_congr rfl fun j hj => ?_
      rw [entry_upperFactor m hi (Finset.mem_range.mp hj), if_neg h]
    rw [himage]

/-- **The factor has the energy of the stack.** -/
theorem energy_upperFactor (hD : D.IsExact) (m : Dense ℝ) (v : ℕ → ℝ) :
    (upperFactor D m).energy v = m.energy v := by
  rw [energy_upperFactor_eq]
  refine Dense.energy_eq_of_gram (hD.ncols_eq m) (fun j hj k hk => ?_) v
  have hn := hD.ncols_eq m
  rw [← Dense.entry_transpose_mul_self _ hj hk, hD.gram_eq,
    Dense.entry_transpose_mul_self _ (hn ▸ hj) (hn ▸ hk)]

end Elimination
end Kinodynamics
