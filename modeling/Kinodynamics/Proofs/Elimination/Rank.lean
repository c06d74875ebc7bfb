/-
# The rank of a hard frontal block

A matrix and its Gram matrix have one rank, and over an orthonormal basis of eigenvectors the
Gram matrix is the diagonal matrix of its eigenvalues. So the rank of a hard frontal block is the
number of eigenvalues that are not zero, whatever basis is taken
(`Dense.countP_value_eq_rank`). A step on hard rows counts positive eigenvalues only, so with an
exact spectrum it never counts more than the rank, nor more than there are rows
(`Elimination.frontalRank_le_rank`).

Key definitions: `Dense.rank`.
Key theorems: `Dense.countP_value_eq_rank`, `Elimination.frontalRank_le_rank`.
-/
import Kinodynamics.Proofs.Elimination.Factor
import Kinodynamics.Proofs.Elimination.Range

namespace Kinodynamics

open Finset

theorem card_getElem_eq_countP {β : Type} (p : β → Prop) [DecidablePred p] (l : List β) :
    Fintype.card {i : Fin l.length // p l[i.val]} = l.countP fun a => p a := by
  rw [Fintype.card_subtype, card_filter, Fin.sum_univ_fun_getElem l fun a => if p a then 1 else 0]
  induction l with
  | nil => rfl
  | cons a l ih =>
    rw [List.map_cons, List.sum_cons, ih, List.countP_cons, add_comm]
    simp only [decide_eq_true_eq]

namespace Dense

/-- The number of independent rows. -/
noncomputable def rank (a : Dense ℝ) : ℕ :=
  (Matrix.of fun (i : Fin a.nrows) (j : Fin a.ncols) => a.entry i j).rank

theorem rank_le_nrows (a : Dense ℝ) : a.rank ≤ a.nrows := Matrix.rank_le_height _

/-- **The rank is the number of nonzero eigenvalues of the Gram matrix.** -/
theorem countP_value_eq_rank {a : Dense ℝ} {pairs : List (Eigenpair ℝ)}
    (h : IsEigenbasis (a.transpose.mul a) pairs) : (pairs.countP fun p => p.value ≠ 0) = a.rank := by
  let A : Matrix (Fin a.nrows) (Fin a.ncols) ℝ := .of fun i j => a.entry i j
  let V : Matrix (Fin pairs.length) (Fin a.ncols) ℝ := .of fun i k => pairs[i.val].vector.getD k 0
  let values : Fin pairs.length → ℝ := fun i => pairs[i.val].value
  have hrows : V * V.transpose = 1 := by
    ext i j
    rw [Matrix.mul_apply, Matrix.one_apply]
    refine (Fin.sum_univ_eq_sum_range
      (fun k => pairs[i.val].vector.getD k 0 * pairs[j.val].vector.getD k 0) _).trans ?_
    simp only [Fin.ext_iff]
    exact h.along_getElem i.isLt j.isLt
  have hcols : V.transpose * V = 1 := by
    ext k l
    rw [Matrix.mul_apply, Matrix.one_apply]
    refine (Fin.sum_univ_fun_getElem pairs fun p => p.vector.getD k 0 * p.vector.getD l 0).trans ?_
    simp only [Fin.ext_iff]
    exact h.sum_mul_eq k.isLt l.isLt
  have heigen : A.transpose * A * V.transpose = V.transpose * Matrix.diagonal values := by
    ext k i
    have hk := h.eigen _ (List.getElem_mem i.isLt) k k.isLt
    rw [Matrix.mul_diagonal, Matrix.mul_apply, Matrix.transpose_apply, mul_comm]
    refine Eq.trans ?_ hk
    rw [Dense.image, show (a.transpose.mul a).ncols = a.ncols from rfl, ← Fin.sum_univ_eq_sum_range
      (fun l => (a.transpose.mul a).entry k l * pairs[i.val].vector.getD l 0)]
    refine sum_congr rfl fun l _ => ?_
    rw [Dense.entry_transpose_mul_self a k.isLt l.isLt, Matrix.mul_apply]
    refine congrArg (· * _) ?_
    exact Fin.sum_univ_eq_sum_range (fun i => a.entry i k * a.entry i l) a.nrows
  -- each of the two is the other taken through the basis
  have hle : (Matrix.diagonal values).rank ≤ A.rank := by
    have hdiagonal : V * (A.transpose * A * V.transpose) = Matrix.diagonal values := by
      rw [heigen, ← Matrix.mul_assoc, hrows, Matrix.one_mul]
    rw [← hdiagonal, ← Matrix.rank_transpose_mul_self A]
    exact (Matrix.rank_mul_le_right _ _).trans (Matrix.rank_mul_le_left _ _)
  have hge : A.rank ≤ (Matrix.diagonal values).rank := by
    have hgram : V.transpose * Matrix.diagonal values * V = A.transpose * A := by
      rw [← heigen, Matrix.mul_assoc, hcols, Matrix.mul_one]
    rw [← Matrix.rank_transpose_mul_self A, ← hgram]
    exact (Matrix.rank_mul_le_left _ _).trans (Matrix.rank_mul_le_right _ _)
  rw [← card_getElem_eq_countP (fun p : Eigenpair ℝ => p.value ≠ 0), ← Matrix.rank_diagonal values]
  exact le_antisymm hle hge

end Dense

namespace Elimination

variable {D : Decompositions ℝ} {n : ℕ} {hard : Dense ℝ}

theorem frontalPairs_perm : (frontalPairs D n hard).Perm (D.spectrum (frontalGram n hard)) :=
  byEigenvalue_perm _

/-- Only positive eigenvalues are counted. -/
theorem value_pos_of_mem_rangePairs {p : Eigenpair ℝ} (hp : p ∈ rangePairs D n hard) : 0 < p.value := by
  have hthreshold : 0 < rankThreshold (frontalPairs D n hard) := by
    unfold rankThreshold Scalar.larger
    split
    · exact negligiblePivot_pos
    · split_ifs with h
      · exact negligiblePivot_pos.trans_le h
      · exact negligiblePivot_pos
  let counted : Eigenpair ℝ → Bool := fun p => rankThreshold (frontalPairs D n hard) < singularValue p
  have hcounted : p ∈ (frontalPairs D n hard).takeWhile counted := by
    rwa [rangePairs, splitRange, List.span_eq_takeWhile_dropWhile] at hp
  have habove : counted p = true := List.mem_takeWhile_imp hcounted
  have hroot := hthreshold.trans (of_decide_eq_true habove)
  rw [singularValue, Scalar.positivePart_eq] at hroot
  by_contra hneg
  rw [max_eq_right (not_lt.mp hneg)] at hroot
  exact (hroot.trans_eq Real.sqrt_zero).false

/-- **With an exact spectrum no more than the rank is counted.** -/
theorem frontalRank_le_rank
    (h : IsEigenbasis (frontalGram n hard) (D.spectrum (frontalGram n hard))) :
    frontalRank D n hard ≤ (frontalBlock n hard).rank := by
  have hsub : (rangePairs D n hard).Sublist (frontalPairs D n hard) := by
    rw [rangePairs, splitRange, List.span_eq_takeWhile_dropWhile]
    exact List.takeWhile_sublist _
  calc frontalRank D n hard
      = (rangePairs D n hard).countP fun p => p.value ≠ 0 :=
        (List.countP_eq_length.mpr fun p hp =>
          decide_eq_true (value_pos_of_mem_rangePairs hp).ne').symm
    _ ≤ (frontalPairs D n hard).countP fun p => p.value ≠ 0 := hsub.countP_le
    _ = (frontalBlock n hard).rank := Dense.countP_value_eq_rank (h.perm frontalPairs_perm)

/-- The factor of the hard rows has a row for each pivot, if there are as many hard rows. -/
theorem frontalRank_le_nrows_hardFactor (hD : D.IsTriangular) (h : frontalRank D n hard ≤ hard.nrows) :
    frontalRank D n hard ≤ (hardFactor D n hard).nrows := by
  rw [hardFactor, nrows_upperFactor hD]
  exact le_min h (Nat.le_add_right _ _)

end Elimination
end Kinodynamics
