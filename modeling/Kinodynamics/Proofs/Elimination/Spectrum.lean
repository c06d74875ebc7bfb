/-
# Spectra

A step on hard rows takes the spectrum of a symmetric matrix. What elimination may rely on comes in
two parts. At any scalar it gets a pair for each column (`Decompositions.HasFullSpectrum`); the
rotations keep the shape of the basis, so the computed spectrum is of this kind. At the reals it gets
an orthonormal basis of eigenvectors (`Decompositions.HasExactSpectrum`). Such bases exist: by the
spectral theorem every symmetric matrix has one (`Dense.isEigenbasis_eigenpairs`).

Key definitions: `Dense.IsSymmetric`, `Decompositions.HasFullSpectrum`,
`Decompositions.HasExactSpectrum`, `Dense.eigenpairs`, `Decompositions.spectral`.
Key theorems: `Decompositions.standard_hasFullSpectrum`, `Dense.isEigenbasis_eigenpairs`,
`Decompositions.spectral_hasExactSpectrum`.
-/
import Kinodynamics.Proofs.Elimination.Factor
import Kinodynamics.Proofs.Elimination.Range

namespace Kinodynamics

open Finset

namespace Dense

/-- A square matrix that is its own transpose. -/
structure IsSymmetric (g : Dense ℝ) : Prop where
  ncols_eq : g.ncols = g.nrows
  entry_comm : ∀ i < g.nrows, ∀ j < g.nrows, g.entry i j = g.entry j i

/-- The entries of a square matrix. -/
def toMatrix (g : Dense ℝ) : Matrix (Fin g.nrows) (Fin g.nrows) ℝ := .of fun i j => g.entry i j

theorem IsSymmetric.isHermitian {g : Dense ℝ} (h : g.IsSymmetric) : g.toMatrix.IsHermitian :=
  Matrix.IsHermitian.ext fun i j => h.entry_comm j j.isLt i i.isLt

open Classical in
/-- Eigenvalues and eigenvectors by the spectral theorem; none if the matrix is not symmetric. -/
noncomputable def eigenpairs (g : Dense ℝ) : List (Eigenpair ℝ) :=
  if h : g.toMatrix.IsHermitian then
    (List.finRange g.nrows).map fun i => ⟨h.eigenvalues i, List.ofFn (h.eigenvectorBasis i)⟩
  else []

theorem getD_ofFn {n : ℕ} (f : Fin n → ℝ) (i : Fin n) : (List.ofFn f).getD i 0 = f i := by
  rw [List.getD_eq_getElem _ _ (by rw [List.length_ofFn]; exact i.isLt), List.getElem_ofFn]

/-- The product of two eigenvectors. -/
theorem along_ofFn {n : ℕ} (value : ℝ) (f g : Fin n → ℝ) :
    Eigenpair.along n ⟨value, List.ofFn f⟩ ((List.ofFn g).getD · 0) = ∑ i, f i * g i := by
  rw [Eigenpair.along, ← Fin.sum_univ_eq_sum_range
    (fun k => (List.ofFn f).getD k 0 * (List.ofFn g).getD k 0)]
  exact Finset.sum_congr rfl fun i _ => by rw [getD_ofFn, getD_ofFn]

/-- **A symmetric matrix has an orthonormal basis of eigenvectors.** -/
theorem isEigenbasis_eigenpairs {g : Dense ℝ} (hg : g.IsSymmetric) : IsEigenbasis g g.eigenpairs := by
  have h := hg.isHermitian
  have hpairs : g.eigenpairs = (List.finRange g.nrows).map fun i =>
      ⟨h.eigenvalues i, List.ofFn (h.eigenvectorBasis i)⟩ := dif_pos h
  have hinner : ∀ i j, ∑ k, h.eigenvectorBasis i k * h.eigenvectorBasis j k = if i = j then 1 else 0 :=
    fun i j => by
      rw [← h.eigenvectorBasis.inner_eq_ite, PiLp.inner_apply]
      exact Finset.sum_congr rfl fun k _ => mul_comm _ _
  rw [hpairs]
  refine ⟨by rw [List.length_map, List.length_finRange], fun p hp => ?_, ?_, fun p hp i hi => ?_⟩
  · obtain ⟨i, -, rfl⟩ := List.mem_map.mp hp
    rw [along_ofFn, hinner, if_pos rfl]
  · refine List.pairwise_map.mpr ((List.nodup_finRange _).imp fun {i j} hij => ?_)
    rw [along_ofFn, hinner, if_neg hij]
  · obtain ⟨k, -, rfl⟩ := List.mem_map.mp hp
    have heigen := congrFun (h.mulVec_eigenvectorBasis k) ⟨i, hi⟩
    rw [image, hg.ncols_eq, ← Fin.sum_univ_eq_sum_range
      (fun j => g.entry i j * (List.ofFn (h.eigenvectorBasis k)).getD j 0), getD_ofFn _ ⟨i, hi⟩]
    refine (Finset.sum_congr rfl fun j _ => ?_).trans heigen
    rw [getD_ofFn]
    rfl

theorem length_vector_eigenpairs {g : Dense ℝ} {p : Eigenpair ℝ} (hp : p ∈ g.eigenpairs) :
    p.vector.length = g.nrows := by
  unfold eigenpairs at hp
  split_ifs at hp
  · obtain ⟨i, -, rfl⟩ := List.mem_map.mp hp
    exact List.length_ofFn
  · cases hp

end Dense

/-! ### The shape of the computed spectrum -/

namespace Tridiagonal

variable {α : Type} [Scalar α]

theorem nrows_basis_blockStart (t : Tridiagonal α) : ∀ s, (t.blockStart s).2.basis.nrows = t.basis.nrows
  | 0 => rfl
  | s + 1 => by
    unfold blockStart
    split_ifs
    · exact nrows_basis_blockStart t s
    · rfl

theorem nrows_basis_lastBlock (t : Tridiagonal α) (n : ℕ) :
    (t.lastBlock n).2.basis.nrows = t.basis.nrows := by
  unfold lastBlock
  split
  · rfl
  · exact nrows_basis_blockStart t _

theorem nrows_basis_chase (start n : ℕ) : ∀ (fuel i : ℕ) (x y : α) (t : Tridiagonal α),
    (chase start n fuel i x y t).basis.nrows = t.basis.nrows
  | 0, _, _, _, _ => rfl
  | fuel + 1, i, x, y, t => by
    unfold chase
    dsimp only
    split
    · rfl
    · split
      · exact nrows_basis_chase start n fuel _ _ _ _
      · rfl

theorem nrows_basis_splitPair (t : Tridiagonal α) (i : ℕ) :
    (t.splitPair i).basis.nrows = t.basis.nrows := by
  unfold splitPair
  dsimp only
  split_ifs <;> rfl

theorem nrows_basis_diagonalize : ∀ (fuel : ℕ) (block : ℕ × ℕ) (t : Tridiagonal α),
    (diagonalize fuel block t).basis.nrows = t.basis.nrows
  | 0, _, _ => rfl
  | fuel + 1, (start, n), t => by
    unfold diagonalize
    dsimp only
    split_ifs
    · rfl
    · rw [nrows_basis_diagonalize fuel, nrows_basis_lastBlock]
      exact nrows_basis_chase _ _ _ _ _ _ _
    · rw [nrows_basis_diagonalize fuel, nrows_basis_lastBlock]
      exact nrows_basis_chase _ _ _ _ _ _ _
    · rw [nrows_basis_diagonalize fuel, nrows_basis_lastBlock, nrows_basis_splitPair]

end Tridiagonal

namespace Dense

section Shape

variable {α : Type} [Scalar α]

theorem nrows_basis_tridiagonal (a : Dense α) : a.tridiagonal.basis.nrows = a.nrows := by
  unfold tridiagonal
  dsimp only
  generalize (List.foldl _ (a, []) (List.range (a.nrows - 1))).2.zip _ = steps
  suffices h : ∀ basis : Dense α, basis.nrows = a.nrows → (steps.foldl _ basis).nrows = a.nrows from
    h _ rfl
  induction steps with
  | nil => exact fun _ h => h
  | cons step steps ih => exact fun _ _ => ih _ rfl

/-- The spectrum has a vector of as many entries as the matrix has rows for each of them. -/
theorem length_vector_spectrum {a : Dense α} {p : Eigenpair α} (hp : p ∈ a.spectrum) :
    p.vector.length = a.nrows := by
  obtain ⟨i, -, rfl⟩ := List.mem_map.mp hp
  refine (Dense.length_column _ _).trans ((Tridiagonal.nrows_basis_diagonalize _ _ _).trans ?_)
  refine (Tridiagonal.nrows_basis_lastBlock _ _).trans ((nrows_basis_tridiagonal _).trans ?_)
  split_ifs <;> rfl

end Shape

end Dense

/-- The matrices whose spectra are taken are symmetric. -/
theorem Elimination.isSymmetric_frontalGram (n : ℕ) (hard : Dense ℝ) :
    (Elimination.frontalGram n hard).IsSymmetric where
  ncols_eq := rfl
  entry_comm := fun i hi j hj => by
    replace hi : i < n := hi
    replace hj : j < n := hj
    rw [Elimination.entry_frontalGram hard hi hj, Elimination.entry_frontalGram hard hj hi,
      Dense.gram_comm]

namespace Decompositions

open Elimination (frontalGram isSymmetric_frontalGram)

/-- The spectrum of the Gram matrix of a block has a pair for each column of the block, with a vector
of as many entries. -/
structure HasFullSpectrum {α : Type} [Scalar α] (D : Decompositions α) : Prop where
  length_eq : ∀ n hard, (D.spectrum (frontalGram n hard)).length = n
  length_vector : ∀ n hard, ∀ p ∈ D.spectrum (frontalGram n hard), p.vector.length = n

theorem standard_hasFullSpectrum {α : Type} [Scalar α] : (standard : Decompositions α).HasFullSpectrum where
  length_eq := fun n hard => by
    show (Dense.spectrum (frontalGram n hard)).length = n
    rw [Dense.spectrum, List.length_map, List.length_range]
    rfl
  length_vector := fun _ _ _ hp => Dense.length_vector_spectrum hp

/-- The spectrum of a symmetric matrix is an orthonormal basis of eigenvectors. -/
def HasExactSpectrum (D : Decompositions ℝ) : Prop :=
  ∀ g : Dense ℝ, g.IsSymmetric → IsEigenbasis g (D.spectrum g)

/-- Reflections for the triangular factor, the spectral theorem for the spectrum. -/
noncomputable def spectral : Decompositions ℝ := { standard with spectrum := Dense.eigenpairs }

theorem spectral_isExact : spectral.IsExact :=
  { standard_isExact with }

theorem spectral_hasFullSpectrum : spectral.HasFullSpectrum where
  length_eq := fun n hard => (Dense.isEigenbasis_eigenpairs (isSymmetric_frontalGram n hard)).length_eq
  length_vector := fun _ _ _ hp => Dense.length_vector_eigenpairs hp

theorem spectral_hasExactSpectrum : spectral.HasExactSpectrum := fun _ => Dense.isEigenbasis_eigenpairs

end Decompositions

end Kinodynamics
