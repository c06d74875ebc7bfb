/-
# Range and null space of a hard frontal block

A step on hard rows splits the frontal variable by the eigenvectors of the Gram
matrix of its block. If these are an orthonormal basis of eigenvectors
(`IsEigenbasis`), every vector is the sum of its parts in the two spans
(`Elimination.image_split`). If moreover the singular values that are not counted are
zero, the block vanishes on the second span, so the hard rows see the first part only
(`Elimination.image_frontalBlock`).

Key definitions: `IsEigenbasis`, `Elimination.ExactRank`.
Key theorems: `IsEigenbasis.sum_along`, `Elimination.image_split`,
`Elimination.image_frontalBlock`.
-/
import Kinodynamics.Proofs.Dense.Energy
import Kinodynamics.Proofs.Elimination.Step

namespace Kinodynamics

open Finset

/-- The product of an eigenvector with a vector. -/
def Eigenpair.along (n : ℕ) (p : Eigenpair ℝ) (x : ℕ → ℝ) : ℝ :=
  ∑ k ∈ range n, p.vector.getD k 0 * x k

theorem Eigenpair.along_comm (n : ℕ) (p q : Eigenpair ℝ) :
    p.along n (q.vector.getD · 0) = q.along n (p.vector.getD · 0) :=
  sum_congr rfl fun _ _ => mul_comm _ _

/-- An orthonormal basis of eigenvectors of a square matrix, with their eigenvalues. -/
structure IsEigenbasis (g : Dense ℝ) (pairs : List (Eigenpair ℝ)) : Prop where
  length_eq : pairs.length = g.nrows
  unit : ∀ p ∈ pairs, p.along g.nrows (p.vector.getD · 0) = 1
  orthogonal : pairs.Pairwise fun p q => p.along g.nrows (q.vector.getD · 0) = 0
  eigen : ∀ p ∈ pairs, ∀ i < g.nrows,
    g.image (p.vector.getD · 0) i = p.value * p.vector.getD i 0

namespace IsEigenbasis

variable {g : Dense ℝ} {pairs : List (Eigenpair ℝ)}

/-- The order of the pairs does not matter. -/
theorem perm {pairs' : List (Eigenpair ℝ)} (h : IsEigenbasis g pairs) (hp : pairs'.Perm pairs) :
    IsEigenbasis g pairs' where
  length_eq := hp.length_eq.trans h.length_eq
  unit := fun p hm => h.unit p (hp.mem_iff.mp hm)
  orthogonal := by
    refine (hp.pairwise_iff fun {p q} hpq => ?_).mpr h.orthogonal
    rw [Eigenpair.along_comm, hpq]
  eigen := fun p hm => h.eigen p (hp.mem_iff.mp hm)

theorem along_getElem (h : IsEigenbasis g pairs) {i j : ℕ} (hi : i < pairs.length)
    (hj : j < pairs.length) :
    pairs[i].along g.nrows (pairs[j].vector.getD · 0) = if i = j then 1 else 0 := by
  have hlt := List.pairwise_iff_getElem.mp h.orthogonal
  rcases lt_trichotomy i j with hij | rfl | hij
  · rw [if_neg hij.ne, hlt i j hi hj hij]
  · rw [if_pos rfl, h.unit _ (List.getElem_mem hi)]
  · rw [if_neg hij.ne', Eigenpair.along_comm, hlt j i hj hi hij]

/-- Vectors with orthonormal rows have orthonormal columns. -/
theorem sum_mul_eq (h : IsEigenbasis g pairs) {k l : ℕ} (hk : k < g.nrows) (hl : l < g.nrows) :
    (pairs.map fun p => p.vector.getD k 0 * p.vector.getD l 0).sum = if k = l then 1 else 0 := by
  have hlen := h.length_eq
  let a : Matrix (Fin pairs.length) (Fin pairs.length) ℝ :=
    fun i k => pairs[i.val].vector.getD k.val 0
  have hrows : a * a.transpose = 1 := by
    ext i j
    rw [Matrix.mul_apply, Matrix.one_apply]
    have hij := h.along_getElem i.isLt j.isLt
    rw [Eigenpair.along, ← hlen, ← Fin.sum_univ_eq_sum_range
      (fun k => pairs[i.val].vector.getD k 0 * pairs[j.val].vector.getD k 0)] at hij
    simp only [Fin.ext_iff]
    exact hij
  have hcols : a.transpose * a = 1 := mul_eq_one_comm.mp hrows
  have hkl := congrFun (congrFun hcols ⟨k, hlen ▸ hk⟩) ⟨l, hlen ▸ hl⟩
  rw [Matrix.mul_apply, Matrix.one_apply] at hkl
  rw [← Fin.sum_univ_fun_getElem]
  simp only [Fin.ext_iff] at hkl
  exact hkl

/-- **Every vector is the sum of its parts along the basis.** -/
theorem sum_along (h : IsEigenbasis g pairs) (x : ℕ → ℝ) {i : ℕ} (hi : i < g.nrows) :
    (pairs.map fun p => p.vector.getD i 0 * p.along g.nrows x).sum = x i := by
  calc (pairs.map fun p => p.vector.getD i 0 * p.along g.nrows x).sum
      = (pairs.map fun p => ∑ k ∈ range g.nrows,
          p.vector.getD i 0 * p.vector.getD k 0 * x k).sum := by
        refine congrArg List.sum (List.map_congr_left fun p _ => ?_)
        rw [Eigenpair.along, mul_sum]
        exact sum_congr rfl fun k _ => (mul_assoc _ _ _).symm
    _ = ∑ k ∈ range g.nrows,
          (pairs.map fun p => p.vector.getD i 0 * p.vector.getD k 0).sum * x k := by
        rw [← Fin.sum_univ_fun_getElem, sum_comm]
        refine sum_congr rfl fun k _ => ?_
        rw [← Fin.sum_univ_fun_getElem, sum_mul]
    _ = x i := by
        rw [sum_congr rfl fun k hk => by rw [h.sum_mul_eq hi (mem_range.mp hk)]]
        simp [hi]

end IsEigenbasis

namespace Elimination

theorem negligiblePivot_pos : (0 : ℝ) < negligiblePivot := by
  unfold negligiblePivot
  norm_num

theorem byEigenvalue_perm {α : Type} [Scalar α] (pairs : List (Eigenpair α)) :
    (byEigenvalue pairs).Perm pairs :=
  List.mergeSort_perm _ _

theorem splitRange_append {α : Type} [Scalar α] (pairs : List (Eigenpair α)) :
    (splitRange pairs).1 ++ (splitRange pairs).2 = pairs := by
  rw [splitRange, List.span_eq_takeWhile_dropWhile]
  exact List.takeWhile_append_dropWhile

/-! ### Bases as matrices -/

theorem entry_basis {n : ℕ} {pairs : List (Eigenpair ℝ)} {i j : ℕ} (hi : i < n)
    (hj : j < pairs.length) : (basis n pairs).entry i j = pairs[j].vector.getD i 0 := by
  rw [basis, Dense.entry_ofFn_of_lt _ hi hj, List.getElem?_eq_getElem hj]

/-- The coordinates of a vector in a basis. -/
theorem image_transpose_basis {n : ℕ} {pairs : List (Eigenpair ℝ)} (x : ℕ → ℝ) {j : ℕ}
    (hj : j < pairs.length) : (basis n pairs).transpose.image x j = pairs[j].along n x := by
  refine sum_congr rfl fun i hi => ?_
  rw [Dense.entry_transpose, entry_basis (mem_range.mp hi) hj]

/-- A vector put together from coordinates. -/
theorem image_basis_along {n : ℕ} {pairs : List (Eigenpair ℝ)} (x : ℕ → ℝ) {i : ℕ} (hi : i < n) :
    (basis n pairs).image ((basis n pairs).transpose.image x) i =
      (pairs.map fun p => p.vector.getD i 0 * p.along n x).sum := by
  rw [← Fin.sum_univ_fun_getElem, Dense.image, show (basis n pairs).ncols = pairs.length from rfl,
    ← Fin.sum_univ_eq_sum_range
      (fun j => (basis n pairs).entry i j * (basis n pairs).transpose.image x j)]
  refine Finset.sum_congr rfl fun j _ => ?_
  rw [entry_basis hi j.isLt, image_transpose_basis x j.isLt]

/-- Coordinates of a vector put together from coordinates. -/
theorem image_transpose_basis_image {g : Dense ℝ} {pairs : List (Eigenpair ℝ)}
    (h : IsEigenbasis g pairs) (p : ℕ → ℝ) {j : ℕ} (hj : j < pairs.length) :
    (basis g.nrows pairs).transpose.image ((basis g.nrows pairs).image p) j = p j := by
  have halong : ∀ i : Fin pairs.length, ∑ k ∈ range g.nrows,
      pairs[j].vector.getD k 0 * ((basis g.nrows pairs).entry k i * p i) =
        if j = i then p i else 0 := fun i => by
    have hone := h.along_getElem hj i.isLt
    rw [Eigenpair.along] at hone
    have hsum : ∑ k ∈ range g.nrows, pairs[j].vector.getD k 0 * ((basis g.nrows pairs).entry k i * p i) =
        (∑ k ∈ range g.nrows, pairs[j].vector.getD k 0 * pairs[i.val].vector.getD k 0) * p i := by
      rw [sum_mul]
      exact sum_congr rfl fun k hk => by rw [entry_basis (mem_range.mp hk) i.isLt, mul_assoc]
    rw [hsum, hone, ite_mul, one_mul, zero_mul]
  rw [image_transpose_basis _ hj, Eigenpair.along]
  calc ∑ k ∈ range g.nrows, pairs[j].vector.getD k 0 * (basis g.nrows pairs).image p k
      = ∑ i : Fin pairs.length, ∑ k ∈ range g.nrows,
          pairs[j].vector.getD k 0 * ((basis g.nrows pairs).entry k i * p i) := by
        rw [sum_comm]
        refine sum_congr rfl fun k _ => ?_
        rw [Dense.image, show (basis g.nrows pairs).ncols = pairs.length from rfl,
          ← Fin.sum_univ_eq_sum_range (fun i => (basis g.nrows pairs).entry k i * p i), mul_sum]
    _ = ∑ i : Fin pairs.length, if j = i then p i else 0 := sum_congr rfl fun i _ => halong i
    _ = p j := by
        rw [sum_eq_single (⟨j, hj⟩ : Fin pairs.length) (fun i _ hi => if_neg fun h => hi (Fin.ext h.symm))
          fun h => absurd (mem_univ _) h, if_pos rfl]

/-- A vector is as long as its coordinates. -/
theorem sum_sq_image_basis {g : Dense ℝ} {pairs : List (Eigenpair ℝ)} (h : IsEigenbasis g pairs)
    (p : ℕ → ℝ) : ∑ k ∈ range g.nrows, (basis g.nrows pairs).image p k ^ 2 =
      ∑ j ∈ range pairs.length, p j ^ 2 := by
  set v := basis g.nrows pairs
  calc ∑ k ∈ range g.nrows, v.image p k ^ 2
      = ∑ k ∈ range g.nrows, ∑ j ∈ range pairs.length, p j * (v.transpose.entry j k * v.image p k) := by
        refine sum_congr rfl fun k _ => ?_
        rw [sq]
        nth_rewrite 1 [Dense.image]
        rw [sum_mul]
        exact sum_congr rfl fun j _ => by
          rw [Dense.entry_transpose]
          ring
    _ = ∑ j ∈ range pairs.length, p j * v.transpose.image (v.image p) j := by
        rw [sum_comm]
        exact sum_congr rfl fun j _ => (mul_sum _ _ _).symm
    _ = ∑ j ∈ range pairs.length, p j ^ 2 := by
        refine sum_congr rfl fun j hj => ?_
        rw [image_transpose_basis_image h p (mem_range.mp hj), sq]

/-! ### The split of a hard frontal block -/

variable {D : Decompositions ℝ} {n : ℕ} {hard : Dense ℝ}

/-- The Gram matrix whose spectrum a step on hard rows takes. -/
def frontalGram {α : Type} [Scalar α] (n : ℕ) (hard : Dense α) : Dense α :=
  (frontalBlock n hard).transpose.mul (frontalBlock n hard)

/-- The range and the null space share out the spectrum. -/
theorem frontalRank_add_length {α : Type} [Scalar α] (D : Decompositions α) (n : ℕ) (hard : Dense α) :
    frontalRank D n hard + (kernelPairs D n hard).length = (D.spectrum (frontalGram n hard)).length := by
  rw [frontalRank, ← List.length_append, rangePairs, kernelPairs, splitRange_append, frontalPairs]
  exact (byEigenvalue_perm _).length_eq

theorem entry_frontalGram (hard : Dense ℝ) {j k : ℕ} (hj : j < n) (hk : k < n) :
    (frontalGram n hard).entry j k = hard.gram j k := by
  rw [frontalGram, Dense.entry_transpose_mul_self (frontalBlock n hard) hj hk]
  refine sum_congr rfl fun i hi => ?_
  have hi : i < hard.nrows := mem_range.mp hi
  rw [frontalBlock, Dense.entry_view _ hi hj, Dense.entry_view _ hi hk, Nat.zero_add, Nat.zero_add,
    Nat.zero_add]

/-- The spectrum of the hard frontal block is exact, and so is its counted rank: the singular
values that are not counted are zero. -/
structure ExactRank (D : Decompositions ℝ) (n : ℕ) (hard : Dense ℝ) : Prop where
  eigenbasis : IsEigenbasis (frontalGram n hard) (D.spectrum (frontalGram n hard))
  uncounted : ∀ p ∈ kernelPairs D n hard, singularValue p = 0

theorem ExactRank.sorted (h : ExactRank D n hard) :
    IsEigenbasis (frontalGram n hard) (rangePairs D n hard ++ kernelPairs D n hard) := by
  rw [rangePairs, kernelPairs, splitRange_append]
  exact h.eigenbasis.perm (byEigenvalue_perm _)

/-- Range and null space make up the variable. -/
theorem ExactRank.length_eq (h : ExactRank D n hard) :
    frontalRank D n hard + (kernelPairs D n hard).length = n :=
  (frontalRank_add_length D n hard).trans h.eigenbasis.length_eq

/-- **A vector is the sum of its parts in the range and in the null space.** -/
theorem ExactRank.image_split (h : ExactRank D n hard) (x : ℕ → ℝ) {i : ℕ} (hi : i < n) :
    (basis n (rangePairs D n hard)).image
        ((basis n (rangePairs D n hard)).transpose.image x) i +
      (basis n (kernelPairs D n hard)).image
        ((basis n (kernelPairs D n hard)).transpose.image x) i = x i := by
  rw [image_basis_along x hi, image_basis_along x hi, ← List.sum_append, ← List.map_append]
  exact h.sorted.sum_along x hi

/-- An eigenvalue of the Gram matrix is the squared length of the block's product with its
eigenvector. -/
theorem energy_frontalBlock {pairs : List (Eigenpair ℝ)}
    (h : IsEigenbasis (frontalGram n hard) pairs) {p : Eigenpair ℝ} (hp : p ∈ pairs) :
    (frontalBlock n hard).energy (p.vector.getD · 0) = p.value := by
  calc (frontalBlock n hard).energy (p.vector.getD · 0)
      = ∑ j ∈ range n, p.vector.getD j 0 * (frontalGram n hard).image (p.vector.getD · 0) j := by
        rw [Dense.energy_eq_sum_gram]
        refine sum_congr rfl fun j hj => ?_
        rw [Dense.image, mul_sum]
        refine sum_congr rfl fun k hk => ?_
        have hentry : (frontalGram n hard).entry j k = (frontalBlock n hard).gram j k :=
          Dense.entry_transpose_mul_self _ (mem_range.mp hj) (mem_range.mp hk)
        rw [hentry]
        ring
    _ = p.value * p.along n (p.vector.getD · 0) := by
        rw [Eigenpair.along, mul_sum]
        refine sum_congr rfl fun j hj => ?_
        rw [h.eigen p hp j (mem_range.mp hj)]
        ring
    _ = p.value := by
        rw [show p.along n (p.vector.getD · 0) = 1 from h.unit p hp, mul_one]

/-- The block vanishes on an eigenvector that is not counted. -/
theorem ExactRank.image_eq_zero (h : ExactRank D n hard) {p : Eigenpair ℝ}
    (hp : p ∈ kernelPairs D n hard) {i : ℕ} (hi : i < hard.nrows) :
    (frontalBlock n hard).image (p.vector.getD · 0) i = 0 := by
  have hvalue : p.value ≤ 0 := by
    have hroot := h.uncounted p hp
    rw [singularValue, Scalar.positivePart_eq] at hroot
    have := (Real.sqrt_eq_zero (le_max_right p.value 0)).mp hroot
    exact max_eq_right_iff.mp this
  have henergy := energy_frontalBlock h.sorted (List.mem_append_right _ hp)
  have hzero : (frontalBlock n hard).energy (p.vector.getD · 0) = 0 :=
    le_antisymm (henergy.le.trans hvalue) (Dense.energy_nonneg _ _)
  exact Dense.energy_eq_zero_iff.mp hzero i hi

/-- **The hard rows see the part in the range only.** -/
theorem ExactRank.image_frontalBlock (h : ExactRank D n hard) (x : ℕ → ℝ) {i : ℕ}
    (hi : i < hard.nrows) :
    (frontalBlock n hard).image x i =
      ((frontalBlock n hard).mul (basis n (rangePairs D n hard))).image
        ((basis n (rangePairs D n hard)).transpose.image x) i := by
  set v1 := basis n (rangePairs D n hard)
  set v2 := basis n (kernelPairs D n hard) with hv2
  have hkernel : (frontalBlock n hard).image (v2.image (v2.transpose.image x)) i = 0 := by
    have hi' : i < (frontalBlock n hard).nrows := hi
    rw [← Dense.image_mul _ _ hi']
    refine sum_eq_zero fun j hj => ?_
    have hj : j < (kernelPairs D n hard).length := mem_range.mp hj
    have hcolumn : ((frontalBlock n hard).mul v2).entry i j =
        (frontalBlock n hard).image ((kernelPairs D n hard)[j].vector.getD · 0) i := by
      rw [Dense.entry_mul_real _ _ hi' hj]
      refine sum_congr rfl fun k hk => ?_
      have hk : k < n := mem_range.mp hk
      rw [hv2, entry_basis hk hj]
    rw [hcolumn, h.image_eq_zero (List.getElem_mem hj) hi, zero_mul]
  calc (frontalBlock n hard).image x i
      = (frontalBlock n hard).image
          (fun k => v1.image (v1.transpose.image x) k + v2.image (v2.transpose.image x) k) i :=
        Dense.image_congr _ (fun k hk => (h.image_split x hk).symm) i
    _ = (frontalBlock n hard).image (v1.image (v1.transpose.image x)) i := by
        rw [Dense.image_add, hkernel, add_zero]
    _ = ((frontalBlock n hard).mul v1).image (v1.transpose.image x) i :=
        (Dense.image_mul _ _ (show i < (frontalBlock n hard).nrows from hi) _).symm

end Elimination
end Kinodynamics
