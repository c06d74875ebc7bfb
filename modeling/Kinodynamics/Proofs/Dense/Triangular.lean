/-
# Triangular equations at the reals

Back substitution reads the upper part of a matrix only (`Dense.solveUpper_upperPart`), has an
answer exactly if no entry of the diagonal is zero (`Dense.solveUpper_isSome_iff`), and then
answers upper triangular equations (`Dense.image_solveUpper`,
`Dense.image_solveUpperColumns`). A triangular matrix with nonzero pivots takes no
two vectors to one (`Dense.eq_of_image_eq`). It is determined by its Gram matrix, row by
row, as long as its pivots are positive (`Dense.entry_eq_of_gram`).

Key definitions: `Dense.Upper`, `Dense.upperPart`.
Key theorems: `Dense.solveUpper_isSome_iff`, `Dense.solveUpper_upperPart`,
`Dense.image_solveUpper`, `Dense.image_solveUpperColumns`, `Dense.eq_of_image_eq`,
`Dense.entry_eq_of_gram`.
-/
import Mathlib
import Kinodynamics.Dense.Triangular
import Kinodynamics.Proofs.Dense.Energy

namespace Kinodynamics
namespace Dense

open Finset

/-! ### An answer exists -/

section Exists

variable {α : Type} [Scalar α]

theorem solveUpperFrom_isSome {r : Dense α} (b : List α) : ∀ {k : ℕ} (later : List α),
    (∀ i < k, ¬Scalar.IsZero (r.entry i i)) → (solveUpperFrom r b k later).isSome
  | 0, _, _ => rfl
  | k + 1, later, h => by
    rw [solveUpperFrom, if_neg (h k (Nat.lt_succ_self k))]
    exact solveUpperFrom_isSome b _ fun i hi => h i (Nat.lt_succ_of_lt hi)

/-- Triangular equations without a zero on the diagonal have an answer. -/
theorem solveUpper_isSome {r : Dense α} (h : ∀ i < r.nrows, ¬Scalar.IsZero (r.entry i i))
    (b : List α) : (r.solveUpper b).isSome :=
  solveUpperFrom_isSome b [] h

theorem not_isZero_of_solveUpperFrom {r : Dense α} {b : List α} : ∀ {k : ℕ} {later : List α},
    (solveUpperFrom r b k later).isSome → ∀ i < k, ¬Scalar.IsZero (r.entry i i)
  | 0, _, _, _, hi => absurd hi (Nat.not_lt_zero _)
  | k + 1, later, h, i, hi => by
    rw [solveUpperFrom] at h
    split_ifs at h with hzero
    · cases h
    · rcases Nat.lt_succ_iff_lt_or_eq.mp hi with hi | rfl
      · exact not_isZero_of_solveUpperFrom h i hi
      · exact hzero

/-- Triangular equations have an answer just if there is no zero on the diagonal. -/
theorem solveUpper_isSome_iff {r : Dense α} {b : List α} :
    (r.solveUpper b).isSome ↔ ∀ i < r.nrows, ¬Scalar.IsZero (r.entry i i) :=
  ⟨not_isZero_of_solveUpperFrom, fun h => solveUpper_isSome h b⟩

/-- Zeros below the diagonal, the entries of `r` elsewhere. -/
def upperPart (r : Dense α) : Dense α :=
  ofFn r.nrows r.ncols fun i j => if j < i then 0 else r.entry i j

theorem entry_upperPart {r : Dense α} {i j : ℕ} (h : i ≤ j) :
    r.upperPart.entry i j = r.entry i j := by
  rw [upperPart, entry_ofFn, if_neg (not_lt.mpr h)]
  split_ifs with hij
  · rfl
  · by_cases hi : i < r.nrows
    · exact (entry_of_ncols_le r i (not_lt.mp fun hj => hij ⟨hi, hj⟩)).symm
    · exact (entry_of_nrows_le r (not_lt.mp hi) j).symm

theorem carried_upperPart (r : Dense α) (k : ℕ) (b : α) (later : List α) :
    r.upperPart.carried k b later = r.carried k b later := by
  rw [carried, carried]
  refine congrArg (fun f => later.zipIdx.foldr f b) (funext fun ⟨x, j⟩ => funext fun s => ?_)
  show s - x * r.upperPart.entry k (k + 1 + j) = s - x * r.entry k (k + 1 + j)
  rw [entry_upperPart (by omega)]

theorem solveUpperFrom_upperPart (r : Dense α) (b : List α) : ∀ (k : ℕ) (later : List α),
    solveUpperFrom r.upperPart b k later = solveUpperFrom r b k later
  | 0, _ => rfl
  | k + 1, later => by
    rw [solveUpperFrom, solveUpperFrom, entry_upperPart le_rfl, carried_upperPart,
      solveUpperFrom_upperPart r b k]

/-- Entries below the diagonal are not read. -/
theorem solveUpper_upperPart (r : Dense α) (b : List α) :
    r.upperPart.solveUpper b = r.solveUpper b :=
  solveUpperFrom_upperPart r b r.nrows []

theorem mapM_isSome {β γ : Type} {f : β → Option γ} : ∀ {xs : List β},
    (∀ x ∈ xs, (f x).isSome) → (xs.mapM f).isSome
  | [], _ => rfl
  | x :: xs, h => by
    obtain ⟨y, hy⟩ := Option.isSome_iff_exists.mp (h x List.mem_cons_self)
    obtain ⟨ys, hys⟩ := Option.isSome_iff_exists.mp
      (mapM_isSome fun x' hx' => h x' (List.mem_cons_of_mem _ hx'))
    rw [List.mapM_cons, hy, hys]
    rfl

/-- So do several with the same coefficients. -/
theorem exists_solveUpperColumns {r : Dense α} (h : ∀ i < r.nrows, ¬Scalar.IsZero (r.entry i i))
    (b : Dense α) : ∃ gain, r.solveUpperColumns b = some gain := by
  have hcolumns : ((List.range b.ncols).mapM fun j => r.solveUpper (b.column j)).isSome :=
    mapM_isSome fun j _ => solveUpper_isSome h _
  obtain ⟨columns, hcolumns⟩ := Option.isSome_iff_exists.mp hcolumns
  exact ⟨_, by rw [solveUpperColumns, hcolumns]; rfl⟩

end Exists

/-! ### What the answer is -/

/-- Zeros below the diagonal. -/
def Upper (r : Dense ℝ) : Prop := ∀ i j, j < i → r.entry i j = 0

/-- A row of an upper triangular matrix starts at the diagonal. -/
theorem Upper.image_eq {r : Dense ℝ} (h : r.Upper) {i : ℕ} (hi : i < r.ncols) (v : ℕ → ℝ) :
    r.image v i = r.entry i i * v i +
      ∑ j ∈ range (r.ncols - (i + 1)), r.entry i (i + 1 + j) * v (i + 1 + j) := by
  have hzero : ∑ j ∈ range i, r.entry i j * v j = 0 := sum_eq_zero fun j hj => by
    rw [h i j (mem_range.mp hj), zero_mul]
  rw [image, ← Nat.add_sub_cancel' (Nat.succ_le_of_lt hi), sum_range_add, sum_range_succ, hzero,
    zero_add, Nat.add_sub_cancel' (Nat.succ_le_of_lt hi)]

/-- Upper triangular equations with a nonzero diagonal have at most one solution. -/
theorem eq_of_image_eq {r : Dense ℝ} (h : r.Upper) {n : ℕ} (hn : r.ncols = n)
    (hdiag : ∀ i < n, r.entry i i ≠ 0) {v w : ℕ → ℝ} (hvw : ∀ i < n, r.image v i = r.image w i) :
    ∀ i < n, v i = w i := by
  -- from the last unknown to the first: the later ones are equal already
  suffices hlast : ∀ k ≤ n, ∀ i < n, n - k ≤ i → v i = w i from
    fun i hi => hlast n le_rfl i hi (by omega)
  intro k hk
  induction k with
  | zero => exact fun i hi hki => absurd hi (by omega)
  | succ k ih =>
    intro i hi hki
    by_cases hik : n - k ≤ i
    · exact ih (by omega) i hi hik
    · have hrow := hvw i hi
      rw [h.image_eq (hn ▸ hi), h.image_eq (hn ▸ hi)] at hrow
      have htail : ∑ j ∈ range (r.ncols - (i + 1)), r.entry i (i + 1 + j) * v (i + 1 + j) =
          ∑ j ∈ range (r.ncols - (i + 1)), r.entry i (i + 1 + j) * w (i + 1 + j) :=
        sum_congr rfl fun j hj => by
          have := mem_range.mp hj
          rw [ih (by omega) (i + 1 + j) (by omega) (by omega)]
      rw [htail] at hrow
      exact mul_left_cancel₀ (hdiag i hi) (add_right_cancel hrow)

/-! ### The Gram matrix determines the rows -/

/-- The product of columns `i ≤ j` ends at row `i`. -/
theorem Upper.gram_eq {r : Dense ℝ} (h : r.Upper) {i : ℕ} (hi : i < r.nrows) (j : ℕ) :
    r.gram i j = ∑ k ∈ range i, r.entry k i * r.entry k j + r.entry i i * r.entry i j := by
  have hzero : ∑ k ∈ range (r.nrows - (i + 1)), r.entry (i + 1 + k) i * r.entry (i + 1 + k) j = 0 :=
    sum_eq_zero fun k _ => by rw [h _ i (by omega), zero_mul]
  rw [gram, ← Nat.add_sub_cancel' (Nat.succ_le_of_lt hi), sum_range_add, hzero, add_zero,
    sum_range_succ]

section Rows

variable {r r' : Dense ℝ} (h : r.Upper) (h' : r'.Upper) (hm : r.nrows = r'.nrows) {m : ℕ}
  (hgram : ∀ j < m, ∀ k < m, r.gram j k = r'.gram j k)

include h h' hm hgram

/-- Where the rows above agree, the products of the pivot row agree. -/
theorem mul_entry_eq_of_gram {i : ℕ} (hi : i < r.nrows) (him : i < m)
    (habove : ∀ k < i, ∀ j < m, r.entry k j = r'.entry k j) {j : ℕ} (hj : j < m) :
    r.entry i i * r.entry i j = r'.entry i i * r'.entry i j := by
  have heq := hgram i him j hj
  rw [h.gram_eq hi, h'.gram_eq (hm ▸ hi)] at heq
  have hsum : ∑ k ∈ range i, r.entry k i * r.entry k j =
      ∑ k ∈ range i, r'.entry k i * r'.entry k j := sum_congr rfl fun k hk => by
    rw [habove k (mem_range.mp hk) i him, habove k (mem_range.mp hk) j hj]
  rw [hsum] at heq
  exact add_left_cancel heq

/-- Where the rows above agree, nonnegative pivots agree. -/
theorem pivot_eq_of_gram {i : ℕ} (hi : i < r.nrows) (him : i < m)
    (habove : ∀ k < i, ∀ j < m, r.entry k j = r'.entry k j) (hr : 0 ≤ r.entry i i)
    (hr' : 0 ≤ r'.entry i i) : r.entry i i = r'.entry i i := by
  have hsq := mul_entry_eq_of_gram h h' hm hgram hi him habove him
  rw [← sq, ← sq] at hsq
  exact (sq_eq_sq₀ hr hr').mp hsq

/-- **The Gram matrix determines the rows with positive pivots**, one after another. -/
theorem entry_eq_of_gram {n : ℕ} (hn : n ≤ r.nrows) (hnm : n ≤ m)
    (hpos : ∀ i < n, 0 < r.entry i i) (hnonneg : ∀ i < n, 0 ≤ r'.entry i i) :
    ∀ i < n, ∀ j < m, r.entry i j = r'.entry i j := by
  intro i
  induction i using Nat.strong_induction_on with
  | _ i ih =>
    intro hi j hj
    have habove : ∀ k < i, ∀ j < m, r.entry k j = r'.entry k j :=
      fun k hk => ih k hk (hk.trans hi)
    have hpivot := pivot_eq_of_gram h h' hm hgram (by omega) (by omega) habove (hpos i hi).le
      (hnonneg i hi)
    have hmul := mul_entry_eq_of_gram h h' hm hgram (by omega) (by omega) habove hj
    rw [← hpivot] at hmul
    exact mul_left_cancel₀ (hpos i hi).ne' hmul

end Rows

/-! ### Back substitution -/

theorem carried_eq (r : Dense ℝ) (k : ℕ) (later : List ℝ) : ∀ b : ℝ,
    r.carried k b later =
      b - ∑ j ∈ range later.length, r.entry k (k + 1 + j) * later.getD j 0 := by
  induction later using List.reverseRecOn with
  | nil => intro b; simp [carried]
  | append_singleton later y ih =>
    intro b
    have hstep : r.carried k b (later ++ [y]) =
        r.carried k (b - y * r.entry k (k + 1 + later.length)) later := by
      simp [carried, List.zipIdx_append]
    have hsum : ∑ j ∈ range later.length, r.entry k (k + 1 + j) * (later ++ [y]).getD j 0 =
        ∑ j ∈ range later.length, r.entry k (k + 1 + j) * later.getD j 0 :=
      sum_congr rfl fun j hj => by
        rw [List.getD_append _ _ _ _ (mem_range.mp hj)]
    rw [hstep, ih, List.length_append, List.length_singleton, sum_range_succ, hsum,
      List.getD_append_right _ _ _ _ le_rfl, Nat.sub_self, List.getD_cons_zero]
    ring

/-- What is known already stays at the end. -/
theorem drop_of_solveUpperFrom {r : Dense ℝ} {b : List ℝ} : ∀ {k : ℕ} {later x : List ℝ},
    solveUpperFrom r b k later = some x → x.drop k = later
  | 0, later, x, h => by
    rw [solveUpperFrom, Option.some.injEq] at h
    rw [h, List.drop_zero]
  | k + 1, later, x, h => by
    unfold solveUpperFrom at h
    split_ifs at h
    have hdrop := congrArg List.tail (drop_of_solveUpperFrom h)
    rwa [List.tail_drop, List.tail_cons] at hdrop

/-- Each row above `k` holds of the vector found. -/
theorem image_solveUpperFrom {r : Dense ℝ} (h : r.Upper) {b : List ℝ} :
    ∀ {k : ℕ} {later x : List ℝ}, solveUpperFrom r b k later = some x → r.ncols = k + later.length →
      ∀ i < k, r.image (x.getD · 0) i = b.getD i 0
  | 0, _, _, _, _, i, hi => absurd hi (Nat.not_lt_zero i)
  | k + 1, later, x, hx, hn, i, hi => by
    unfold solveUpperFrom at hx
    split_ifs at hx with hzero
    rcases Nat.lt_succ_iff_lt_or_eq.mp hi with hi | rfl
    · exact image_solveUpperFrom h hx (by rw [hn, List.length_cons]; omega) i hi
    · have hdrop := drop_of_solveUpperFrom hx
      have hget : ∀ j, x.getD (i + j) 0 =
          ((r.carried i (b.getD i 0) later / r.entry i i) :: later).getD j 0 := fun j => by
        rw [← hdrop]
        simp [List.getD_eq_getElem?_getD]
      have hdiag : r.entry i i ≠ 0 := fun h0 => hzero (Scalar.isZero_iff.mpr h0)
      have htail : ∑ j ∈ range (r.ncols - (i + 1)), r.entry i (i + 1 + j) * x.getD (i + 1 + j) 0 =
          ∑ j ∈ range later.length, r.entry i (i + 1 + j) * later.getD j 0 := by
        rw [hn, Nat.add_sub_cancel_left]
        refine sum_congr rfl fun j _ => ?_
        rw [Nat.add_assoc i 1 j, hget, Nat.add_comm 1 j, List.getD_cons_succ]
      rw [h.image_eq (by omega), htail, show x.getD i 0 = _ from hget 0, List.getD_cons_zero,
        mul_div_cancel₀ _ hdiag, carried_eq, sub_add_cancel]

/-- **Back substitution answers upper triangular equations.** -/
theorem image_solveUpper {r : Dense ℝ} (h : r.Upper) (hsquare : r.ncols = r.nrows) {b x : List ℝ}
    (hx : r.solveUpper b = some x) {i : ℕ} (hi : i < r.nrows) :
    r.image (x.getD · 0) i = b.getD i 0 :=
  image_solveUpperFrom h hx (by rw [hsquare, List.length_nil, Nat.add_zero]) i hi

theorem mapM_eq_some {α β : Type} {f : α → Option β} : ∀ {xs : List α} {ys : List β},
    xs.mapM f = some ys → ys.length = xs.length ∧ ∀ i (hi : i < xs.length), f xs[i] = ys[i]?
  | [], ys, h => by
    obtain rfl : [] = ys := by simpa using h
    exact ⟨rfl, fun i hi => absurd hi (Nat.not_lt_zero i)⟩
  | x :: xs, ys, h => by
    rw [List.mapM_cons] at h
    obtain ⟨y, hy, h⟩ := Option.bind_eq_some_iff.mp h
    obtain ⟨zs, hzs, h⟩ := Option.bind_eq_some_iff.mp h
    obtain rfl : y :: zs = ys := by simpa using h
    obtain ⟨hlen, hget⟩ := mapM_eq_some hzs
    refine ⟨by rw [List.length_cons, List.length_cons, hlen], fun i hi => ?_⟩
    cases i with
    | zero => simpa using hy
    | succ i => simpa using hget i (by simpa using hi)

/-- The shape of the solutions for several right-hand sides, and each of them. -/
theorem solveUpperColumns_eq_some {α : Type} [Scalar α] {r b gain : Dense α} (h : r.solveUpperColumns b = some gain) :
    gain.nrows = r.nrows ∧ gain.ncols = b.ncols ∧
      ∀ j < b.ncols, ∃ x, r.solveUpper (b.column j) = some x ∧
        ∀ i < r.nrows, gain.entry i j = x.getD i 0 := by
  unfold solveUpperColumns at h
  obtain ⟨columns, hcolumns, h⟩ := Option.bind_eq_some_iff.mp h
  obtain rfl : ofFn r.nrows b.ncols (fun i j => (columns.getD j []).getD i 0) = gain := by
    simpa using h
  obtain ⟨hlen, hget⟩ := mapM_eq_some hcolumns
  rw [List.length_range] at hlen
  refine ⟨rfl, rfl, fun j hj => ⟨columns.getD j [], ?_, fun i hi => entry_ofFn_of_lt _ hi hj⟩⟩
  have hj' : j < columns.length := by omega
  have hcolumn := hget j (by rwa [List.length_range])
  rw [List.getElem_range] at hcolumn
  rw [hcolumn, List.getD_eq_getElem?_getD, List.getElem?_eq_getElem hj', Option.getD_some]

theorem getD_column (a : Dense ℝ) (i j : ℕ) : (a.column j).getD i 0 = a.entry i j := by
  by_cases hi : i < a.nrows
  · simp [column, List.getD_eq_getElem?_getD, hi]
  · rw [entry_of_nrows_le a (not_lt.mp hi), List.getD_eq_default]
    rw [length_column]
    exact not_lt.mp hi

/-- The solutions for several right-hand sides, as a product. -/
theorem image_solveUpperColumns {r b gain : Dense ℝ} (h : r.Upper) (hsquare : r.ncols = r.nrows)
    (hgain : r.solveUpperColumns b = some gain) (u : ℕ → ℝ) {i : ℕ} (hi : i < r.nrows) :
    r.image (gain.image u) i = b.image u i := by
  obtain ⟨hm, hn, hcolumns⟩ := solveUpperColumns_eq_some hgain
  calc r.image (gain.image u) i
      = ∑ k ∈ range gain.ncols, ∑ j ∈ range r.ncols, r.entry i j * gain.entry j k * u k := by
        rw [sum_comm]
        refine sum_congr rfl fun j _ => ?_
        rw [image, mul_sum]
        exact sum_congr rfl fun k _ => (mul_assoc _ _ _).symm
    _ = b.image u i := by
        rw [hn]
        refine sum_congr rfl fun k hk => ?_
        obtain ⟨x, hx, hentry⟩ := hcolumns k (mem_range.mp hk)
        rw [← sum_mul, ← getD_column, ← image_solveUpper h hsquare hx hi]
        congr 1
        refine sum_congr rfl fun j hj => ?_
        rw [hentry j (hsquare ▸ mem_range.mp hj)]

end Dense
end Kinodynamics
