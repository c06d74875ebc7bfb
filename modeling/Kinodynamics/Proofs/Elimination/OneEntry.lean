/-
# Variables of one entry

The pivot of a variable of one entry is the length of the column of its coefficients
(`requirePivots_one_iff`). So a step takes it out if that length is not negligible, with or
without hard rows on it, and whatever the right-hand sides are; and the rank counted for
hard rows is then exact.

Key theorems: `Elimination.sq_pivot`, `Elimination.requirePivots_one_iff`,
`Dense.spectrum_one`, `Elimination.exists_stepHard_one`, `Elimination.exactRank_one`,
`Elimination.exists_eliminate_alone`, `Elimination.exists_eliminate_row`.
-/
import Kinodynamics.Proofs.Elimination.HardStep
import Kinodynamics.Proofs.Elimination.Rows
import Kinodynamics.Proofs.Elimination.Stack
import Kinodynamics.Proofs.Elimination.Structure

namespace Kinodynamics

open Finset

/-! ### One by one -/

namespace Dense

theorem energy_unitVec (a : Dense ℝ) {j : ℕ} (hj : j < a.ncols) : a.energy (unitVec j) = a.gram j j :=
  sum_congr rfl fun i _ => by rw [a.image_unitVec hj, sq]

variable {g : Dense ℝ}

theorem toRows_one (hm : g.nrows = 1) (hn : g.ncols = 1) : g.toRows = [[g.entry 0 0]] := by
  obtain ⟨m, n, rows⟩ := g
  obtain rfl : m = 1 := hm
  obtain rfl : n = 1 := hn
  refine List.ext_getElem (by simp [toRows]) fun i hi _ => ?_
  obtain rfl : i = 0 := by simp [toRows] at hi; omega
  refine List.ext_getElem (by simp [toRows]) fun j hj _ => ?_
  obtain rfl : j = 0 := by simp [toRows] at hj; omega
  simp [toRows, entry]

theorem maxAbs_one (hm : g.nrows = 1) (hn : g.ncols = 1) : g.maxAbs = |g.entry 0 0| := by
  rw [maxAbs, toRows_one hm hn]
  show Scalar.larger 0 |g.entry 0 0| = _
  rw [Scalar.larger]
  split_ifs with h
  · exact le_antisymm (abs_nonneg _) h
  · rfl

theorem tridiagonal_one {a : Dense ℝ} (hm : a.nrows = 1) :
    a.tridiagonal = ⟨#[a.entry 0 0], #[], identity 1⟩ := by
  unfold tridiagonal
  simp only [hm, Nat.sub_self, List.range_zero, List.foldl_nil, List.reverse_nil, List.zip_nil_right]
  rfl

/-- There is nothing to rotate. -/
theorem diagonalize_one (d : ℝ) (fuel : ℕ) :
    Tridiagonal.diagonalize fuel
        ((⟨#[d], #[], identity 1⟩ : Tridiagonal ℝ).lastBlock 0).1
        ((⟨#[d], #[], identity 1⟩ : Tridiagonal ℝ).lastBlock 0).2 =
      ⟨#[d], #[], identity 1⟩ := by
  cases fuel <;> rfl

theorem column_identity_one : (identity 1 : Dense ℝ).column 0 = [1] := by
  simp [column, identity, entry_ofFn]

/-- The spectrum of a single number. -/
theorem spectrum_one (hm : g.nrows = 1) (hn : g.ncols = 1) : g.spectrum = [⟨g.entry 0 0, [1]⟩] := by
  set scaled := if Scalar.IsZero g.maxAbs then g
    else ofFn 1 1 fun i j => g.entry i j / g.maxAbs with hscaled
  have hrows : scaled.nrows = 1 := by
    rw [hscaled]
    split_ifs
    · exact hm
    · rfl
  have hspectrum : g.spectrum = [⟨scaled.entry 0 0 * g.maxAbs, [1]⟩] := by
    unfold spectrum
    simp only [← hscaled, tridiagonal_one hrows, hm, Nat.sub_self, diagonalize_one, List.range_one,
      List.map_cons, List.map_nil, column_identity_one]
    rfl
  rw [hspectrum, hscaled, maxAbs_one hm hn]
  split_ifs with h
  · have h0 : g.entry 0 0 = 0 := abs_eq_zero.mp (Scalar.isZero_iff.mp h)
    rw [h0, zero_mul]
  · have h0 : |g.entry 0 0| ≠ 0 := fun h0 => h (Scalar.isZero_iff.mpr h0)
    rw [entry_ofFn_of_lt _ (by omega) (by omega), div_mul_cancel₀ _ h0]

end Dense

namespace Elimination

variable {κ : Type} {D : Decompositions ℝ} {key : κ} {a hard soft : Dense ℝ}

/-! ### The pivot -/

/-- The pivot of the first column is its length. -/
theorem sq_pivot (hD : D.IsExact) (hc : 0 < a.ncols) :
    (upperFactor D a).entry 0 0 ^ 2 = a.gram 0 0 := by
  have hcols : (upperFactor D a).ncols = a.ncols := ncols_upperFactor hD.toIsTriangular a
  have hgram : (upperFactor D a).gram 0 0 = a.gram 0 0 :=
    Dense.gram_eq_of_energy hcols.ge le_rfl (fun v _ => energy_upperFactor hD a v) hc hc
  rw [← hgram, sq, Dense.gram]
  refine Eq.symm (sum_eq_single 0 (fun i _ hi => ?_) fun hrows => ?_)
  · rw [entry_upperFactor_below hD.toIsTriangular a (Nat.pos_of_ne_zero hi), zero_mul]
  · rw [Dense.entry_of_nrows_le _ (not_lt.mp fun h => hrows (mem_range.mpr h)), zero_mul]

/-- **A single pivot passes just if the column is not negligible.** -/
theorem requirePivots_one_iff (hD : D.IsExact) (hc : 0 < a.ncols) :
    requirePivots key (upperFactor D a) 1 = .ok () ↔ negligiblePivot ^ 2 < a.gram 0 0 := by
  have hsq : negligiblePivot ^ 2 < a.gram 0 0 ↔ negligiblePivot < |(upperFactor D a).entry 0 0| := by
    rw [← sq_pivot hD hc, sq_lt_sq, abs_of_pos negligiblePivot_pos]
  rw [requirePivots_eq_ok_iff, hsq]
  constructor
  · intro h
    obtain ⟨-, -, hpivot⟩ := h 0 Nat.one_pos
    exact not_le.mp hpivot
  · intro h i hi
    obtain rfl : i = 0 := by omega
    refine ⟨not_le.mp fun hrows => ?_, ?_, not_le.mpr h⟩
    · rw [Dense.entry_of_nrows_le _ hrows, abs_zero] at h
      exact h.not_gt negligiblePivot_pos
    · rwa [ncols_upperFactor hD.toIsTriangular]

/-- Soft rows settle a variable of one entry just if its column is not negligible. -/
theorem exists_stepSoft_one_iff (hD : D.IsExact) (hc : 0 < soft.ncols) :
    (∃ out, stepSoft D key 1 soft = .ok out) ↔ negligiblePivot ^ 2 < soft.gram 0 0 := by
  have hpivot : requirePivots key (upperFactor D soft) 1 = .ok () ↔
      negligiblePivot ^ 2 < soft.gram 0 0 := requirePivots_one_iff hD hc
  rw [← hpivot]
  exact ⟨fun ⟨_, h⟩ => (stepSoft_eq_ok_iff.mp h).1, fun h => ⟨_, stepSoft_eq_ok_iff.mpr ⟨h, rfl⟩⟩⟩

/-! ### Hard rows -/

theorem frontalPairs_one (hard : Dense ℝ) :
    frontalPairs .standard 1 hard = [⟨hard.gram 0 0, [1]⟩] := by
  have hgram := entry_frontalGram hard Nat.one_pos Nat.one_pos
  have hspectrum : Dense.spectrum (frontalGram 1 hard) = [⟨hard.gram 0 0, [1]⟩] := by
    rw [Dense.spectrum_one rfl rfl, hgram]
  show byEigenvalue (Dense.spectrum (frontalGram 1 hard)) = _
  rw [hspectrum, byEigenvalue, List.mergeSort_singleton]

theorem singularValue_eq (x : ℝ) (v : List ℝ) (hx : 0 ≤ x) : singularValue ⟨x, v⟩ = Real.sqrt x := by
  rw [singularValue, Scalar.positivePart_eq, max_eq_left hx]
  rfl

/-- The column is counted into the range if it is not negligible. -/
theorem splitRange_one {x : ℝ} {v : List ℝ} (hx : negligiblePivot ^ 2 < x) :
    splitRange [⟨x, v⟩] = ([⟨x, v⟩], []) := by
  have hpos : 0 ≤ x := (sq_nonneg _).trans hx.le
  have hroot : negligiblePivot < Real.sqrt x := (Real.lt_sqrt negligiblePivot_pos.le).mpr hx
  have hthreshold : rankThreshold [(⟨x, v⟩ : Eigenpair ℝ)] < singularValue ⟨x, v⟩ := by
    rw [singularValue_eq x v hpos, rankThreshold, singularValue_eq x v hpos, Scalar.larger]
    have hratio : (negligibleRatio : ℝ) * Real.sqrt x < Real.sqrt x := by
      have : (negligibleRatio : ℝ) < 1 := by
        unfold negligibleRatio
        norm_num
      nlinarith [negligiblePivot_pos]
    split_ifs
    · exact hratio
    · exact hroot
  rw [splitRange, List.span_eq_takeWhile_dropWhile]
  simp [hthreshold]

section Hard

variable (hgram : negligiblePivot ^ 2 < hard.gram 0 0)

include hgram

theorem rangePairs_one : rangePairs .standard 1 hard = [⟨hard.gram 0 0, [1]⟩] := by
  rw [rangePairs, frontalPairs_one, splitRange_one hgram]

theorem kernelPairs_one : kernelPairs .standard 1 hard = [] := by
  rw [kernelPairs, frontalPairs_one, splitRange_one hgram]

theorem frontalRank_one : frontalRank .standard 1 hard = 1 := by
  rw [frontalRank, rangePairs_one hgram]
  rfl

/-- **The counted rank is exact.** -/
theorem exactRank_one : ExactRank .standard 1 hard where
  eigenbasis := by
    have hspectrum : Dense.spectrum (frontalGram 1 hard) = [⟨hard.gram 0 0, [1]⟩] := by
      rw [Dense.spectrum_one rfl rfl, entry_frontalGram hard Nat.one_pos Nat.one_pos]
    show IsEigenbasis (frontalGram 1 hard) (Dense.spectrum (frontalGram 1 hard))
    rw [hspectrum]
    refine ⟨rfl, fun p hp => ?_, List.pairwise_singleton _ _, fun p hp i hi => ?_⟩
    · obtain rfl := List.mem_singleton.mp hp
      show ∑ k ∈ range 1, [(1 : ℝ)].getD k 0 * [(1 : ℝ)].getD k 0 = 1
      simp
    · obtain rfl := List.mem_singleton.mp hp
      obtain rfl : i = 0 := Nat.lt_one_iff.mp hi
      show ∑ j ∈ range 1, (frontalGram 1 hard).entry 0 j * [(1 : ℝ)].getD j 0 = _
      rw [sum_range_one, entry_frontalGram hard Nat.one_pos Nat.one_pos]
  uncounted := by
    rw [kernelPairs_one hgram]
    exact fun p hp => by cases hp

theorem entry_basis_one : (basis 1 (rangePairs .standard 1 hard)).entry 0 0 = 1 := by
  rw [entry_basis Nat.one_pos (by rw [rangePairs_one hgram]; exact Nat.one_pos)]
  simp [rangePairs_one hgram]

/-- The column over the range is the column of the variable. -/
theorem gram_rangeStack_one : (rangeStack .standard 1 hard).gram 0 0 = hard.gram 0 0 := by
  set block := (frontalBlock 1 hard).mul (basis 1 (rangePairs .standard 1 hard)) with hblock
  have hcols : block.ncols = 1 := frontalRank_one hgram
  refine sum_congr rfl fun i hi => ?_
  have hi : i < hard.nrows := mem_range.mp hi
  have hentry : (rangeStack .standard 1 hard).entry i 0 = hard.entry i 0 := by
    have hi' : i < block.nrows := hi
    have hmul : block.entry i 0 = ∑ k ∈ range 1, (frontalBlock 1 hard).entry i k *
        (basis 1 (rangePairs .standard 1 hard)).entry k 0 :=
      Dense.entry_mul_real _ _ hi (hcols.symm ▸ Nat.one_pos)
    rw [rangeStack, ← hblock, Dense.entry_beside_of_lt _ _ hi' (by omega), hmul, sum_range_one,
      entry_basis_one hgram, mul_one, frontalBlock, Dense.entry_view _ hi Nat.one_pos, Nat.zero_add]
  rw [hentry]

theorem requirePivots_range_one (key : κ) :
    requirePivots key (hardFactor .standard 1 hard) (frontalRank .standard 1 hard) = .ok () := by
  have hcols : (rangeStack .standard 1 hard).ncols = 1 + (hard.ncols - 1) :=
    congrArg (· + (hard.ncols - 1)) (frontalRank_one hgram)
  rw [frontalRank_one hgram, hardFactor,
    requirePivots_one_iff Decompositions.standard_isExact (by omega), gram_rangeStack_one hgram]
  exact hgram

/-- So is the column of the rows put together again. -/
theorem gram_recombined_one (hc : 0 < hard.ncols) (softTop : Dense ℝ) :
    (recombined .standard 1 hard softTop).gram 0 0 = hard.gram 0 0 := by
  have hrank := frontalRank_one hgram
  have hcols : (rangeStack .standard 1 hard).ncols = 1 + (hard.ncols - 1) :=
    congrArg (· + (hard.ncols - 1)) hrank
  have hrows : (recombined .standard 1 hard softTop).nrows = 1 := by
    show frontalRank .standard 1 hard + (1 - frontalRank .standard 1 hard) = 1
    rw [hrank]
  set block := (rangeFactor .standard 1 hard).mul (basis 1 (rangePairs .standard 1 hard)).transpose
    with hblock
  have hblockRows : 0 < block.nrows := by
    show 0 < frontalRank .standard 1 hard
    omega
  have hmul : block.entry 0 0 = ∑ k ∈ range (frontalRank .standard 1 hard),
      (rangeFactor .standard 1 hard).entry 0 k *
        (basis 1 (rangePairs .standard 1 hard)).transpose.entry k 0 :=
    Dense.entry_mul_real _ _ hblockRows Nat.one_pos
  have hentry : (recombined .standard 1 hard softTop).entry 0 0 =
      (rangeFactor .standard 1 hard).entry 0 0 := by
    have hwide : 0 < (rangeRows .standard 1 hard).ncols := by
      show 0 < 1 + (hard.ncols - 1)
      omega
    have htall : 0 < (rangeRows .standard 1 hard).nrows := hblockRows
    rw [recombined, Dense.entry_above_of_lt _ _ htall hwide, rangeRows, ← hblock,
      Dense.entry_beside_of_lt _ _ hblockRows Nat.one_pos, hmul, hrank, sum_range_one,
      Dense.entry_transpose, entry_basis_one hgram, mul_one]
  have hpivot := sq_pivot Decompositions.standard_isExact
    (show 0 < (rangeStack .standard 1 hard).ncols by omega)
  rw [Dense.gram, hrows, sum_range_one, hentry, entry_rangeFactor
    Decompositions.standard_isTriangular (show hard.ncols = 1 + (hard.ncols - 1) by omega) (by omega)
    (by omega), ← sq, hardFactor, hpivot, gram_rangeStack_one hgram]

/-- **With hard rows** a step takes out a variable of one entry if the hard column is not
negligible. -/
theorem exists_stepHard_one (hc : 0 < hard.ncols) (key : κ) (soft : Dense ℝ) :
    ∃ out, stepHard .standard key 1 hard soft = .ok out := by
  have hrank := frontalRank_one hgram
  refine exists_stepHard Decompositions.standard_isTriangular one_ne_zero
    (show hard.ncols = 1 + (hard.ncols - 1) by omega) hrank (requirePivots_range_one hgram key)
    fun softTop => ?_
  have hcols : (recombined .standard 1 hard softTop).ncols = 1 + (hard.ncols - 1) := rfl
  rw [requirePivots_one_iff Decompositions.standard_isExact (by omega), gram_recombined_one hgram hc]
  exact hgram

end Hard

/-! ### The run -/

section Run

variable [LinearOrder κ] {widths : Assignment κ ℕ} {remaining : List (LinearEquation κ ℝ)} {k : κ}

/-- One at the first entry of a variable, zero elsewhere. -/
def unitAt (k : κ) : Valuation κ := fun l j => if l = k ∧ j = 0 then 1 else 0

omit [LinearOrder κ] in
theorem spread_eq_zero {x : Valuation κ} : ∀ {layout : Layout κ}, (∀ l ∈ layout, ∀ j, x l.1 j = 0) →
    ∀ j, spread 0 x layout j = 0
  | [], _, _ => neg_zero
  | l :: layout, h, j => by
    rw [spread]
    split_ifs
    · exact h l List.mem_cons_self j
    · exact spread_eq_zero (fun l hl => h l (List.mem_cons_of_mem _ hl)) _

theorem spread_unitAt (hw : widthOf widths k = 1) :
    spread 0 (unitAt k) (layoutOf widths remaining k) = Dense.unitVec 0 := by
  have hrest : ∀ l ∈ separating widths remaining k, ∀ j, unitAt k l.1 j = 0 := fun l hl j =>
    if_neg fun h => (mem_separating.mp (List.mem_map.mpr ⟨l, hl, rfl⟩)).1 h.1
  funext j
  rw [layoutOf, hw, spread, Dense.unitVec]
  by_cases hj : j = 0
  · rw [if_pos (by omega), if_pos hj, hj]
    exact if_pos ⟨rfl, rfl⟩
  · rw [if_neg (by omega), if_neg hj]
    exact spread_eq_zero hrest _

/-- The column of a variable of one entry has the length of its coefficients. -/
theorem gram_stack_one (hfit : Fitted widths remaining) (hw : widthOf widths k = 1)
    (p : LinearEquation κ ℝ → Bool) :
    (stackRows (layoutOf widths remaining k) ((touching remaining k).filter p)).gram 0 0 =
      totalEnergy ((touching remaining k).filter p) 0 (unitAt k) := by
  rw [← Dense.energy_unitVec _ (Nat.succ_pos _), ← spread_unitAt hw]
  exact energy_stackRows nodup_layoutOf
    (fun r hr b hb => hfit.mem_layoutOf (List.mem_of_mem_filter hr) hb) 0 _

/-- The equations that a pivot is taken from: the hard ones if there are any. -/
def pivotal (remaining : List (LinearEquation κ ℝ)) (k : κ) : List (LinearEquation κ ℝ) :=
  if (hardOn remaining k).isEmpty then softOn remaining k else hardOn remaining k

theorem totalRows_pivotal_le (remaining : List (LinearEquation κ ℝ)) (k : κ) :
    totalRows (pivotal remaining k) ≤ totalRows (touching remaining k) := by
  have hsplit : totalRows (touching remaining k) =
      totalRows (hardOn remaining k) + totalRows (softOn remaining k) := totalRows_filter _ _
  rw [pivotal]
  split_ifs <;> omega

omit [LinearOrder κ] in
theorem totalRows_pos_of_energy {t : ℝ} {x : Valuation κ} : ∀ {equations : List (LinearEquation κ ℝ)},
    0 < totalEnergy equations t x → 0 < totalRows equations
  | [], h => absurd h (lt_irrefl 0)
  | r :: equations, h => by
    rw [totalRows]
    by_cases hr : r.rows = 0
    · have hzero : r.energy t x = 0 := by rw [LinearEquation.energy, hr, sum_range_zero]
      rw [totalEnergy_cons, hzero, zero_add] at h
      have := totalRows_pos_of_energy h
      omega
    · omega

/-- **A step takes a variable of one entry out** if its coefficients are not negligible. -/
theorem exists_eliminateNext_one (hfit : Fitted widths remaining) (hw : widthOf widths k = 1)
    (hlong : negligiblePivot ^ 2 < totalEnergy (pivotal remaining k) 0 (unitAt k)) :
    ∃ c rest, eliminateNext .standard widths remaining k = .ok (c, rest) := by
  have hrows : 0 < totalRows (touching remaining k) :=
    (totalRows_pos_of_energy ((sq_nonneg _).trans_lt hlong)).trans_le (totalRows_pivotal_le _ _)
  have hne : touching remaining k ≠ [] := fun h0 => by
    rw [h0] at hrows
    exact lt_irrefl 0 hrows
  refine exists_eliminateNext hne (by omega) ?_
  rw [pivotal] at hlong
  rw [reduced, hw]
  split_ifs at hlong ⊢
  · refine (exists_stepSoft_one_iff Decompositions.standard_isExact (Nat.succ_pos _)).mpr ?_
    rw [softStack, softOn, gram_stack_one hfit hw]
    exact hlong
  · refine exists_stepHard_one ?_ (Nat.succ_pos _) k _
    rw [hardStack, hardOn, gram_stack_one hfit hw]
    exact hlong

/-- The rank that such a step counts is exact. -/
theorem exactRank_stack_one (hfit : Fitted widths remaining) (hw : widthOf widths k = 1)
    (hlong : negligiblePivot ^ 2 < totalEnergy (hardOn remaining k) 0 (unitAt k)) :
    ExactRank .standard (widthOf widths k) (hardStack widths remaining k) := by
  rw [hw]
  refine exactRank_one ?_
  rw [hardStack, hardOn, gram_stack_one hfit hw]
  exact hlong

/-- The step as a run of its own. -/
theorem exists_eliminate_one {s : LinearSystem κ ℝ} {w : Assignment κ ℕ}
    (hw : Elimination.widths s = .ok w) (hdim : s.dim k = 1)
    (hlong : negligiblePivot ^ 2 < totalEnergy (pivotal (prepared s) k) 0 (unitAt k))
    (hrest : ∀ c rest, eliminateNext .standard w (prepared s) k = .ok (c, rest) →
      mentioned rest = []) : ∃ net, eliminate .standard s [k] = .ok net := by
  obtain ⟨hfit, hdims⟩ := widths_eq_ok hw
  obtain ⟨c, rest, hnext⟩ := exists_eliminateNext_one (fitted_prepared hfit)
    ((hdims k).trans hdim) hlong
  refine ⟨⟨[c]⟩, eliminate_eq_ok_iff.mpr ⟨w, rest, hw, ?_, hrest c rest hnext⟩⟩
  rw [eliminateAll, hnext]
  rfl

/-- **A system on one variable of one entry** is eliminated whatever its right-hand sides are. -/
theorem exists_eliminate_alone {s : LinearSystem κ ℝ} {w : Assignment κ ℕ}
    (hw : Elimination.widths s = .ok w) (hdim : s.dim k = 1)
    (hlong : negligiblePivot ^ 2 < totalEnergy (pivotal (prepared s) k) 0 (unitAt k))
    (halone : ∀ l ∈ s.keys, l = k) : ∃ net, eliminate .standard s [k] = .ok net := by
  refine exists_eliminate_one hw hdim hlong fun c rest hnext => ?_
  obtain ⟨out, hardRest, softRest, hstep⟩ := isStep_of_eliminateNext hnext
  refine List.eq_nil_iff_forall_not_mem.mpr fun l hl => ?_
  obtain ⟨hm, hne⟩ := hstep.mem_mentioned_rest hl
  exact hne (halone l (mem_keys_iff_prepared.mpr hm))

/-- **A system of one row** is eliminated by any of its variables of one entry, and the others
leave the equations unnoticed. -/
theorem exists_eliminate_row {s : LinearSystem κ ℝ} {w : Assignment κ ℕ}
    (hw : Elimination.widths s = .ok w) (hdim : s.dim k = 1)
    (hlong : negligiblePivot ^ 2 < totalEnergy (pivotal (prepared s) k) 0 (unitAt k))
    {r : LinearEquation κ ℝ} (hs : s.equations = [r]) (hrow : r.rows = 1) :
    ∃ net, eliminate .standard s [k] = .ok net := by
  refine exists_eliminate_one hw hdim hlong fun c rest hnext => ?_
  obtain ⟨out, hardRest, softRest, hstep⟩ := isStep_of_eliminateNext hnext
  obtain ⟨r', hr'⟩ : ∃ r', prepared s = [r'] := by
    rw [prepared, hs]
    exact ⟨_, rfl⟩
  have hmentions : r'.mentions k = true := by
    have hne := hstep.touching_ne
    rw [hr', touching] at hne
    by_contra h
    exact hne (List.filter_cons_of_neg h)
  have htouching : touching (prepared s) k = prepared s := by
    rw [hr']
    exact List.filter_cons_of_pos hmentions
  have huntouched : untouched (prepared s) k = [] := by
    rw [hr']
    exact List.filter_cons_of_neg (by simp [hmentions])
  have hrows : totalRows (touching (prepared s) k) = widthOf w k := by
    rw [htouching, totalRows_prepared, hs, totalRows, totalRows, hrow, (widths_eq_ok hw).2, hdim]
  rw [hstep.rest_eq_untouched Decompositions.standard_isTriangular hrows, huntouched]
  rfl

end Run

/-! ### Sums of variables -/

theorem energy_sumEquation (hard : Bool) (keys : List ℕ) (b t : ℝ) (x : Valuation ℕ) :
    (sumEquation hard keys b).energy t x = ((keys.dedup.map fun k => x k 0).sum - t * b) ^ 2 := by
  have hentry : (Dense.ofRows 1 [[1]] : Dense ℝ).entry 0 0 = 1 :=
    Dense.entry_ofFn_of_lt (m := 1) (n := 1) _ Nat.one_pos Nat.one_pos
  have himage : ∀ k, (Dense.ofRows 1 [[1]] : Dense ℝ).image (x k) 0 = x k 0 := by
    intro k
    show ∑ j ∈ range 1, (Dense.ofRows 1 [[1]] : Dense ℝ).entry 0 j * x k j = x k 0
    rw [sum_range_one, hentry, one_mul]
  have hblocks : (sumEquation hard keys b).blocks.map (fun d => d.2.image (x d.1) 0) =
      keys.dedup.map fun k => x k 0 := by
    rw [sumEquation, List.map_map]
    exact List.map_congr_left fun k _ => himage k
  show ∑ i ∈ range 1, (sumEquation hard keys b).defect t x i ^ 2 = _
  rw [sum_range_one, LinearEquation.defect, hblocks]
  rfl

theorem energy_weighted_sumEquation (keys : List ℕ) (b t : ℝ) (x : Valuation ℕ) :
    (sumEquation false keys b).weighted.energy t x =
      ((keys.dedup.map fun k => x k 0).sum - t * b) ^ 2 := by
  have hweight : (sumEquation false keys b).noise.weights.getD 0 0 = 1 := rfl
  rw [LinearEquation.energy_weighted, ← energy_sumEquation false keys b t x]
  show ∑ i ∈ range 1, _ = ∑ i ∈ range 1, _
  rw [sum_range_one, sum_range_one, hweight, one_mul]

end Elimination
end Kinodynamics
