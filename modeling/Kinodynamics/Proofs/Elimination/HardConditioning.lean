/-
# Elimination of well-conditioned hard equations

Let the hard equations lengthen every valuation by a factor between `τ` and `υ`, and let these
be close enough that no singular value falls below the fraction of the largest at which
singular values stop to count. Then every step on hard rows counts the whole variable into the
range, so that no direction is dropped (`IsConditioned.isFullRank`), and no pivot fails
(`IsConditioned.exists_stepHard`). The hard equations that a step leaves lengthen by factors
between the same bounds: their energy is the one at the value of the variable that its
conditional gives, and it is at most the one at zero (`IsStep.wellConditioned`). So a run over
all variables succeeds in any order, and its ranks are exact
(`exists_eliminateAll_of_wellConditioned`).

Key definitions: `Elimination.IsConditioned`, `Elimination.IsFullRank`,
`Elimination.WellConditioned`.
Key theorems: `Elimination.IsConditioned.isFullRank`, `Elimination.IsConditioned.exists_stepHard`,
`Elimination.IsStep.wellConditioned`, `Elimination.exists_eliminateAll_of_wellConditioned`,
`Elimination.exists_solve_of_wellConditioned`.
-/
import Kinodynamics.Proofs.Elimination.Conditioning
import Kinodynamics.Proofs.Elimination.Spectrum

namespace Kinodynamics

open Finset

namespace Elimination

/-! ### Singular values -/

/-- Factors so close that singular values between them all count. -/
structure Separated (τ υ : ℝ) : Prop where
  pivot_le : negligiblePivot ≤ τ
  ratio_mul_le : negligibleRatio * υ ≤ τ
  nonneg : 0 ≤ υ

section SingularValues

variable {pairs : List (Eigenpair ℝ)} {τ υ : ℝ}

theorem rankThreshold_le (hsep : Separated τ υ) (h : ∀ p ∈ pairs, singularValue p ≤ υ) :
    rankThreshold pairs ≤ τ := by
  have hpos : (0 : ℝ) ≤ negligibleRatio := by norm_num [negligibleRatio]
  cases pairs with
  | nil => exact hsep.pivot_le
  | cons p pairs =>
    rw [rankThreshold, Scalar.larger]
    split_ifs
    · exact (mul_le_mul_of_nonneg_left (h p List.mem_cons_self) hpos).trans hsep.ratio_mul_le
    · exact hsep.pivot_le

/-- Singular values above the threshold all count. -/
theorem splitRange_snd_eq_nil (h : ∀ p ∈ pairs, rankThreshold pairs < singularValue p) :
    (splitRange pairs).2 = [] := by
  rw [splitRange, List.span_eq_takeWhile_dropWhile]
  exact List.dropWhile_eq_nil_iff.mpr fun p hp => decide_eq_true (h p hp)

end SingularValues

/-! ### The rows of a step -/

section Rows

variable {κ : Type} {D : Decompositions ℝ} {n tail : ℕ} {hard soft : Dense ℝ} {key : κ} {τ υ : ℝ}

/-- The whole variable is counted into the range, along an exact basis. -/
structure IsFullRank (D : Decompositions ℝ) (n : ℕ) (hard : Dense ℝ) : Prop where
  exactRank : ExactRank D n hard
  kernelPairs_eq : kernelPairs D n hard = []

namespace IsFullRank

theorem frontalRank_eq (h : IsFullRank D n hard) : frontalRank D n hard = n := by
  have hlength := h.exactRank.length_eq
  rwa [h.kernelPairs_eq, List.length_nil, add_zero] at hlength

/-- Vectors put together from coordinates in the range are as long as these. -/
theorem sum_sq_image (h : IsFullRank D n hard) (p : ℕ → ℝ) :
    ∑ k ∈ range n, (basis n (rangePairs D n hard)).image p k ^ 2 = ∑ j ∈ range n, p j ^ 2 := by
  have hbasis := h.exactRank.sorted
  rw [h.kernelPairs_eq, List.append_nil] at hbasis
  have hsum := sum_sq_image_basis hbasis p
  rwa [show (rangePairs D n hard).length = n from h.frontalRank_eq] at hsum

/-- The hard rows over the range are those at the vector put together. -/
theorem energy_rangeStack (h : IsFullRank D n hard) (hc : hard.ncols = n + tail) (p u : ℕ → ℝ) :
    (rangeStack D n hard).energy (glue n p u) =
      hard.energy (glue n ((basis n (rangePairs D n hard)).image p) u) := by
  set v1 := basis n (rangePairs D n hard)
  have hcols : v1.ncols = n := h.frontalRank_eq
  have hcoordinates : v1.image (glue n p u) = v1.image p := funext fun k =>
    v1.image_congr (fun j hj => glue_of_lt _ _ (hcols ▸ hj)) k
  have htail : (fun j => glue n p u (v1.ncols + j)) = u := funext fun j => by rw [hcols, glue_add]
  refine sum_congr rfl fun i hi => ?_
  rw [rangeStack, image_mul_beside hard v1 (by omega) (mem_range.mp hi), hcoordinates, htail]

/-- The hard rows at zero outside of the variable are the rows put together again. -/
theorem energy_recombined (h : IsFullRank D n hard) (hD : D.IsExact) (hc : hard.ncols = n + tail)
    (hpivots : requirePivots key (hardFactor D n hard) (frontalRank D n hard) = .ok ())
    (softTop : Dense ℝ) {v : ℕ → ℝ} (hv : ∀ j, n ≤ j → v j = 0) :
    (recombined D n hard softTop).energy v = hard.energy v := by
  have hrest : (splitBelow (hardFactor D n hard) (frontalRank D n hard)).2.energy
      (fun j => v (n + j)) = 0 := Dense.energy_eq_zero_iff.mpr fun i _ =>
    sum_eq_zero fun j _ => mul_eq_zero_of_right _ (hv _ (Nat.le_add_right n j))
  have hkernel : (kernelRows D n hard softTop).nrows = 0 := by
    show n - frontalRank D n hard = 0
    rw [h.frontalRank_eq, Nat.sub_self]
  have hwidth : (kernelRows D n hard softTop).ncols = (rangeRows D n hard).ncols := rfl
  rw [recombined, Dense.energy_above _ _ hwidth, Dense.energy_of_nrows_eq_zero hkernel, add_zero,
    energy_rangeRows hD.toIsTriangular hc, h.exactRank.energy_hard hD hpivots hc, hrest, add_zero]

/-- Whatever the tail is, there is a value of the variable at which the hard rows have the energy
of those that are left. -/
theorem exists_energy_eq (h : IsFullRank D n hard) (hD : D.IsExact) (hc : hard.ncols = n + tail)
    {gain softTop : Dense ℝ} {out : StepRows ℝ} (hstep : IsHardStep D n hard soft key gain softTop out)
    (u : ℕ → ℝ) : ∃ v, hard.energy (glue n v u) = out.hard.energy u := by
  have hcols : (rangeStack D n hard).ncols = n + tail := by
    show frontalRank D n hard + (hard.ncols - n) = n + tail
    rw [h.frontalRank_eq, hc, Nat.add_sub_cancel_left]
  have hpivots : requirePivots key (upperFactor D (rangeStack D n hard)) n = .ok () := by
    have hrange := hstep.rangePivots
    rwa [h.frontalRank_eq] at hrange
  obtain ⟨p, hp⟩ := exists_energy_splitBelow_eq_zero hD hcols hpivots u
  have hrest : out.hard = (splitBelow (upperFactor D (rangeStack D n hard)) n).2 := by
    rw [hstep.hard_eq, h.frontalRank_eq]
    rfl
  refine ⟨(basis n (rangePairs D n hard)).image p, ?_⟩
  rw [← h.energy_rangeStack hc, energy_splitBelow hD hcols hpivots, hp, zero_add, hrest]

end IsFullRank

/-- The first `n` columns lengthen vectors by factors between `τ` and `υ`. -/
structure IsConditioned (τ υ : ℝ) (n : ℕ) (a : Dense ℝ) : Prop where
  lt_energy : ∀ v : ℕ → ℝ, (∀ j, n ≤ j → v j = 0) → (∃ j < n, v j ≠ 0) →
    τ ^ 2 * ∑ j ∈ range n, v j ^ 2 < a.energy v
  energy_le : ∀ v : ℕ → ℝ, (∀ j, n ≤ j → v j = 0) → a.energy v ≤ υ ^ 2 * ∑ j ∈ range n, v j ^ 2

theorem exists_ne_zero_of_sum_sq_pos {v : ℕ → ℝ} (h : 0 < ∑ j ∈ range n, v j ^ 2) :
    ∃ j < n, v j ≠ 0 := by
  obtain ⟨j, hj, hvj⟩ := exists_ne_zero_of_sum_ne_zero h.ne'
  exact ⟨j, mem_range.mp hj, fun h0 => hvj (by rw [h0, zero_pow two_ne_zero])⟩

theorem glue_zero_of_le (p : ℕ → ℝ) (j : ℕ) (hj : n ≤ j) : glue n p (fun _ => 0) j = 0 :=
  if_neg (not_lt.mpr hj)

theorem sum_sq_glue (p u : ℕ → ℝ) : ∑ j ∈ range n, glue n p u j ^ 2 = ∑ j ∈ range n, p j ^ 2 :=
  sum_congr rfl fun j hj => by rw [glue_of_lt _ _ (mem_range.mp hj)]

namespace IsConditioned

/-- The eigenvalues of the Gram matrix of the frontal block lie between the squared factors. -/
theorem value_mem (h : IsConditioned τ υ n hard) (hn : n ≤ hard.ncols) {pairs : List (Eigenpair ℝ)}
    (hpairs : IsEigenbasis (frontalGram n hard) pairs) {p : Eigenpair ℝ} (hp : p ∈ pairs) :
    τ ^ 2 < p.value ∧ p.value ≤ υ ^ 2 := by
  set v := glue n (p.vector.getD · 0) fun _ => 0
  have hzero : ∀ j, n ≤ j → v j = 0 := glue_zero_of_le _
  have hlength : ∑ j ∈ range n, v j ^ 2 = 1 := by
    rw [sum_sq_glue, ← hpairs.unit p hp]
    exact sum_congr rfl fun j _ => sq _
  have henergy : hard.energy v = p.value := by
    rw [← energy_frontalBlock hpairs hp, ← hard.energy_view_columns hn hzero]
    exact Dense.energy_congr _ fun j hj => glue_of_lt _ _ hj
  have hlt := h.lt_energy v hzero (exists_ne_zero_of_sum_sq_pos (by rw [hlength]; exact one_pos))
  have hle := h.energy_le v hzero
  rw [hlength, henergy, mul_one] at hlt hle
  exact ⟨hlt, hle⟩

/-- **No direction is dropped.** -/
theorem isFullRank (h : IsConditioned τ υ n hard) (hsep : Separated τ υ) (hD : D.HasExactSpectrum)
    (hn : n ≤ hard.ncols) : IsFullRank D n hard := by
  have hspectrum := hD _ (isSymmetric_frontalGram n hard)
  have hpairs : IsEigenbasis (frontalGram n hard) (frontalPairs D n hard) :=
    hspectrum.perm (byEigenvalue_perm _)
  have hvalue : ∀ p ∈ frontalPairs D n hard, τ < singularValue p ∧ singularValue p ≤ υ := fun p hp => by
    obtain ⟨hlt, hle⟩ := h.value_mem hn hpairs hp
    rw [singularValue_eq p.value p.vector ((sq_nonneg τ).trans hlt.le)]
    exact ⟨(Real.lt_sqrt (negligiblePivot_pos.le.trans hsep.pivot_le)).mpr hlt,
      Real.sqrt_le_iff.mpr ⟨hsep.nonneg, hle⟩⟩
  have hkernel : kernelPairs D n hard = [] := splitRange_snd_eq_nil fun p hp =>
    (rankThreshold_le hsep fun p hp => (hvalue p hp).2).trans_lt (hvalue p hp).1
  refine ⟨⟨hspectrum, ?_⟩, hkernel⟩
  rw [hkernel]
  exact nofun

/-- The pivots of the range pass. -/
theorem requirePivots_range (h : IsConditioned τ υ n hard) (hsep : Separated τ υ) (hD : D.IsExact)
    (hfull : IsFullRank D n hard) (hc : hard.ncols = n + tail) (key : κ) :
    requirePivots key (hardFactor D n hard) (frontalRank D n hard) = .ok () := by
  rw [hfull.frontalRank_eq]
  refine requirePivots_of_lt_energy hD hsep.pivot_le ?_ (fun v hv hne => ?_) key
  · exact hfull.frontalRank_eq.symm.le.trans (Nat.le_add_right _ _)
  · have hpos : 0 < ∑ j ∈ range n, v j ^ 2 := by
      obtain ⟨j, hj, hvj⟩ := hne
      exact sum_pos' (fun _ _ => sq_nonneg _) ⟨j, mem_range.mpr hj, by positivity⟩
    have hglue : glue n v (fun _ => 0) = v := funext fun j => by
      by_cases hj : j < n
      · exact glue_of_lt _ _ hj
      · rw [glue_zero_of_le _ _ (not_lt.mp hj), hv j (not_lt.mp hj)]
    -- the vector put together from the coordinates is as long as they are
    set x := glue n ((basis n (rangePairs D n hard)).image v) fun _ => 0
    have hlength : ∑ j ∈ range n, x j ^ 2 = ∑ j ∈ range n, v j ^ 2 := by
      rw [sum_sq_glue, hfull.sum_sq_image]
    have henergy : (rangeStack D n hard).energy v = hard.energy x := by
      rw [← hfull.energy_rangeStack hc, hglue]
    rw [henergy, ← hlength]
    exact h.lt_energy x (glue_zero_of_le _) (exists_ne_zero_of_sum_sq_pos (hlength ▸ hpos))

/-- **No step fails on conditioned hard rows**, whatever the soft rows are. -/
theorem exists_stepHard (h : IsConditioned τ υ n hard) (hsep : Separated τ υ) (hD : D.IsExact)
    (hspectrum : D.HasExactSpectrum) (hpos : 0 < n) (hc : hard.ncols = n + tail) (key : κ)
    (soft : Dense ℝ) : ∃ out, stepHard D key n hard soft = .ok out := by
  have hfull := h.isFullRank hsep hspectrum (by omega)
  have hpivots := h.requirePivots_range hsep hD hfull hc key
  refine Elimination.exists_stepHard hD.toIsTriangular hpos.ne' hc hfull.frontalRank_eq hpivots
    fun softTop => requirePivots_of_lt_energy hD hsep.pivot_le ?_ (fun v hv hne => ?_) key
  · exact Nat.le_add_right n _
  · rw [hfull.energy_recombined hD hc hpivots softTop hv]
    exact h.lt_energy v hv hne

end IsConditioned

/-- There is a row for each column. -/
theorem IsConditioned.le_nrows (h : IsConditioned τ υ n hard) (hsep : Separated τ υ)
    (hn : n ≤ hard.ncols) : n ≤ hard.nrows := by
  have hD : (Decompositions.standard : Decompositions ℝ).IsExact := Decompositions.standard_isExact
  have hle := le_nrows_of_requirePivots (requirePivots_of_lt_energy hD hsep.pivot_le hn h.lt_energy ())
  rw [nrows_upperFactor hD.toIsTriangular] at hle
  exact hle.trans (min_le_left _ _)

end Rows

/-! ### The equations of a step -/

section Step

variable {κ : Type}

/-- The hard ones among the equations lengthen every valuation of `keys` by a factor between `τ`
and `υ`. -/
structure WellConditioned (τ υ : ℝ) (dim : κ → ℕ) (keys : List κ)
    (equations : List (LinearEquation κ ℝ)) : Prop where
  stretches : Stretches τ dim keys (equations.filter fun r => r.isHard)
  energy_le : ∀ x, totalEnergy (equations.filter fun r => r.isHard) 0 x ≤
    υ ^ 2 * squaredLength dim keys x

variable [LinearOrder κ] {D : Decompositions ℝ} {widths : Assignment κ ℕ}
  {remaining rest : List (LinearEquation κ ℝ)} {frontal : κ} {keys : List κ} {out : StepRows ℝ}
  {hardRest softRest : List (LinearEquation κ ℝ)} {c : Conditional κ ℝ} {τ υ : ℝ}

theorem ncols_hardStack : (hardStack widths remaining frontal).ncols =
    widthOf widths frontal + (width (separating widths remaining frontal) + 1) := Nat.add_assoc _ _ _

theorem IsStep.isHardStep (h : IsStep D widths remaining frontal out hardRest softRest c rest)
    (hne : hardOn remaining frontal ≠ []) : ∃ gain softTop,
      IsHardStep D (widthOf widths frontal) (hardStack widths remaining frontal)
        (softStack widths remaining frontal) frontal gain softTop out := by
  have hreduced := h.reduced_eq
  rw [reduced, if_neg fun hempty => hne (List.isEmpty_iff.mp hempty)] at hreduced
  exact isHardStep_of_stepHard hreduced

/-- The energy of the hard equations after a step. -/
theorem IsStep.totalEnergy_hard_rest
    (h : IsStep D widths remaining frontal out hardRest softRest c rest)
    (hcols : out.hard.ncols = width (separating widths remaining frontal) + 1) (y : Valuation κ) :
    totalEnergy (rest.filter fun r => r.isHard) 0 y =
      out.hard.energy (spread 0 y (separating widths remaining frontal)) +
        totalEnergy ((untouched remaining frontal).filter fun r => r.isHard) 0 y := by
  rw [h.filter_hard_rest, totalEnergy_append, h.isHardRest.totalEnergy_zero_eq hcols, add_comm]

/-- The hard equations left have no more energy than those before. -/
theorem IsStep.totalEnergy_hard_le (hD : D.IsExact) (hfit : Fitted widths remaining)
    (hrank : hardOn remaining frontal ≠ [] →
      ExactRank D (widthOf widths frontal) (hardStack widths remaining frontal))
    (h : IsStep D widths remaining frontal out hardRest softRest c rest) (y : Valuation κ) :
    totalEnergy (rest.filter fun r => r.isHard) 0 y ≤
      totalEnergy (remaining.filter fun r => r.isHard) 0 y := by
  have hrows := h.carriesRows hD hrank
  obtain ⟨fixing, -, hfixing, -, hhard, -, -⟩ :=
    hrows.energy (spread 0 y (layoutOf widths remaining frontal))
  have htail : (fun j => spread 0 y (layoutOf widths remaining frontal) (widthOf widths frontal + j)) =
      spread 0 y (separating widths remaining frontal) := funext fun j =>
    spread_cons_add 0 y frontal _ j _
  have hstack := energy_stack_add (fun r => r.isHard) frontal hfit y
  rw [htail, hardStack, hardOn] at hhard
  rw [h.totalEnergy_hard_rest hrows.ncols_hard, ← hstack, hhard]
  linarith

/-- Whatever values the other variables have, the variable taken out has a value at which the
hard equations have the energy of those that are left. -/
theorem IsStep.exists_hard_energy_eq (hD : D.IsExact) (hfit : Fitted widths remaining)
    (hne : hardOn remaining frontal ≠ [])
    (hfull : IsFullRank D (widthOf widths frontal) (hardStack widths remaining frontal))
    (h : IsStep D widths remaining frontal out hardRest softRest c rest) (y : Valuation κ) :
    ∃ x : Valuation κ, (∀ k, k ≠ frontal → x k = y k) ∧
      totalEnergy (remaining.filter fun r => r.isHard) 0 x =
        totalEnergy (rest.filter fun r => r.isHard) 0 y := by
  set sep := separating widths remaining frontal
  obtain ⟨gain, softTop, hstep⟩ := h.isHardStep hne
  obtain ⟨v, hv⟩ := hfull.exists_energy_eq hD ncols_hardStack hstep (spread 0 y sep)
  have hx : ∀ k, k ≠ frontal → Function.update y frontal v k = y k := fun k hk =>
    Function.update_of_ne hk _ _
  have huntouched : totalEnergy ((untouched remaining frontal).filter fun r => r.isHard) 0
      (Function.update y frontal v) =
        totalEnergy ((untouched remaining frontal).filter fun r => r.isHard) 0 y :=
    totalEnergy_congr fun k hk => hx k (ne_of_mem_of_not_mem hk frontal_notMem_untouched_filter)
  have hstack := energy_stack_add (fun r => r.isHard) frontal hfit (Function.update y frontal v)
  refine ⟨Function.update y frontal v, hx, ?_⟩
  rw [← hstack, spread_update, huntouched,
    h.totalEnergy_hard_rest (h.carriesRows hD fun _ => hfull.exactRank).ncols_hard, ← hv]
  rfl

variable (hsep : Separated τ υ) (hD : D.IsExact) (hspectrum : D.HasExactSpectrum)
  (hfit : Fitted widths remaining) (hpos : 0 < widthOf widths frontal) (hnew : frontal ∉ keys)
  (hwell : WellConditioned τ υ (widthOf widths) (frontal :: keys) remaining)

include hfit hnew hwell

/-- The stack of the hard equations on a variable is conditioned as they are. -/
theorem WellConditioned.hardStack :
    IsConditioned τ υ (widthOf widths frontal) (hardStack widths remaining frontal) where
  lt_energy := fun _ hv hne => hwell.stretches.energy_stack hfit hnew hv hne
  energy_le := fun v hv => by
    rw [Elimination.hardStack, hardOn, energy_stack_only _ hfit hv,
      ← squaredLength_only (widthOf widths) hnew v]
    exact hwell.energy_le _

include hsep

theorem WellConditioned.le_totalRows : widthOf widths frontal ≤ totalRows (hardOn remaining frontal) := by
  have hle := (hwell.hardStack hfit hnew).le_nrows hsep (by rw [ncols_hardStack]; omega)
  rwa [Elimination.hardStack, nrows_stackRows] at hle

include hspectrum in
theorem WellConditioned.isFullRank :
    IsFullRank D (widthOf widths frontal) (Elimination.hardStack widths remaining frontal) :=
  (hwell.hardStack hfit hnew).isFullRank hsep hspectrum (by rw [ncols_hardStack]; omega)

include hpos

theorem WellConditioned.hardOn_ne_nil : hardOn remaining frontal ≠ [] := fun hnil => by
  have hle := hwell.le_totalRows hsep hfit hnew
  rw [hnil, totalRows] at hle
  omega

include hspectrum hD

/-- **No step fails on well-conditioned equations.** -/
theorem exists_eliminateNext_of_wellConditioned :
    ∃ c rest, eliminateNext D widths remaining frontal = .ok (c, rest) := by
  have hne := hwell.hardOn_ne_nil hsep hfit hpos hnew
  refine exists_eliminateNext (fun hnil => hne ?_) ?_ ?_
  · rw [hardOn, hnil, List.filter_nil]
  · have hrows := totalRows_filter (fun r => r.isHard) (touching remaining frontal)
    have hle := hwell.le_totalRows hsep hfit hnew
    rw [hardOn] at hle
    omega
  · rw [reduced, if_neg fun hempty => hne (List.isEmpty_iff.mp hempty)]
    exact (hwell.hardStack hfit hnew).exists_stepHard hsep hD hspectrum hpos ncols_hardStack frontal _

/-- **The equations that a step leaves are as well conditioned.** -/
theorem IsStep.wellConditioned (h : IsStep D widths remaining frontal out hardRest softRest c rest) :
    WellConditioned τ υ (widthOf widths) keys rest := by
  have hfull := hwell.isFullRank (D := D) hsep hspectrum hfit hnew
  have hne := hwell.hardOn_ne_nil hsep hfit hpos hnew
  have hkeys : ∀ {x y : Valuation κ}, (∀ k, k ≠ frontal → x k = y k) →
      squaredLength (widthOf widths) keys x = squaredLength (widthOf widths) keys y := fun hxy =>
    squaredLength_congr fun k hk => hxy k (ne_of_mem_of_not_mem hk hnew)
  refine ⟨fun y hy => ?_, fun y => ?_⟩
  · obtain ⟨x, hx, henergy⟩ := h.exists_hard_energy_eq hD hfit hne hfull y
    have hle : squaredLength (widthOf widths) keys y ≤
        squaredLength (widthOf widths) (frontal :: keys) x := by
      rw [squaredLength_cons, hkeys hx]
      exact le_add_of_nonneg_left (sum_nonneg fun _ _ => sq_nonneg _)
    calc τ ^ 2 * squaredLength (widthOf widths) keys y
        ≤ τ ^ 2 * squaredLength (widthOf widths) (frontal :: keys) x :=
          mul_le_mul_of_nonneg_left hle (sq_nonneg τ)
      _ < totalEnergy (remaining.filter fun r => r.isHard) 0 x := hwell.stretches x (hy.trans_le hle)
      _ = totalEnergy (rest.filter fun r => r.isHard) 0 y := henergy
  · -- the variable taken out does not occur in what is left, so it may be zero
    set x := Function.update y frontal fun _ => 0 with hxdef
    have hx : ∀ k, k ≠ frontal → x k = y k := fun k hk => Function.update_of_ne hk _ _
    have hlength : squaredLength (widthOf widths) (frontal :: keys) x =
        squaredLength (widthOf widths) keys y := by
      have hzero : ∑ j ∈ range (widthOf widths frontal), x frontal j ^ 2 = 0 :=
        sum_eq_zero fun j _ => by rw [hxdef, Function.update_self, zero_pow two_ne_zero]
      rw [squaredLength_cons, hkeys hx, hzero, zero_add]
    calc totalEnergy (rest.filter fun r => r.isHard) 0 y
        = totalEnergy (rest.filter fun r => r.isHard) 0 x := by
          refine totalEnergy_congr fun k hk => (hx k ?_).symm
          obtain ⟨r, hr, hkr⟩ := mem_mentioned.mp hk
          exact (h.mem_mentioned_rest (mem_mentioned.mpr ⟨r, List.mem_of_mem_filter hr, hkr⟩)).2
      _ ≤ totalEnergy (remaining.filter fun r => r.isHard) 0 x :=
          h.totalEnergy_hard_le hD hfit (fun _ => hfull.exactRank) x
      _ ≤ υ ^ 2 * squaredLength (widthOf widths) (frontal :: keys) x := hwell.energy_le x
      _ = υ ^ 2 * squaredLength (widthOf widths) keys y := by rw [hlength]

/-! ### The run -/

omit hfit hpos hnew hwell

/-- **No run fails on well-conditioned equations**, and its ranks are exact, by induction on the
ordering. -/
theorem exists_eliminateAll_of_wellConditioned : ∀ {ordering : List κ}
    {remaining : List (LinearEquation κ ℝ)}, Fitted widths remaining →
      (∀ k ∈ ordering, 0 < widthOf widths k) → ordering.Nodup →
      WellConditioned τ υ (widthOf widths) ordering remaining →
      ExactRanks D widths ordering remaining ∧
        ∃ conditionals final, eliminateAll D widths ordering remaining = .ok (conditionals, final)
  | [], remaining, _, _, _, _ => ⟨trivial, [], remaining, rfl⟩
  | frontal :: ordering, remaining, hfit, hpos, hnodup, hwell => by
    obtain ⟨hnew, hnodup⟩ := List.nodup_cons.mp hnodup
    have hfrontal := hpos frontal List.mem_cons_self
    have hlater : ∀ k ∈ ordering, 0 < widthOf widths k := fun k hk => hpos k (List.mem_cons_of_mem _ hk)
    have hnext : ∀ c rest, eliminateNext D widths remaining frontal = .ok (c, rest) →
        ExactRanks D widths ordering rest ∧
          ∃ conditionals final, eliminateAll D widths ordering rest = .ok (conditionals, final) :=
      fun c rest h => by
        obtain ⟨out, hardRest, softRest, hstep⟩ := isStep_of_eliminateNext h
        exact exists_eliminateAll_of_wellConditioned (hstep.fitted hfit) hlater hnodup
          (hstep.wellConditioned hsep hD hspectrum hfit hfrontal hnew hwell)
    obtain ⟨c, rest, hstep⟩ :=
      exists_eliminateNext_of_wellConditioned hsep hD hspectrum hfit hfrontal hnew hwell
    obtain ⟨-, conditionals, final, hrun⟩ := hnext c rest hstep
    refine ⟨⟨fun _ => (hwell.isFullRank hsep hspectrum hfit hnew).exactRank,
      fun c rest h => (hnext c rest h).1⟩, c :: conditionals, final, ?_⟩
    rw [eliminateAll, hstep]
    show (eliminateAll D widths ordering rest >>= _) = _
    rw [hrun]
    rfl

end Step

/-! ### The solution -/

section Solution

variable {κ : Type} [LinearOrder κ] {D : Decompositions ℝ} {s : LinearSystem κ ℝ} {τ υ : ℝ}

/-- **Well-conditioned hard equations are solved in every order.** Where they have a solution, it
is the one that comes out, whatever the soft equations are. -/
theorem exists_solve_of_wellConditioned (hsep : Separated τ υ) (hD : D.IsExact)
    (hspectrum : D.HasExactSpectrum) (hconsistent : s.Consistent) (hwide : ∀ k ∈ s.keys, 0 < s.dim k)
    (hwell : WellConditioned τ υ s.dim s.keys s.equations) {solution : Solution κ ℝ}
    (hfits : s.Fits solution) (hsat : s.SatisfiesHard solution) {ordering : List κ}
    (hperm : ordering.Perm s.keys) :
    ∃ net x, eliminate D s ordering = .ok net ∧ net.solve = .ok x ∧
      ∀ k ∈ s.keys, x.get? k = solution.get? k := by
  obtain ⟨w, hw⟩ := exists_widths hconsistent
  obtain ⟨hfit, hdim⟩ := widths_eq_ok hw
  have hprepared : WellConditioned τ υ (widthOf w) ordering (prepared s) := by
    rw [funext hdim]
    refine ⟨fun x hx => ?_, fun x => ?_⟩
    · rw [filter_hard_prepared, squaredLength_perm _ hperm] at *
      exact hwell.stretches x hx
    · rw [filter_hard_prepared, squaredLength_perm _ hperm]
      exact hwell.energy_le x
  obtain ⟨hranks, conditionals, final, hrun⟩ := exists_eliminateAll_of_wellConditioned hsep hD hspectrum
    (fitted_prepared hfit) (fun k hk => by rw [hdim]; exact hwide k (hperm.mem_iff.mp hk))
    (hperm.nodup_iff.mpr s.nodup_keys) hprepared
  have hall : ∀ k ∈ s.keys, k ∈ ordering := fun k hk => hperm.mem_iff.mpr hk
  have hnet := eliminate_eq_ok_of_run hw hrun hall
  obtain ⟨x, hx⟩ := (exists_solve_iff hD.toIsTriangular hnet).mpr hall
  have hxfits := fits_of_solve hD.toIsTriangular hnet hx
  refine ⟨_, x, hnet, hx, fun k hk => get?_eq_of_valuation hxfits hfits hk fun j hj => ?_⟩
  -- both satisfy the hard equations, which tell any two valuations apart
  have hsolution := (satisfiesHard_iff hw hfits).mp hsat
  obtain ⟨-, -, -, hholds⟩ := exists_value hD hnet
    (fun w' hw' => by rwa [← Except.ok.inj (hw.symm.trans hw')]) ⟨_, hsolution⟩
  have hzero := hholds _ (energy_solution hD.toIsTriangular hnet hx)
  rw [hardEnergy_prepared] at hsolution hzero
  suffices hsame : squaredLength s.dim s.keys (fun k j => valuation x k j - valuation solution k j) = 0 from
    eq_of_squaredLength_sub_eq_zero hsame hk hj
  by_contra hne
  have hpos := (squaredLength_nonneg _ _ _).lt_of_ne' hne
  have hlt := hwell.stretches _ hpos
  rw [totalEnergy_sub_eq_zero hzero hsolution] at hlt
  exact hlt.not_ge (mul_nonneg (sq_nonneg τ) hpos.le)

end Solution

end Elimination
end Kinodynamics
