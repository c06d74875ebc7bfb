/-
# What a step on hard rows reads of right-hand sides

The split of the frontal variable into range and null space is read off the Gram matrix
of the hard block, which has no right-hand side in it. From there on the step works on
factors, and each is alike on stacks that are (`alike_stepHard`).

Key theorems: `Elimination.frontalPairs_eq`, `Elimination.sameCoefficients_rangeStack`,
`Elimination.alike_rangeGain`, `Elimination.alike_splitSoft`, `Elimination.alike_stepHard`.
-/
import Kinodynamics.Proofs.Elimination.Coefficients

namespace Kinodynamics
namespace Elimination

open Finset

variable {κ : Type} {D : Decompositions ℝ} {key : κ} {n tail : ℕ} {hard hard' soft soft' : Dense ℝ}

/-- The spectrum is that of one matrix. -/
theorem frontalPairs_eq (h : SameCoefficients (n + tail) hard hard') :
    frontalPairs D n hard = frontalPairs D n hard' := by
  have hgram : frontalGram n hard = frontalGram n hard' := by
    refine Dense.ext_entry rfl rfl fun j k hj hk => ?_
    have hj : j < n := hj
    have hk : k < n := hk
    rw [entry_frontalGram hard hj hk, entry_frontalGram hard' hj hk, h.gram_eq (by omega) (by omega)]
  exact congrArg (fun g => byEigenvalue (D.spectrum g)) hgram

theorem rangePairs_eq (h : SameCoefficients (n + tail) hard hard') :
    rangePairs D n hard = rangePairs D n hard' := by
  rw [rangePairs, rangePairs, frontalPairs_eq h]

theorem kernelPairs_eq (h : SameCoefficients (n + tail) hard hard') :
    kernelPairs D n hard = kernelPairs D n hard' := by
  rw [kernelPairs, kernelPairs, frontalPairs_eq h]

theorem frontalRank_eq (h : SameCoefficients (n + tail) hard hard') :
    frontalRank D n hard = frontalRank D n hard' := by
  rw [frontalRank, frontalRank, rangePairs_eq h]

/-- A complete spectrum splits into a range and a null space for the whole variable. -/
theorem length_kernelPairs (hS : D.IsComplete) (n : ℕ) (hard : Dense ℝ) :
    frontalRank D n hard + (kernelPairs D n hard).length = n :=
  (frontalRank_add_length D n hard).trans (hS _)

theorem sameCoefficients_rangeStack (h : SameCoefficients (n + tail) hard hard') :
    SameCoefficients (frontalRank D n hard + tail) (rangeStack D n hard) (rangeStack D n hard') := by
  have hc := h.ncols_left
  have hc' := h.ncols_right
  refine ⟨h.nrows_eq, ?_, ?_, fun v hv => ?_⟩
  · show frontalRank D n hard + (hard.ncols - n) = _
    omega
  · show frontalRank D n hard' + (hard'.ncols - n) = _
    rw [← frontalRank_eq h]
    omega
  · have hrank : (basis n (rangePairs D n hard)).ncols = frontalRank D n hard := rfl
    set joined := glue n ((basis n (rangePairs D n hard)).image v)
      fun j => v (frontalRank D n hard + j) with hjoined
    have hzero : ∀ j, n + tail ≤ j → joined j = 0 := fun j hj => by
      obtain ⟨j, rfl⟩ := Nat.exists_eq_add_of_le (show n ≤ j by omega)
      rw [hjoined, glue_add, hv _ (by omega)]
    have hleft : (rangeStack D n hard).energy v = hard.energy joined :=
      sum_congr rfl fun i hi => congrArg (· ^ 2)
        (image_mul_beside hard _ (by omega) (mem_range.mp hi) v)
    have hright : (rangeStack D n hard').energy v = hard'.energy joined := by
      refine sum_congr rfl fun i hi => congrArg (· ^ 2) ?_
      rw [rangeStack, ← rangePairs_eq h]
      exact image_mul_beside hard' _ (by omega) (mem_range.mp hi) v
    rw [hleft, hright, h.energy_eq _ hzero]

/-- Where the pivots of the range pass, its factor is one matrix. -/
theorem rangeFactor_eq (hD : D.IsExact) (h : SameCoefficients (n + tail) hard hard')
    (hok : requirePivots key (hardFactor D n hard) (frontalRank D n hard) = .ok ()) :
    rangeFactor D n hard = rangeFactor D n hard' := by
  have hrank := frontalRank_eq (D := D) h
  obtain ⟨-, hentry⟩ := entry_eq_of_pivots hD (sameCoefficients_rangeStack h) (by omega) hok
  refine Dense.ext_entry hrank hrank fun i j hi hj => ?_
  have hi : i < frontalRank D n hard := hi
  have hj : j < frontalRank D n hard := hj
  rw [entry_rangeFactor hD.toIsTriangular (h.ncols_left.trans (Nat.add_assoc _ _ _)) hi hj,
    entry_rangeFactor hD.toIsTriangular (h.ncols_right.trans (Nat.add_assoc _ _ _)) (hrank ▸ hi)
      (hrank ▸ hj)]
  exact hentry i hi j (by omega)

theorem entry_rangeTail (hD : D.IsTriangular) (hc : hard.ncols = n + (tail + 1)) {i j : ℕ}
    (hi : i < frontalRank D n hard) (hj : j < tail + 1) :
    (rangeTail D n hard).entry i j = (hardFactor D n hard).entry i (frontalRank D n hard + j) := by
  have hcols : (hardFactor D n hard).ncols = frontalRank D n hard + (tail + 1) := ncols_hardTop hD hc
  rw [rangeTail, Dense.entry_view _ hi (by omega), hardTop, splitBelow,
    Dense.entry_view _ (by omega) (by omega)]
  simp only [Nat.zero_add]

/-- Where the pivots of the range pass, its tail has the same coefficients. -/
theorem entry_rangeTail_eq (hD : D.IsExact) (h : SameCoefficients (n + tail) hard hard')
    (hok : requirePivots key (hardFactor D n hard) (frontalRank D n hard) = .ok ()) {i j : ℕ}
    (hi : i < frontalRank D n hard) (hj : j < tail) :
    (rangeTail D n hard).entry i j = (rangeTail D n hard').entry i j := by
  have hrank := frontalRank_eq (D := D) h
  obtain ⟨-, hentry⟩ := entry_eq_of_pivots hD (sameCoefficients_rangeStack h) (by omega) hok
  rw [entry_rangeTail hD.toIsTriangular (h.ncols_left.trans (Nat.add_assoc _ _ _)) hi (by omega),
    entry_rangeTail hD.toIsTriangular (h.ncols_right.trans (Nat.add_assoc _ _ _)) (hrank ▸ hi)
      (by omega), ← hrank]
  exact hentry i hi _ (by omega)

/-- Gains that agree on a tail without right-hand side. -/
structure SameGain (rank tail : ℕ) (gain gain' : Dense ℝ) : Prop where
  ncols_left : gain.ncols = tail + 1
  ncols_right : gain'.ncols = tail + 1
  image_eq : ∀ u : ℕ → ℝ, (∀ j, tail ≤ j → u j = 0) → ∀ i < rank, gain.image u i = gain'.image u i

/-- The tail can be solved for the range on both. -/
theorem alike_rangeGain (hD : D.IsExact) (h : SameCoefficients (n + tail) hard hard')
    (hok : requirePivots key (hardFactor D n hard) (frontalRank D n hard) = .ok ()) :
    Alike (SameGain (frontalRank D n hard) tail) (rangeGain D n hard key) (rangeGain D n hard' key) := by
  have hc : hard.ncols = n + (tail + 1) := h.ncols_left.trans (Nat.add_assoc _ _ _)
  have hc' : hard'.ncols = n + (tail + 1) := h.ncols_right.trans (Nat.add_assoc _ _ _)
  have hdiag : ∀ i < (rangeFactor D n hard).nrows, (rangeFactor D n hard).entry i i ≠ 0 :=
    fun i hi => rangeFactor_ne_zero hD.toIsTriangular hc hok hi
  have hupper := upper_rangeFactor hD.toIsTriangular hc
  have hok' : requirePivots key (hardFactor D n hard') (frontalRank D n hard') = .ok () := by
    rw [← frontalRank_eq h, ← hok]
    exact (requirePivots_eq hD (sameCoefficients_rangeStack h) (by omega)).symm
  obtain ⟨gain, hgain⟩ := exists_gain hD.toIsTriangular hc hok
  obtain ⟨gain', hgain'⟩ := exists_gain hD.toIsTriangular hc' hok'
  rw [← rangeFactor_eq hD h hok] at hgain'
  rw [rangeGain, rangeGain, ← rangeFactor_eq hD h hok, hgain, hgain']
  have hcols := (Dense.solveUpperColumns_eq_some hgain).2.1
  have hcols' := (Dense.solveUpperColumns_eq_some hgain').2.1
  have hw : (rangeTail D n hard).ncols = hard.ncols - n := rfl
  have hw' : (rangeTail D n hard').ncols = hard'.ncols - n := rfl
  refine Alike.ok ⟨by omega, by omega, fun u hu => ?_⟩
  refine Dense.eq_of_image_eq hupper rfl hdiag fun i hi => ?_
  have hi : i < frontalRank D n hard := hi
  rw [Dense.image_solveUpperColumns hupper rfl hgain u hi,
    Dense.image_solveUpperColumns hupper rfl hgain' u hi, Dense.image, Dense.image,
    show (rangeTail D n hard).ncols = tail + 1 by omega,
    show (rangeTail D n hard').ncols = tail + 1 by omega, sum_range_succ, sum_range_succ,
    hu tail le_rfl, mul_zero, mul_zero]
  congr 1
  exact sum_congr rfl fun j hj => by rw [entry_rangeTail_eq hD h hok hi (mem_range.mp hj)]

/-- The soft rows with the range put in are alike. -/
theorem sameCoefficients_softProjected (h : SameCoefficients (n + tail) hard hard')
    (hs : SameCoefficients (n + tail) soft soft') {gain gain' : Dense ℝ}
    (hgain : SameGain (frontalRank D n hard) tail gain gain') :
    SameCoefficients ((kernelPairs D n hard).length + tail) (softProjected D n hard soft gain)
      (softProjected D n hard' soft' gain') := by
  have hc := h.ncols_left
  have hc' := h.ncols_right
  have hsc := hs.ncols_left
  have hsc' := hs.ncols_right
  refine ⟨hs.nrows_eq, ?_, ?_, fun v hv => ?_⟩
  · show (kernelPairs D n hard).length + (hard.ncols - n) = _
    omega
  · show (kernelPairs D n hard').length + (hard'.ncols - n) = _
    rw [← kernelPairs_eq h]
    omega
  · set u := fun j => v ((kernelPairs D n hard).length + j) with hu
    have hu0 : ∀ j, tail ≤ j → u j = 0 := fun j hj => hv _ (by omega)
    set joined := glue n (fun k => (basis n (kernelPairs D n hard)).image v k -
      (basis n (rangePairs D n hard)).image (gain.image u) k) u with hjoined
    have hzero : ∀ j, n + tail ≤ j → joined j = 0 := fun j hj => by
      obtain ⟨j, rfl⟩ := Nat.exists_eq_add_of_le (show n ≤ j by omega)
      rw [hjoined, glue_add, hu0 j (by omega)]
    have hleft : (softProjected D n hard soft gain).energy v = soft.energy joined :=
      sum_congr rfl fun i hi => congrArg (· ^ 2)
        (image_softProjected (by omega) (by omega) (by rw [hgain.ncols_left]; omega)
          (mem_range.mp hi) v)
    have hright : (softProjected D n hard' soft' gain').energy v = soft'.energy joined := by
      refine sum_congr rfl fun i hi => congrArg (· ^ 2) ?_
      rw [image_softProjected (by omega) (by omega) (by rw [hgain.ncols_right]; omega)
        (mem_range.mp hi) v, ← kernelPairs_eq h, ← rangePairs_eq h]
      have hsame : (basis n (rangePairs D n hard)).image (gain'.image u) =
          (basis n (rangePairs D n hard)).image (gain.image u) := by
        funext k
        exact Dense.image_congr _ (fun j hj => (hgain.image_eq u hu0 j hj).symm) k
      rw [hjoined, ← hsame]
    rw [hleft, hright, hs.energy_eq _ hzero]

/-- Soft rows split into rows that fix the null space, with the same coefficients, and
remainders that are alike. -/
structure SameSplit (free tail : ℕ) (parts parts' : Dense ℝ × Dense ℝ) : Prop where
  entry_eq : ∀ i < free, ∀ j < free + tail, parts.1.entry i j = parts'.1.entry i j
  rest : SameCoefficients tail parts.2 parts'.2

theorem alike_splitSoft (hD : D.IsExact) {free : ℕ} {a b : Dense ℝ}
    (h : SameCoefficients (free + tail) a b) :
    Alike (SameSplit free tail) (splitSoft D key free (tail + 1) a)
      (splitSoft D key free (tail + 1) b) := by
  unfold splitSoft
  refine Alike.ite (by rw [h.nrows_eq]) (fun _ => Alike.ok ?_) fun _ => ?_
  · exact ⟨fun _ _ _ _ => rfl,
      SameCoefficients.of_entry rfl rfl rfl fun i hi => absurd hi (Nat.not_lt_zero i)⟩
  · refine Alike.bind_eq (requirePivots_eq hD h (by omega)) fun _ hok => Alike.ok ?_
    have hfactor := h.upperFactor hD
    obtain ⟨-, hentry⟩ := entry_eq_of_pivots hD h (by omega) hok
    refine ⟨fun i hi j hj => ?_, sameCoefficients_rest hD h hok⟩
    show ((Elimination.upperFactor D a).view 0 0 free _).entry i j =
      ((Elimination.upperFactor D b).view 0 0 free _).entry i j
    rw [Dense.entry_view _ hi (by rw [hfactor.ncols_left]; omega),
      Dense.entry_view _ hi (by rw [hfactor.ncols_right]; omega), Nat.zero_add, Nat.zero_add,
      hentry i hi j hj]

/-- The rows that fix the range have the same coefficients. -/
theorem entry_rangeRows_eq (hD : D.IsExact) (h : SameCoefficients (n + tail) hard hard')
    (hok : requirePivots key (hardFactor D n hard) (frontalRank D n hard) = .ok ()) {i j : ℕ}
    (hi : i < frontalRank D n hard) (hj : j < n + tail) :
    (rangeRows D n hard).entry i j = (rangeRows D n hard').entry i j := by
  have hc := h.ncols_left
  have hc' := h.ncols_right
  have hblock : (rangeFactor D n hard).mul (basis n (rangePairs D n hard)).transpose =
      (rangeFactor D n hard').mul (basis n (rangePairs D n hard')).transpose := by
    rw [rangeFactor_eq hD h hok, rangePairs_eq h]
  have hi' : i < ((rangeFactor D n hard).mul (basis n (rangePairs D n hard)).transpose).nrows := hi
  rw [rangeRows, rangeRows, ← hblock]
  by_cases hjn : j < n
  · rw [Dense.entry_beside_of_lt _ _ hi' hjn, Dense.entry_beside_of_lt _ _ hi' hjn]
  · have hjt : j - n < tail := by omega
    have hbeside : ∀ b : Dense ℝ, j - n < b.ncols → (((rangeFactor D n hard).mul
        (basis n (rangePairs D n hard)).transpose).beside b).entry i j = b.entry i (j - n) :=
      fun b hb => Dense.entry_beside_of_le _ b hi' (not_lt.mp hjn) hb
    rw [hbeside (rangeTail D n hard) (show j - n < hard.ncols - n by omega),
      hbeside (rangeTail D n hard') (show j - n < hard'.ncols - n by omega)]
    exact entry_rangeTail_eq hD h hok hi hjt

/-- The rows that fix the null space have the same coefficients. -/
theorem entry_kernelRows_eq (h : SameCoefficients (n + tail) hard hard')
    {parts parts' : Dense ℝ × Dense ℝ}
    (hparts : SameSplit (n - frontalRank D n hard) tail parts parts') {i j : ℕ}
    (hi : i < n - frontalRank D n hard) (hj : j < n + tail) :
    (kernelRows D n hard parts.1).entry i j = (kernelRows D n hard' parts'.1).entry i j := by
  have hc := h.ncols_left
  have hc' := h.ncols_right
  have hrank := frontalRank_eq (D := D) h
  set free := n - frontalRank D n hard with hfree
  have hsquare : parts.1.view 0 0 free free = parts'.1.view 0 0 free free := by
    refine Dense.ext_entry rfl rfl fun k l hk hl => ?_
    have hk : k < free := hk
    have hl : l < free := hl
    rw [Dense.entry_view _ hk hl, Dense.entry_view _ hk hl, Nat.zero_add, Nat.zero_add,
      hparts.entry_eq k hk l (by omega)]
  have hi' : i < ((parts'.1.view 0 0 free free).mul (basis n (kernelPairs D n hard)).transpose).nrows :=
    hi
  rw [kernelRows, kernelRows, ← hrank, ← kernelPairs_eq h, ← hfree, hsquare]
  by_cases hjn : j < n
  · rw [Dense.entry_beside_of_lt _ _ hi' hjn, Dense.entry_beside_of_lt _ _ hi' hjn]
  · have hbeside : ∀ b : Dense ℝ, j - n < b.ncols → (((parts'.1.view 0 0 free free).mul
        (basis n (kernelPairs D n hard)).transpose).beside b).entry i j = b.entry i (j - n) :=
      fun b hb => Dense.entry_beside_of_le _ b hi' (not_lt.mp hjn) hb
    rw [hbeside (parts.1.view 0 free free (hard.ncols - n)) (show j - n < hard.ncols - n by omega),
      hbeside (parts'.1.view 0 free free (hard'.ncols - n))
        (show j - n < hard'.ncols - n by omega)]
    show (parts.1.view 0 free free (hard.ncols - n)).entry i (j - n) =
      (parts'.1.view 0 free free (hard'.ncols - n)).entry i (j - n)
    rw [Dense.entry_view _ hi (by omega), Dense.entry_view _ hi (by omega), Nat.zero_add,
      hparts.entry_eq i hi _ (by omega)]

/-- The rows of the conditional are alike. -/
theorem sameCoefficients_recombined (hD : D.IsExact) (h : SameCoefficients (n + tail) hard hard')
    (hok : requirePivots key (hardFactor D n hard) (frontalRank D n hard) = .ok ())
    {parts parts' : Dense ℝ × Dense ℝ}
    (hparts : SameSplit (n - frontalRank D n hard) tail parts parts') :
    SameCoefficients (n + tail) (recombined D n hard parts.1) (recombined D n hard' parts'.1) := by
  have hc := h.ncols_left
  have hc' := h.ncols_right
  have hrank := frontalRank_eq (D := D) h
  have hwidth : (rangeRows D n hard).ncols = n + (hard.ncols - n) := rfl
  have hwidth' : (rangeRows D n hard').ncols = n + (hard'.ncols - n) := rfl
  have hrows : (rangeRows D n hard).nrows = frontalRank D n hard := rfl
  have hrows' : (rangeRows D n hard').nrows = frontalRank D n hard' := rfl
  refine SameCoefficients.of_entry ?_ ?_ ?_ fun i hi j hj => ?_
  · show frontalRank D n hard + (n - frontalRank D n hard) =
      frontalRank D n hard' + (n - frontalRank D n hard')
    rw [hrank]
  · show n + (hard.ncols - n) = _
    omega
  · show n + (hard'.ncols - n) = _
    omega
  · have hi : i < (rangeRows D n hard).nrows + (kernelRows D n hard parts.1).nrows := hi
    have hkernel : (kernelRows D n hard parts.1).nrows = n - frontalRank D n hard := rfl
    have hkernel' : (kernelRows D n hard' parts'.1).nrows = n - frontalRank D n hard' := rfl
    have hi' : i < (rangeRows D n hard').nrows + (kernelRows D n hard' parts'.1).nrows := by omega
    rw [recombined, recombined, Dense.above, Dense.above,
      Dense.entry_ofFn_of_lt _ hi (by omega), Dense.entry_ofFn_of_lt _ hi' (by omega), hrows, hrows',
      ← hrank]
    by_cases hir : i < frontalRank D n hard
    · rw [if_pos hir, if_pos hir]
      exact entry_rangeRows_eq hD h hok hir hj
    · rw [if_neg hir, if_neg hir]
      exact entry_kernelRows_eq h hparts (by omega) hj

/-- **With hard rows** a step does the same. -/
theorem alike_stepHard (hD : D.IsExact) (hS : D.IsComplete)
    (h : SameCoefficients (n + tail) hard hard') (hs : SameCoefficients (n + tail) soft soft') :
    Alike (SameRows n tail) (stepHard D key n hard soft) (stepHard D key n hard' soft') := by
  have hc := h.ncols_left
  have hc' := h.ncols_right
  have hrank := frontalRank_eq (D := D) h
  have hfree : (kernelPairs D n hard).length = n - frontalRank D n hard := by
    have := length_kernelPairs hS n hard
    omega
  have htail : hard.ncols - n = tail + 1 := by omega
  have htail' : hard'.ncols - n = tail + 1 := by omega
  rw [stepHard_eq, stepHard_eq, htail, htail', ← hrank, ← hs.nrows_eq]
  refine Alike.ite Iff.rfl (fun _ => Alike.error _) fun _ => ?_
  have hstack := sameCoefficients_rangeStack (D := D) h
  refine Alike.bind_eq (requirePivots_eq hD hstack (by omega)) fun _ hok => ?_
  refine Alike.bind (alike_rangeGain hD h hok) fun gain gain' _ hgain => ?_
  refine Alike.ite Iff.rfl (fun _ => Alike.error _) fun _ => ?_
  have hprojected := sameCoefficients_softProjected h hs hgain
  rw [hfree] at hprojected
  refine Alike.bind (alike_splitSoft hD hprojected) fun parts parts' _ hparts => ?_
  have hrecombined := sameCoefficients_recombined hD h hok hparts
  have hfactor := hrecombined.upperFactor hD
  refine Alike.bind_eq (requirePivots_eq hD hrecombined (by omega)) fun _ hpivots => Alike.ok ?_
  obtain ⟨-, hentry⟩ := entry_eq_of_pivots hD hrecombined (by omega) hpivots
  exact ⟨hfactor.ncols_left, hfactor.ncols_right, hentry, sameCoefficients_rest hD hstack hok,
    hparts.rest⟩

end Elimination
end Kinodynamics
