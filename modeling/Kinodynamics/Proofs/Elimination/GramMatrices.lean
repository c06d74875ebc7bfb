/-
# A step reads the Gram matrices of its stacks

Two stacks with the same energy at every vector have one Gram matrix. A triangular factor
with positive pivots is determined by it, so the first rows of the factors are equal and
the rows below have one Gram matrix again. The spectrum is that of a block of the Gram
matrix. So every test of a step comes out the same, the rows of the conditional are equal
and the remainders have the same energies (`SameGram.stepSoft`, `SameGram.stepHard`).
How the rows of a stack are listed is not among the things read.

Key definitions: `Elimination.SameGram`, `Elimination.SameStep`.
Key theorems: `Elimination.SameGram.firstRows_eq`, `Elimination.SameGram.rest`,
`Elimination.SameGram.stepSoft`, `Elimination.SameGram.stepHard`.
-/
import Kinodynamics.Proofs.Elimination.HardCoefficients

namespace Kinodynamics
namespace Elimination

open Finset

/-- Matrices of one shape with the same energy everywhere, which is the same Gram matrix. -/
structure SameGram (m : ℕ) (a b : Dense ℝ) : Prop where
  nrows_eq : a.nrows = b.nrows
  ncols_left : a.ncols = m
  ncols_right : b.ncols = m
  energy_eq : ∀ v : ℕ → ℝ, a.energy v = b.energy v

variable {κ : Type} {D : Decompositions ℝ} {key : κ} {m n tail : ℕ}
  {a b hard hard' soft soft' : Dense ℝ}

namespace SameGram

theorem refl (h : a.ncols = m) : SameGram m a a := ⟨rfl, h, h, fun _ => rfl⟩

theorem coefficients (h : SameGram (m + 1) a b) : SameCoefficients m a b :=
  ⟨h.nrows_eq, h.ncols_left, h.ncols_right, fun v _ => h.energy_eq v⟩

theorem gram_eq (h : SameGram m a b) {j k : ℕ} (hj : j < m) (hk : k < m) : a.gram j k = b.gram j k :=
  Dense.gram_eq_of_energy h.ncols_left.ge h.ncols_right.ge (fun v _ => h.energy_eq v) hj hk

/-! ### Factors -/

theorem upperFactor (hD : D.IsExact) (h : SameGram m a b) :
    SameGram m (upperFactor D a) (upperFactor D b) where
  nrows_eq := by
    rw [nrows_upperFactor hD.toIsTriangular, nrows_upperFactor hD.toIsTriangular, h.nrows_eq,
      h.ncols_left, h.ncols_right]
  ncols_left := (ncols_upperFactor hD.toIsTriangular a).trans h.ncols_left
  ncols_right := (ncols_upperFactor hD.toIsTriangular b).trans h.ncols_right
  energy_eq := fun v => by rw [energy_upperFactor hD, energy_upperFactor hD, h.energy_eq]

/-- **As far as pivots pass, the first rows are equal**, right-hand sides included. -/
theorem firstRows_eq (hD : D.IsExact) (h : SameGram (m + 1) a b) (hn : n ≤ m)
    (hok : requirePivots key (Elimination.upperFactor D a) n = .ok ()) :
    (splitBelow (Elimination.upperFactor D a) n).1 = (splitBelow (Elimination.upperFactor D b) n).1 := by
  have hfactor := h.upperFactor hD
  have hrows := le_nrows_of_requirePivots hok
  have hentry := Dense.entry_eq_of_gram (m := m + 1)
    (fun i j hij => entry_upperFactor_below hD.toIsTriangular a hij)
    (fun i j hij => entry_upperFactor_below hD.toIsTriangular b hij) hfactor.nrows_eq
    (fun j hj k hk => hfactor.gram_eq hj hk) hrows (by omega)
    (fun i hi => pivot_pos hD.toIsTriangular h.ncols_left hn hok hi)
    fun i hi => pivot_nonneg hD.toIsTriangular h.ncols_right (hi.trans_le hn)
      (hfactor.nrows_eq ▸ hi.trans_le hrows)
  refine Dense.ext_entry rfl (hfactor.ncols_left.trans hfactor.ncols_right.symm) fun i j hi hj => ?_
  have hi : i < n := hi
  have hj : j < (Elimination.upperFactor D a).ncols := hj
  rw [splitBelow, splitBelow, Dense.entry_view _ hi hj,
    Dense.entry_view _ hi (by rw [hfactor.ncols_right, ← hfactor.ncols_left]; exact hj), Nat.zero_add,
    Nat.zero_add, hentry i hi j (hfactor.ncols_left ▸ hj)]

/-- **The rows below have one Gram matrix again.** -/
theorem rest (hD : D.IsExact) (h : SameGram (n + tail + 1) a b)
    (hok : requirePivots key (Elimination.upperFactor D a) n = .ok ()) :
    SameGram (tail + 1) (splitBelow (Elimination.upperFactor D a) n).2
      (splitBelow (Elimination.upperFactor D b) n).2 := by
  have hfactor := h.upperFactor hD
  have hok' : requirePivots key (Elimination.upperFactor D b) n = .ok () := by
    rw [← requirePivots_eq hD h.coefficients (by omega), hok]
  refine ⟨?_, ?_, ?_, fun u => ?_⟩
  · show (Elimination.upperFactor D a).nrows - n = (Elimination.upperFactor D b).nrows - n
    rw [hfactor.nrows_eq]
  · show (Elimination.upperFactor D a).ncols - n = tail + 1
    rw [hfactor.ncols_left]
    omega
  · show (Elimination.upperFactor D b).ncols - n = tail + 1
    rw [hfactor.ncols_right]
    omega
  · have hsplit := energy_splitBelow hD (h.ncols_left.trans (Nat.add_assoc _ _ _)) hok (fun _ => 0) u
    have hsplit' := energy_splitBelow hD (h.ncols_right.trans (Nat.add_assoc _ _ _)) hok' (fun _ => 0) u
    rw [h.energy_eq, hsplit', h.firstRows_eq hD (by omega) hok] at hsplit
    exact (add_left_cancel hsplit).symm

end SameGram

/-! ### The steps -/

/-- Two steps with one conditional, and remainders with one Gram matrix. -/
structure SameStep (tail : ℕ) (out out' : StepRows ℝ) : Prop where
  conditional_eq : out.conditional = out'.conditional
  hard : SameGram (tail + 1) out.hard out'.hard
  soft : SameGram (tail + 1) out.soft out'.soft

/-- **Without hard rows** a step does the same. -/
theorem SameGram.stepSoft (hD : D.IsExact) (h : SameGram (n + tail + 1) a b) :
    Alike (SameStep tail) (stepSoft D key n a) (stepSoft D key n b) := by
  refine Alike.bind_eq (requirePivots_eq hD h.coefficients (by omega)) fun _ hok => Alike.ok ?_
  have hzeros : Dense.zeros 0 (b.ncols - n) = (Dense.zeros 0 (a.ncols - n) : Dense ℝ) := by
    rw [h.ncols_left, h.ncols_right]
  refine ⟨h.firstRows_eq hD (by omega) hok, ?_, h.rest hD hok⟩
  rw [hzeros]
  refine SameGram.refl ?_
  show a.ncols - n = tail + 1
  rw [h.ncols_left]
  omega

section Hard

variable (h : SameGram (n + tail + 1) hard hard')

include h

theorem sameGram_rangeStack :
    SameGram (frontalRank D n hard + tail + 1) (rangeStack D n hard) (rangeStack D n hard') := by
  have hc := h.ncols_left
  have hc' := h.ncols_right
  have hpairs := rangePairs_eq (D := D) h.coefficients
  refine ⟨h.nrows_eq, ?_, ?_, fun v => ?_⟩
  · show frontalRank D n hard + (hard.ncols - n) = _
    omega
  · show frontalRank D n hard' + (hard'.ncols - n) = _
    rw [← frontalRank_eq h.coefficients]
    omega
  · have hleft : (rangeStack D n hard).energy v = hard.energy (glue n
        ((basis n (rangePairs D n hard)).image v)
        fun j => v ((basis n (rangePairs D n hard)).ncols + j)) :=
      sum_congr rfl fun i hi => congrArg (· ^ 2)
        (image_mul_beside hard _ (by omega) (mem_range.mp hi) v)
    have hright : (rangeStack D n hard').energy v = hard'.energy (glue n
        ((basis n (rangePairs D n hard)).image v)
        fun j => v ((basis n (rangePairs D n hard)).ncols + j)) := by
      rw [hpairs]
      exact sum_congr rfl fun i hi => congrArg (· ^ 2)
        (image_mul_beside hard' _ (by omega) (mem_range.mp hi) v)
    rw [hleft, hright, h.energy_eq]

/-- Where the pivots of the range pass, the rows that fix the range are equal. -/
theorem hardTop_eq (hD : D.IsExact)
    (hok : requirePivots key (hardFactor D n hard) (frontalRank D n hard) = .ok ()) :
    hardTop D n hard = hardTop D n hard' := by
  have hrows := (sameGram_rangeStack h).firstRows_eq hD (by omega) hok
  rw [hardTop, hardTop, ← frontalRank_eq h.coefficients]
  exact hrows

theorem tail_eq : hard.ncols - n = tail + 1 ∧ hard'.ncols - n = tail + 1 := by
  rw [h.ncols_left, h.ncols_right]
  omega

theorem rangeTail_eq (hD : D.IsExact)
    (hok : requirePivots key (hardFactor D n hard) (frontalRank D n hard) = .ok ()) :
    rangeTail D n hard = rangeTail D n hard' := by
  obtain ⟨ht, ht'⟩ := tail_eq h
  rw [rangeTail, rangeTail, ← hardTop_eq h hD hok, ← frontalRank_eq h.coefficients, ht, ht']

theorem rangeGain_eq (hD : D.IsExact)
    (hok : requirePivots key (hardFactor D n hard) (frontalRank D n hard) = .ok ()) :
    rangeGain D n hard key = rangeGain D n hard' key := by
  rw [rangeGain, rangeGain, ← rangeFactor_eq hD h.coefficients hok, ← rangeTail_eq h hD hok]

/-- The soft rows with the range put in have one Gram matrix. -/
theorem sameGram_softProjected (hs : SameGram (n + tail + 1) soft soft') {gain : Dense ℝ}
    (hgain : gain.ncols = tail + 1) :
    SameGram ((kernelPairs D n hard).length + tail + 1) (softProjected D n hard soft gain)
      (softProjected D n hard' soft' gain) := by
  have hc := h.ncols_left
  have hc' := h.ncols_right
  have hsc := hs.ncols_left
  have hsc' := hs.ncols_right
  have hrange := rangePairs_eq (D := D) h.coefficients
  have hkernel := kernelPairs_eq (D := D) h.coefficients
  refine ⟨hs.nrows_eq, ?_, ?_, fun v => ?_⟩
  · show (kernelPairs D n hard).length + (hard.ncols - n) = _
    omega
  · show (kernelPairs D n hard').length + (hard'.ncols - n) = _
    rw [← hkernel]
    omega
  · set u := fun j => v ((kernelPairs D n hard).length + j)
    set joined := glue n (fun k => (basis n (kernelPairs D n hard)).image v k -
      (basis n (rangePairs D n hard)).image (gain.image u) k) u
    have hleft : (softProjected D n hard soft gain).energy v = soft.energy joined :=
      sum_congr rfl fun i hi => congrArg (· ^ 2)
        (image_softProjected (by omega) (by omega) (by omega) (mem_range.mp hi) v)
    have hright : (softProjected D n hard' soft' gain).energy v = soft'.energy joined := by
      refine sum_congr rfl fun i hi => congrArg (· ^ 2) ?_
      rw [image_softProjected (by omega) (by omega) (by omega) (mem_range.mp hi) v, ← hkernel,
        ← hrange]
    rw [hleft, hright, hs.energy_eq]

/-- Where the pivots of the range pass, the rows of the conditional are equal. -/
theorem recombined_eq (hD : D.IsExact)
    (hok : requirePivots key (hardFactor D n hard) (frontalRank D n hard) = .ok ())
    (softTop : Dense ℝ) : recombined D n hard softTop = recombined D n hard' softTop := by
  obtain ⟨ht, ht'⟩ := tail_eq h
  rw [recombined, recombined, rangeRows, rangeRows, kernelRows, kernelRows,
    ← rangeFactor_eq hD h.coefficients hok, ← rangeTail_eq h hD hok, ← rangePairs_eq h.coefficients,
    ← kernelPairs_eq h.coefficients, ← frontalRank_eq h.coefficients, ht, ht']

omit h in
/-- Soft rows split into equal rows that fix the null space and remainders of one Gram matrix. -/
theorem SameGram.splitSoft (hD : D.IsExact) {free : ℕ} (h : SameGram (free + tail + 1) a b) :
    Alike (fun parts parts' => parts.1 = parts'.1 ∧ SameGram (tail + 1) parts.2 parts'.2)
      (splitSoft D key free (tail + 1) a) (splitSoft D key free (tail + 1) b) := by
  unfold Elimination.splitSoft
  refine Alike.ite (by rw [h.nrows_eq]) (fun _ => Alike.ok ⟨rfl, SameGram.refl rfl⟩) fun _ => ?_
  exact Alike.bind_eq (requirePivots_eq hD h.coefficients (by omega)) fun _ hok =>
    Alike.ok ⟨h.firstRows_eq hD (by omega) hok, h.rest hD hok⟩

/-- **With hard rows** a step does the same. -/
theorem SameGram.stepHard (hD : D.IsExact) (hS : D.IsComplete)
    (hs : SameGram (n + tail + 1) soft soft') :
    Alike (SameStep tail) (stepHard D key n hard soft) (stepHard D key n hard' soft') := by
  have hrank := frontalRank_eq (D := D) h.coefficients
  have hfree : (kernelPairs D n hard).length = n - frontalRank D n hard := by
    have := length_kernelPairs hS n hard
    omega
  obtain ⟨ht, ht'⟩ := tail_eq h
  have hstack := sameGram_rangeStack (D := D) h
  rw [stepHard_eq, stepHard_eq, ht, ht', ← hrank, ← hs.nrows_eq]
  refine Alike.ite Iff.rfl (fun _ => Alike.error _) fun _ => ?_
  refine Alike.bind_eq (requirePivots_eq hD hstack.coefficients (by omega)) fun _ hok => ?_
  refine Alike.bind_eq (rangeGain_eq h hD hok) fun gain hgain => ?_
  refine Alike.ite Iff.rfl (fun _ => Alike.error _) fun _ => ?_
  have hcols : gain.ncols = tail + 1 :=
    (Dense.solveUpperColumns_eq_some (rangeGain_eq_ok_iff.mp hgain)).2.1.trans ht
  have hprojected := sameGram_softProjected (D := D) h hs hcols
  rw [hfree] at hprojected
  refine Alike.bind (hprojected.splitSoft hD) fun parts parts' _ hparts => ?_
  obtain ⟨hsame, hrest⟩ := hparts
  rw [← hsame, ← recombined_eq h hD hok]
  exact Alike.bind_eq rfl fun _ _ => Alike.ok ⟨rfl, hstack.rest hD hok, hrest⟩

end Hard

end Elimination
end Kinodynamics
