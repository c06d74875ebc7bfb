/-
# The shapes of what a step leaves

A step on `n` columns and `tail` more leaves a conditional of at least `n` rows over all of these, and
remainders over the `tail`. This needs no more of the decompositions than the shape of the triangular
factor and, on hard rows, that the spectrum has a pair for each of the `n` columns.

Key definitions: `Elimination.FitsStep`.
Key theorems: `Elimination.shape_of_splitSoft`, `Elimination.fitsStep_of_stepSoft`,
`Elimination.fitsStep_of_stepHard`.
-/
import Kinodynamics.Proofs.Elimination.Factor
import Kinodynamics.Proofs.Elimination.Range

namespace Kinodynamics
namespace Elimination

variable {κ α : Type} [Scalar α] {D : Decompositions α} {key : κ} {n tail : ℕ} {hard soft : Dense α}
  {out : StepRows α}

/-- The shape of what splits off of the soft rows. -/
theorem shape_of_splitSoft (hD : D.IsTriangular) {free : ℕ} {projected : Dense α}
    {parts : Dense α × Dense α} (hc : projected.ncols = free + tail) (hfree : free ≤ projected.nrows)
    (h : splitSoft D key free tail projected = .ok parts) :
    parts.1.nrows = free ∧ parts.1.ncols = free + tail ∧ parts.2.ncols = tail := by
  rcases splitSoft_eq_ok_iff.mp h with ⟨h0, rfl⟩ | ⟨-, -, rfl⟩
  · exact ⟨show 0 = free by omega, rfl, rfl⟩
  · have hcols : (upperFactor D projected).ncols = free + tail := (ncols_upperFactor hD _).trans hc
    refine ⟨rfl, hcols, ?_⟩
    show (upperFactor D projected).ncols - free = tail
    omega

/-- The shapes of the rows of a step on `n` columns and `tail` more. -/
structure FitsStep (n tail : ℕ) (out : StepRows α) : Prop where
  le_nrows : n ≤ out.conditional.nrows
  ncols_conditional : out.conditional.ncols = n + tail
  ncols_hard : out.hard.ncols = tail
  ncols_soft : out.soft.ncols = tail

theorem fitsStep_of_stepSoft (hD : D.IsTriangular) (hs : soft.ncols = n + tail)
    (h : stepSoft D key n soft = .ok out) : FitsStep n tail out := by
  obtain ⟨-, rfl⟩ := stepSoft_eq_ok_iff.mp h
  have hcols : (upperFactor D soft).ncols = n + tail := (ncols_upperFactor hD soft).trans hs
  refine ⟨le_rfl, hcols, ?_, ?_⟩
  · show soft.ncols - n = tail
    omega
  · show (upperFactor D soft).ncols - n = tail
    omega

theorem fitsStep_of_stepHard (hD : D.IsTriangular)
    (hlength : frontalRank D n hard + (kernelPairs D n hard).length = n) (hc : hard.ncols = n + tail)
    (h : stepHard D key n hard soft = .ok out) : FitsStep n tail out := by
  obtain ⟨gain, softTop, hstep⟩ := isHardStep_of_stepHard h
  have hfactor : (hardFactor D n hard).ncols = frontalRank D n hard + (hard.ncols - n) :=
    ncols_upperFactor hD _
  have hprojected : (softProjected D n hard soft gain).ncols =
      n - frontalRank D n hard + (hard.ncols - n) := by
    show (kernelPairs D n hard).length + (hard.ncols - n) = _
    omega
  obtain ⟨-, -, hsoft⟩ := shape_of_splitSoft hD hprojected hstep.free_le hstep.soft_eq
  refine ⟨le_nrows_of_requirePivots hstep.pivots, ?_, ?_, hsoft.trans (by omega)⟩
  · rw [hstep.conditional_eq, ncols_upperFactor hD]
    show n + (hard.ncols - n) = n + tail
    omega
  · rw [hstep.hard_eq]
    show (hardFactor D n hard).ncols - frontalRank D n hard = tail
    omega

end Elimination
end Kinodynamics
