/-
# A step on hard rows at the reals

With `p` and `q` the coordinates of the frontal variable in the range and in the null
space of the hard block, and `u` the vector of the tail, a step on hard rows works as
follows. The hard rows at `(p, u)` fall into rows that fix `p` and a remainder in `u`.
Where the former hold, `p` is a function of `u`, and the soft rows with that put in fall
into rows that fix `q` and a remainder in `u`. The conditional has the rows that fix `p`
and those that fix `q` (`IsHardStep.energy`).

Key definitions: `Elimination.glue`.
Key theorems: `Elimination.energy_rotated`, `Elimination.IsHardStep.eq_gain`,
`Elimination.IsHardStep.energy`.
-/
import Kinodynamics.Proofs.Dense.Triangular
import Kinodynamics.Proofs.Elimination.Factor
import Kinodynamics.Proofs.Elimination.Range

namespace Kinodynamics
namespace Elimination

open Finset

/-- The first `k` entries from `p`, the others from `u`. -/
def glue (k : ℕ) (p u : ℕ → ℝ) : ℕ → ℝ := fun j => if j < k then p j else u (j - k)

theorem glue_of_lt {k j : ℕ} (p u : ℕ → ℝ) (h : j < k) : glue k p u j = p j := if_pos h

theorem glue_add (k : ℕ) (p u : ℕ → ℝ) (j : ℕ) : glue k p u (k + j) = u j := by
  rw [glue, if_neg (by omega), Nat.add_sub_cancel_left]

theorem image_beside_glue (a b : Dense ℝ) {i : ℕ} (hi : i < a.nrows) (p u : ℕ → ℝ) :
    (a.beside b).image (glue a.ncols p u) i = a.image p i + b.image u i := by
  rw [Dense.image_beside _ _ hi]
  congr 1
  · exact a.image_congr (fun j hj => glue_of_lt p u hj) i
  · exact b.image_congr (fun j _ => glue_add _ p u j) i

/-- The columns of a stack split into frontal ones and the tail. -/
theorem image_frontal_tail (a : Dense ℝ) {n : ℕ} (hn : n ≤ a.ncols) (v : ℕ → ℝ) {i : ℕ}
    (hi : i < a.nrows) :
    a.image v i = (frontalBlock n a).image v i +
      (a.view 0 n a.nrows (a.ncols - n)).image (fun j => v (n + j)) i := by
  rw [frontalBlock, Dense.image_view _ hi, Dense.image_view _ hi, Dense.image,
    ← Nat.add_sub_cancel' hn, sum_range_add, Nat.add_sub_cancel' hn]
  simp only [Nat.zero_add]

/-- Frontal columns taken through a basis: the rows at a vector are those of the stack at the
vector put together. -/
theorem image_mul_beside (a w : Dense ℝ) {n : ℕ} (hn : n ≤ a.ncols) {i : ℕ} (hi : i < a.nrows)
    (v : ℕ → ℝ) :
    (((frontalBlock n a).mul w).beside (a.view 0 n a.nrows (a.ncols - n))).image v i =
      a.image (glue n (w.image v) fun j => v (w.ncols + j)) i := by
  have hi' : i < (frontalBlock n a).nrows := hi
  have hi2 : i < ((frontalBlock n a).mul w).nrows := hi
  rw [Dense.image_beside _ _ hi2, Dense.image_mul _ _ hi', image_frontal_tail a hn _ hi]
  congr 1
  · exact (frontalBlock n a).image_congr (fun j hj => (glue_of_lt _ _ hj).symm) i
  · exact Dense.image_congr _ (fun j _ => (glue_add n (w.image v) (fun j => v (w.ncols + j)) j).symm) i

theorem energy_view_self (a : Dense ℝ) {n : ℕ} (hn : a.nrows = n) (v : ℕ → ℝ) :
    (a.view 0 0 n a.ncols).energy v = a.energy v := by
  subst hn
  refine sum_congr rfl fun i hi => ?_
  have hi : i < a.nrows := mem_range.mp hi
  rw [Dense.image_view _ hi]
  simp only [Nat.zero_add]
  rfl

/-- A triangular block over `k` coordinates beside a tail, brought back from coordinates
to the vector: the rows are the same. -/
theorem image_rotated {m w : Dense ℝ} {k n tail : ℕ} (hn : m.ncols = k + tail) (hw : w.nrows = n)
    (v : ℕ → ℝ) {i : ℕ} (hi : i < k) :
    (((m.view 0 0 k k).mul w.transpose).beside (m.view 0 k k tail)).image v i =
      m.image (glue k (w.transpose.image v) fun j => v (n + j)) i := by
  have hi' : i < ((m.view 0 0 k k).mul w.transpose).nrows := hi
  have hcols : ((m.view 0 0 k k).mul w.transpose).ncols = n := hw
  rw [Dense.image_beside _ _ hi', hcols, Dense.image_mul _ _ (by exact hi), Dense.image_view _ hi,
    Dense.image_view _ hi, Dense.image, hn, sum_range_add]
  simp only [Nat.zero_add]
  congr 1
  · exact sum_congr rfl fun j hj => by rw [glue_of_lt _ _ (mem_range.mp hj)]
  · exact sum_congr rfl fun j _ => by rw [glue_add]

theorem energy_rotated {m w : Dense ℝ} {k n tail : ℕ} (hm : m.nrows = k) (hn : m.ncols = k + tail)
    (hw : w.nrows = n) (v : ℕ → ℝ) :
    (((m.view 0 0 k k).mul w.transpose).beside (m.view 0 k k tail)).energy v =
      m.energy (glue k (w.transpose.image v) fun j => v (n + j)) := by
  unfold Dense.energy
  rw [hm]
  refine sum_congr rfl fun i hi => ?_
  rw [image_rotated hn hw v (mem_range.mp hi)]

/-- The triangular factor of a stack splits into its first rows and the rest. -/
theorem energy_splitBelow {D : Decompositions ℝ} (hD : D.IsExact) {κ : Type} {key : κ} {m : Dense ℝ}
    {k tail : ℕ} (hn : m.ncols = k + tail) (hpivots : requirePivots key (upperFactor D m) k = .ok ())
    (p u : ℕ → ℝ) :
    m.energy (glue k p u) =
      (splitBelow (upperFactor D m) k).1.energy (glue k p u) +
        (splitBelow (upperFactor D m) k).2.energy u := by
  have hcols : (upperFactor D m).ncols = k + tail :=
    (ncols_upperFactor hD.toIsTriangular m).trans hn
  have hrows := le_nrows_of_requirePivots hpivots
  rw [← energy_upperFactor hD, Dense.energy_split (upperFactor D m) hrows (by omega)
    (fun i hi j hj => entry_upperFactor_below hD.toIsTriangular m (by omega))]
  congr 1
  exact Dense.energy_congr _ fun j _ => glue_add k p u j

section Step

variable {κ : Type} {D : Decompositions ℝ} {n tail : ℕ} {hard soft : Dense ℝ} {key : κ}
  {gain softTop : Dense ℝ} {out : StepRows ℝ}

/-- The coordinates of the frontal variable in the range. -/
noncomputable def rangePart (D : Decompositions ℝ) (n : ℕ) (hard : Dense ℝ) (v : ℕ → ℝ) : ℕ → ℝ :=
  (basis n (rangePairs D n hard)).transpose.image v

/-- The coordinates of the frontal variable in the null space. -/
noncomputable def kernelPart (D : Decompositions ℝ) (n : ℕ) (hard : Dense ℝ) (v : ℕ → ℝ) : ℕ → ℝ :=
  (basis n (kernelPairs D n hard)).transpose.image v

/-- The columns of the factor of the hard rows are the range and the tail. -/
theorem ncols_hardTop (hD : D.IsTriangular) (hc : hard.ncols = n + tail) :
    (hardTop D n hard).ncols = frontalRank D n hard + tail := by
  have htail : hard.ncols - n = tail := by omega
  show (hardFactor D n hard).ncols = _
  rw [hardFactor, ncols_upperFactor hD, rangeStack, htail]
  rfl

/-- The hard rows are the rows that fix the range and the remainder. -/
theorem ExactRank.energy_hard (hD : D.IsExact) (hrank : ExactRank D n hard)
    (hpivots : requirePivots key (hardFactor D n hard) (frontalRank D n hard) = .ok ())
    (hc : hard.ncols = n + tail) (v : ℕ → ℝ) :
    hard.energy v = (hardTop D n hard).energy
        (glue (frontalRank D n hard) (rangePart D n hard v) fun j => v (n + j)) +
      (splitBelow (hardFactor D n hard) (frontalRank D n hard)).2.energy fun j => v (n + j) := by
  have hn : n ≤ hard.ncols := by omega
  have hstack : hard.energy v = (rangeStack D n hard).energy
      (glue (frontalRank D n hard) (rangePart D n hard v) fun j => v (n + j)) := by
    refine sum_congr rfl fun i hi => ?_
    have hi : i < hard.nrows := mem_range.mp hi
    have hglue := image_beside_glue ((frontalBlock n hard).mul (basis n (rangePairs D n hard)))
      (hard.view 0 n hard.nrows (hard.ncols - n)) hi (rangePart D n hard v) fun j => v (n + j)
    rw [image_frontal_tail hard hn v hi, hrank.image_frontalBlock v hi]
    exact congrArg (· ^ 2) hglue.symm
  rw [hstack]
  exact energy_splitBelow hD rfl hpivots _ _

theorem IsHardStep.energy_hard (hD : D.IsExact) (hrank : ExactRank D n hard)
    (h : IsHardStep D n hard soft key gain softTop out) (hc : hard.ncols = n + tail) (v : ℕ → ℝ) :
    hard.energy v = (hardTop D n hard).energy
        (glue (frontalRank D n hard) (rangePart D n hard v) fun j => v (n + j)) +
      out.hard.energy fun j => v (n + j) := by
  rw [h.hard_eq]
  exact hrank.energy_hard hD h.rangePivots hc v

theorem entry_rangeFactor (hD : D.IsTriangular) (hc : hard.ncols = n + tail) {i j : ℕ}
    (hi : i < frontalRank D n hard) (hj : j < frontalRank D n hard) :
    (rangeFactor D n hard).entry i j = (hardFactor D n hard).entry i j := by
  have hj' : j < (hardFactor D n hard).ncols := by
    have : (hardFactor D n hard).ncols = frontalRank D n hard + tail := ncols_hardTop hD hc
    omega
  rw [rangeFactor, Dense.entry_view _ hi hj, hardTop, splitBelow,
    Dense.entry_view _ (by omega) (by omega)]
  simp only [Nat.zero_add]

theorem upper_rangeFactor (hD : D.IsTriangular) (hc : hard.ncols = n + tail) :
    (rangeFactor D n hard).Upper := fun i j hij => by
  by_cases hi : i < frontalRank D n hard
  · rw [entry_rangeFactor hD hc hi (hij.trans hi)]
    exact entry_upperFactor_below hD _ hij
  · exact Dense.entry_of_nrows_le _ (not_lt.mp hi) j

theorem rangeFactor_ne_zero (hD : D.IsTriangular) (hc : hard.ncols = n + tail)
    (hpivots : requirePivots key (hardFactor D n hard) (frontalRank D n hard) = .ok ()) {i : ℕ}
    (hi : i < frontalRank D n hard) : (rangeFactor D n hard).entry i i ≠ 0 := fun h0 => by
  obtain ⟨-, -, hpivot⟩ := requirePivots_eq_ok_iff.mp hpivots i hi
  rw [← entry_rangeFactor hD hc hi hi, h0] at hpivot
  exact hpivot (Scalar.Signed.abs_le_of_isZero (Scalar.isZero_iff.mpr rfl))

/-- Where the pivots of the range pass, the tail can be solved for the range. -/
theorem exists_gain (hD : D.IsTriangular) (hc : hard.ncols = n + tail)
    (hpivots : requirePivots key (hardFactor D n hard) (frontalRank D n hard) = .ok ()) :
    ∃ gain, (rangeFactor D n hard).solveUpperColumns (rangeTail D n hard) = some gain :=
  Dense.exists_solveUpperColumns
    (fun _ hi h0 => rangeFactor_ne_zero hD hc hpivots hi (Scalar.isZero_iff.mp h0)) _

/-- A step whose range is the whole variable succeeds if its pivots pass: nothing is left to the
soft rows. -/
theorem exists_stepHard (hD : D.IsTriangular) (hn : n ≠ 0) (hc : hard.ncols = n + tail)
    (hrank : frontalRank D n hard = n)
    (hpivots : requirePivots key (hardFactor D n hard) (frontalRank D n hard) = .ok ())
    (hlast : ∀ softTop, requirePivots key (upperFactor D (recombined D n hard softTop)) n = .ok ()) :
    ∃ out, stepHard D key n hard soft = .ok out := by
  obtain ⟨gain, hgain⟩ := exists_gain hD hc hpivots
  have hgain : rangeGain D n hard key = .ok gain := rangeGain_eq_ok_iff.mpr hgain
  obtain ⟨parts, hparts⟩ : ∃ parts, splitSoft D key (n - frontalRank D n hard) (hard.ncols - n)
      (softProjected D n hard soft gain) = .ok parts := by
    rw [hrank, Nat.sub_self, splitSoft]
    split_ifs
    · exact ⟨_, rfl⟩
    · exact ⟨_, rfl⟩
  rw [stepHard_eq, if_neg hn, hpivots]
  show ∃ out, (rangeGain D n hard key >>= _) = _
  rw [hgain]
  show ∃ out, (if soft.nrows < n - frontalRank D n hard then _ else _ >>= _) = _
  rw [if_neg (by omega), hparts]
  show ∃ out, (requirePivots key (upperFactor D (recombined D n hard parts.1)) n >>= _) = _
  rw [hlast]
  exact ⟨_, rfl⟩

/-- Where the rows that fix the range hold, the range is the tail put through the gain. -/
theorem IsHardStep.eq_gain (hD : D.IsTriangular) (h : IsHardStep D n hard soft key gain softTop out)
    (hc : hard.ncols = n + tail) {p u : ℕ → ℝ}
    (hzero : (hardTop D n hard).energy (glue (frontalRank D n hard) p u) = 0) :
    ∀ j < frontalRank D n hard, p j = -gain.image u j := by
  set k := frontalRank D n hard with hk
  have hupper := upper_rangeFactor hD hc
  have hdiag : ∀ i < k, (rangeFactor D n hard).entry i i ≠ 0 := fun i hi =>
    rangeFactor_ne_zero hD hc h.rangePivots hi
  refine Dense.eq_of_image_eq hupper rfl hdiag fun i hi => ?_
  have hsolved := Dense.image_solveUpperColumns hupper rfl h.gain_eq u hi
  have hrow := Dense.energy_eq_zero_iff.mp hzero i hi
  -- the row of the factor is its range columns at `p` and its tail columns at `u`
  have hsplit : (hardTop D n hard).image (glue k p u) i =
      (rangeFactor D n hard).image p i + (rangeTail D n hard).image u i := by
    have htail : hard.ncols - n = tail := by omega
    have hi : i < frontalRank D n hard := hi
    rw [rangeFactor, rangeTail, htail, Dense.image_view _ hi, Dense.image_view _ hi, Dense.image,
      ncols_hardTop hD hc, sum_range_add]
    simp only [Nat.zero_add]
    congr 1
    · exact sum_congr rfl fun j hj => by rw [glue_of_lt _ _ (mem_range.mp hj)]
    · exact sum_congr rfl fun j _ => by rw [glue_add]
  rw [Dense.image_neg, hsolved]
  rw [hsplit] at hrow
  linarith

/-- The soft rows with the range put in, at a vector: the soft rows at the null space part
less what the gain makes of the tail. -/
theorem image_softProjected (hn : n ≤ soft.ncols) (hs : soft.ncols = hard.ncols)
    (hgain : gain.ncols = hard.ncols - n) {i : ℕ} (hi : i < soft.nrows) (v : ℕ → ℝ) :
    (softProjected D n hard soft gain).image v i =
      soft.image (glue n (fun k => (basis n (kernelPairs D n hard)).image v k -
          (basis n (rangePairs D n hard)).image
            (gain.image fun j => v ((kernelPairs D n hard).length + j)) k)
        fun j => v ((kernelPairs D n hard).length + j)) i := by
  set v1 := basis n (rangePairs D n hard)
  set v2 := basis n (kernelPairs D n hard)
  set u := fun j => v ((kernelPairs D n hard).length + j) with hu
  have hfrontal : i < (frontalBlock n soft).nrows := hi
  have hrange : i < ((frontalBlock n soft).mul v1).nrows := hi
  have hkernel : i < ((frontalBlock n soft).mul v2).nrows := hi
  have htail : i < (soft.view 0 n soft.nrows (hard.ncols - n)).nrows := hi
  have hsub := Dense.image_sub (soft.view 0 n soft.nrows (hard.ncols - n))
    (((frontalBlock n soft).mul v1).mul gain) hgain htail u
  rw [softProjected, Dense.image_beside _ _ hkernel, Dense.image_mul _ _ hfrontal]
  refine (congrArg ((frontalBlock n soft).image (v2.image v) i + ·) hsub).trans ?_
  rw [Dense.image_mul _ _ hrange, Dense.image_mul _ _ hfrontal, image_frontal_tail soft hn _ hi, hs]
  have hpart : (frontalBlock n soft).image (glue n (fun k => v2.image v k - v1.image (gain.image u) k) u) i =
      (frontalBlock n soft).image (v2.image v) i -
        (frontalBlock n soft).image (v1.image (gain.image u)) i := by
    rw [sub_eq_add_neg, ← Dense.image_neg, ← Dense.image_add]
    exact Dense.image_congr _ (fun j hj => (glue_of_lt _ _ hj).trans (sub_eq_add_neg _ _)) i
  have hrest : (soft.view 0 n soft.nrows (hard.ncols - n)).image
      (fun j => glue n (fun k => v2.image v k - v1.image (gain.image u) k) u (n + j)) i =
        (soft.view 0 n soft.nrows (hard.ncols - n)).image u i :=
    Dense.image_congr _ (fun j _ => glue_add _ _ _ j) i
  rw [hpart, hrest]
  ring

/-- Where the rows that fix the range hold, the soft rows are those with the range put in. -/
theorem IsHardStep.energy_soft (hD : D.IsExact) (hrank : ExactRank D n hard)
    (h : IsHardStep D n hard soft key gain softTop out) (hc : hard.ncols = n + tail)
    (hs : soft.ncols = n + tail) {v : ℕ → ℝ}
    (hzero : (hardTop D n hard).energy
      (glue (frontalRank D n hard) (rangePart D n hard v) fun j => v (n + j)) = 0) :
    soft.energy v = (softProjected D n hard soft gain).energy
      (glue (n - frontalRank D n hard) (kernelPart D n hard v) fun j => v (n + j)) := by
  have hgain := h.eq_gain hD.toIsTriangular hc hzero
  have hgaincols : gain.ncols = hard.ncols - n := (Dense.solveUpperColumns_eq_some h.gain_eq).2.1
  have hfree : n - frontalRank D n hard = (kernelPairs D n hard).length := by
    have := hrank.length_eq
    omega
  refine sum_congr rfl fun i hi => ?_
  have hi : i < soft.nrows := mem_range.mp hi
  rw [hfree, image_softProjected (by omega) (hs.trans hc.symm) hgaincols hi]
  simp only [glue_add]
  -- the vector put together from the null space part and the gain is the vector itself
  refine congrArg (· ^ 2) (soft.image_congr (fun k _ => ?_) i)
  by_cases hk : k < n
  · have hkernel : (basis n (kernelPairs D n hard)).image
        (glue (kernelPairs D n hard).length (kernelPart D n hard v) fun j => v (n + j)) k =
        (basis n (kernelPairs D n hard)).image (kernelPart D n hard v) k :=
      Dense.image_congr _ (fun j hj => glue_of_lt _ _ hj) k
    have hrange : (basis n (rangePairs D n hard)).image (gain.image fun j => v (n + j)) k =
        -(basis n (rangePairs D n hard)).image (rangePart D n hard v) k := by
      rw [← Dense.image_neg]
      exact Dense.image_congr _ (fun j hj => by rw [hgain j hj, neg_neg]) k
    rw [glue_of_lt _ _ hk, hkernel, hrange, sub_neg_eq_add, add_comm]
    exact (hrank.image_split v hk).symm
  · rw [glue, if_neg hk, Nat.add_sub_cancel' (not_lt.mp hk)]

/-- The soft rows with the range put in are the rows that fix the null space and the
remainder. -/
theorem IsHardStep.energy_softProjected (hD : D.IsExact) (hrank : ExactRank D n hard)
    (h : IsHardStep D n hard soft key gain softTop out) (hc : hard.ncols = n + tail) (q u : ℕ → ℝ) :
    softTop.nrows = n - frontalRank D n hard ∧ softTop.ncols = n - frontalRank D n hard + tail ∧
      (softProjected D n hard soft gain).energy (glue (n - frontalRank D n hard) q u) =
        softTop.energy (glue (n - frontalRank D n hard) q u) + out.soft.energy u := by
  have hfree : (kernelPairs D n hard).length = n - frontalRank D n hard := by
    have := hrank.length_eq
    omega
  have htail : hard.ncols - n = tail := by omega
  have hcols : (softProjected D n hard soft gain).ncols = n - frontalRank D n hard + tail := by
    show (kernelPairs D n hard).length + (hard.ncols - n) = _
    rw [hfree, htail]
  rcases splitSoft_eq_ok_iff.mp h.soft_eq with ⟨hrows, hparts⟩ | ⟨-, hpivots, hparts⟩
  · obtain ⟨rfl, hrest⟩ := Prod.mk.inj hparts
    have hfree0 : n - frontalRank D n hard = 0 := by
      have hle := h.free_le
      have hrows : soft.nrows = 0 := hrows
      omega
    refine ⟨hfree0.symm, by rw [htail]; rfl, ?_⟩
    rw [hrest, Dense.energy_of_nrows_eq_zero hrows, Dense.energy_of_nrows_eq_zero rfl,
      Dense.energy_of_nrows_eq_zero rfl, add_zero]
  · obtain ⟨rfl, hrest⟩ := Prod.mk.inj hparts
    refine ⟨rfl, (ncols_upperFactor hD.toIsTriangular _).trans hcols, ?_⟩
    rw [hrest]
    exact energy_splitBelow hD hcols hpivots q u

/-- The rows that fix the range, brought back to the variable. -/
theorem energy_rangeRows (hD : D.IsTriangular) (hc : hard.ncols = n + tail) (v : ℕ → ℝ) :
    (rangeRows D n hard).energy v = (hardTop D n hard).energy
      (glue (frontalRank D n hard) (rangePart D n hard v) fun j => v (n + j)) := by
  have htail : hard.ncols - n = tail := by omega
  rw [rangeRows, rangeFactor, rangeTail, htail]
  exact energy_rotated rfl (ncols_hardTop hD hc) rfl v

/-- The conditional has the rows that fix the range and those that fix the null space. -/
theorem IsHardStep.energy_conditional (hD : D.IsExact) (hrank : ExactRank D n hard)
    (h : IsHardStep D n hard soft key gain softTop out) (hc : hard.ncols = n + tail) (v : ℕ → ℝ) :
    (out.conditional.view 0 0 n out.conditional.ncols).energy v =
      (hardTop D n hard).energy
        (glue (frontalRank D n hard) (rangePart D n hard v) fun j => v (n + j)) +
      softTop.energy
        (glue (n - frontalRank D n hard) (kernelPart D n hard v) fun j => v (n + j)) := by
  obtain ⟨htoprows, htopcols, -⟩ := h.energy_softProjected hD hrank hc (fun _ => 0) fun _ => 0
  have hlen := hrank.length_eq
  have htail : hard.ncols - n = tail := by omega
  have hrows : (recombined D n hard softTop).nrows = n := by
    show frontalRank D n hard + (n - frontalRank D n hard) = n
    omega
  have hcols : (recombined D n hard softTop).ncols = n + tail := by
    show n + (hard.ncols - n) = n + tail
    rw [htail]
  have hcond : out.conditional.nrows = n := by
    rw [h.conditional_eq, nrows_upperFactor hD.toIsTriangular, hrows, hcols]
    omega
  have hwidth : (kernelRows D n hard softTop).ncols = (rangeRows D n hard).ncols := rfl
  rw [energy_view_self _ hcond, h.conditional_eq, energy_upperFactor hD, recombined,
    Dense.energy_above _ _ hwidth]
  congr 1
  · exact energy_rangeRows hD.toIsTriangular hc v
  · rw [kernelRows, htail]
    exact energy_rotated htoprows htopcols rfl v

/-- **What a step on hard rows does to the energies.** -/
theorem IsHardStep.energy (hD : D.IsExact) (hrank : ExactRank D n hard)
    (h : IsHardStep D n hard soft key gain softTop out) (hc : hard.ncols = n + tail)
    (hs : soft.ncols = n + tail) (v : ℕ → ℝ) :
    ∃ fixing settling : ℝ, 0 ≤ fixing ∧ 0 ≤ settling ∧
      hard.energy v = fixing + out.hard.energy (fun j => v (n + j)) ∧
      (fixing = 0 → soft.energy v = settling + out.soft.energy fun j => v (n + j)) ∧
      (out.conditional.view 0 0 n out.conditional.ncols).energy v = fixing + settling := by
  refine ⟨_, _, Dense.energy_nonneg _ _, Dense.energy_nonneg _ _, h.energy_hard hD hrank hc v,
    fun hzero => ?_, h.energy_conditional hD hrank hc v⟩
  rw [h.energy_soft hD hrank hc hs hzero]
  exact (h.energy_softProjected hD hrank hc _ _).2.2

end Step

end Elimination
end Kinodynamics
