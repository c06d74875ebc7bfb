/-
# The rank decision under rounding

A step on hard rows does not get the spectrum of a Gram matrix but numbers near it. It takes their
square roots for singular values and counts those above a fraction of the largest. Let every
eigenvalue be off by at most a fraction `ε` of the largest. A nonzero singular value that is not
tiny always counts, for `ε` up to the rounding unit and far beyond. A null direction comes out with
a singular value of up to `√ε` times the largest, so it stays below the ratio `10⁻⁹` only if `ε` is
below `10⁻¹⁸`, which the rounding unit is not. So the counted rank is the rank and the number of
null directions that stand out (`frontalRank_of_near`). It is the rank where the eigenvalues are
as precise as the square of the ratio asks; where it exceeds the number of hard rows, the triangular
factor is too short for it and the step fails. The row `6 x + 5 y = 1` is such a case
(`overcounted_slantedRow`).

Key definitions: `IsNearSpectrum`, `HasClearRank`, `Elimination.overcounted`.
Key theorems: `Elimination.frontalRank_eq_countP`, `Elimination.frontalRank_of_near`.
-/
import Kinodynamics.Proofs.Elimination.Rank
import Kinodynamics.Proofs.Elimination.Structure

namespace Kinodynamics

open Finset

/-- Pairs with orthonormal vectors whose values are off those of an exact list by at most
`error`. -/
structure IsNearSpectrum (error : ℝ) (n : ℕ) (exact pairs : List (Eigenpair ℝ)) : Prop where
  unit : ∀ p ∈ pairs, p.along n (p.vector.getD · 0) = 1
  orthogonal : pairs.Pairwise fun p q => p.along n (q.vector.getD · 0) = 0
  near : List.Forall₂ (fun e p => |p.value - e.value| ≤ error) exact pairs

namespace IsNearSpectrum

variable {error : ℝ} {n : ℕ} {exact pairs : List (Eigenpair ℝ)}

theorem exists_right (h : IsNearSpectrum error n exact pairs) {e : Eigenpair ℝ} (he : e ∈ exact) :
    ∃ p ∈ pairs, |p.value - e.value| ≤ error := by
  obtain ⟨i, hi, rfl⟩ := List.getElem_of_mem he
  exact ⟨_, List.getElem_mem (h.near.length_eq ▸ hi), h.near.get hi _⟩

theorem exists_left (h : IsNearSpectrum error n exact pairs) {p : Eigenpair ℝ} (hp : p ∈ pairs) :
    ∃ e ∈ exact, |p.value - e.value| ≤ error := by
  obtain ⟨i, hi, rfl⟩ := List.getElem_of_mem hp
  exact ⟨_, List.getElem_mem (h.near.length_eq.symm ▸ hi), h.near.get _ hi⟩

end IsNearSpectrum

/-- The largest eigenvalue is `top`, and the singular values that are not zero are at least a
millionth, and at least a millionth of the largest. -/
structure HasClearRank (top : ℝ) (exact : List (Eigenpair ℝ)) : Prop where
  top_mem : ∃ e ∈ exact, e.value = top
  le_top : ∀ e ∈ exact, e.value ≤ top
  clear : ∀ e ∈ exact, e.value ≠ 0 → 1e-6 * √top ≤ √e.value ∧ 1e-6 ≤ √e.value

namespace Elimination

/-! ### What is counted -/

section Counting

variable {pairs : List (Eigenpair ℝ)} {p q : Eigenpair ℝ}

theorem lt_singularValue_iff {t : ℝ} (ht : 0 ≤ t) : t < singularValue p ↔ t ^ 2 < p.value := by
  rw [singularValue, Scalar.positivePart_eq]
  refine (Real.lt_sqrt ht).trans (lt_max_iff.trans (or_iff_left ?_))
  exact not_lt.mpr (sq_nonneg t)

theorem singularValue_mono (h : p.value ≤ q.value) : singularValue p ≤ singularValue q := by
  rw [singularValue, singularValue, Scalar.positivePart_eq, Scalar.positivePart_eq]
  exact Real.sqrt_le_sqrt (max_le_max_right 0 h)

/-- With the largest pair first, a pair counts if its value is above the squares of both bounds. -/
theorem rankThreshold_lt_iff : rankThreshold (q :: pairs) < singularValue p ↔
    negligibleRatio ^ 2 * q.value < p.value ∧ negligiblePivot ^ 2 < p.value := by
  have hratio : (0 : ℝ) ≤ negligibleRatio := by norm_num [negligibleRatio]
  have hroot : 0 ≤ singularValue q := Real.sqrt_nonneg _
  have hmax : rankThreshold (q :: pairs) = max (negligibleRatio * singularValue q) negligiblePivot := by
    rw [rankThreshold, Scalar.larger, max_def']
  have hsq : singularValue q ^ 2 = max q.value 0 := by
    rw [singularValue, Scalar.positivePart_eq]
    exact Real.sq_sqrt (le_max_right _ _)
  rw [hmax, max_lt_iff, lt_singularValue_iff (mul_nonneg hratio hroot),
    lt_singularValue_iff negligiblePivot_pos.le, mul_pow, hsq]
  refine and_congr_left fun hpivot => ?_
  have hpos : 0 < p.value := (sq_nonneg _).trans_lt hpivot
  rcases le_total 0 q.value with hq | hq
  · rw [max_eq_left hq]
  · rw [max_eq_right hq, mul_zero]
    exact iff_of_true hpos ((mul_nonpos_of_nonneg_of_nonpos (sq_nonneg _) hq).trans_lt hpos)

theorem pairwise_byEigenvalue (pairs : List (Eigenpair ℝ)) :
    (byEigenvalue pairs).Pairwise fun p q => q.value ≤ p.value := by
  have hsorted : (byEigenvalue pairs).Pairwise fun p q => decide (q.value ≤ p.value) = true :=
    List.pairwise_mergeSort
      (fun p q r hpq hqr => decide_eq_true ((of_decide_eq_true hqr).trans (of_decide_eq_true hpq)))
      (fun p q => by simpa using le_total q.value p.value) pairs
  exact hsorted.imp fun h => of_decide_eq_true h

/-- Pairs in falling order stay as they are. -/
theorem frontalPairs_eq_self {α : Type} [Scalar α] {D : Decompositions α} {n : ℕ} {hard : Dense α}
    (h : (D.spectrum (frontalGram n hard)).Pairwise fun p q => q.value ≤ p.value) :
    frontalPairs D n hard = D.spectrum (frontalGram n hard) :=
  List.mergeSort_of_pairwise (h.imp fun hle => decide_eq_true hle)

theorem takeWhile_eq_filter {β : Type} {r : β → β → Prop} {counts : β → Bool} : ∀ {l : List β},
    l.Pairwise r → (∀ a b, r a b → counts b = true → counts a = true) →
      l.takeWhile counts = l.filter counts
  | [], _, _ => rfl
  | a :: l, hl, hmono => by
    obtain ⟨ha, hl⟩ := List.pairwise_cons.mp hl
    by_cases hcounts : counts a = true
    · rw [List.takeWhile_cons_of_pos hcounts, List.filter_cons_of_pos hcounts,
        takeWhile_eq_filter hl hmono]
    · rw [List.takeWhile_cons_of_neg hcounts, List.filter_cons_of_neg hcounts]
      exact (List.filter_eq_nil_iff.mpr fun b hb hb' => hcounts (hmono a b (ha b hb) hb')).symm

end Counting

section Decision

variable {κ : Type} {D : Decompositions ℝ} {n : ℕ} {hard soft : Dense ℝ} {key : κ} {top ε : ℝ}
  {exact pairs : List (Eigenpair ℝ)}

/-- The counted rank is the number of singular values above the threshold. -/
theorem frontalRank_eq_countP : frontalRank D n hard = (D.spectrum (frontalGram n hard)).countP
    fun p => rankThreshold (frontalPairs D n hard) < singularValue p := by
  rw [← frontalPairs_perm.countP_eq, List.countP_eq_length_filter, frontalRank, rangePairs, splitRange,
    List.span_eq_takeWhile_dropWhile]
  refine congrArg List.length (takeWhile_eq_filter (pairwise_byEigenvalue _) fun p q hle hq => ?_)
  exact decide_eq_true ((of_decide_eq_true hq).trans_le (singularValue_mono hle))

/-- Null directions whose singular value comes out above a threshold. -/
noncomputable def overcounted (threshold : ℝ) (exact pairs : List (Eigenpair ℝ)) : ℕ :=
  (exact.zip pairs).countP fun (e, p) => e.value = 0 ∧ threshold < singularValue p

/-- If all nonzero eigenvalues count, what counts are these and the null directions that stand
out. -/
theorem countP_eq_add_overcounted {threshold : ℝ} {near : Eigenpair ℝ → Eigenpair ℝ → Prop}
    (h : List.Forall₂ near exact pairs)
    (hcounts : ∀ e p, near e p → e ∈ exact → e.value ≠ 0 → threshold < singularValue p) :
    (pairs.countP fun p => threshold < singularValue p) =
      (exact.countP fun e => e.value ≠ 0) + overcounted threshold exact pairs := by
  rw [overcounted]
  induction h with
  | nil => rfl
  | @cons e p exact pairs hnear h ih =>
    have hrest := ih fun e p hep he => hcounts e p hep (List.mem_cons_of_mem _ he)
    rw [List.zip_cons_cons, List.countP_cons, List.countP_cons, List.countP_cons, hrest]
    by_cases hzero : e.value = 0
    · simp only [hzero, ne_eq, not_true_eq_false, decide_false, true_and, Bool.false_eq_true, if_false]
      omega
    · have hp := hcounts e p hnear List.mem_cons_self hzero
      simp only [hzero, hp, ne_eq, not_false_eq_true, decide_true, false_and, decide_false,
        Bool.false_eq_true, if_true, if_false]
      omega

/-- The largest of the numbers near a spectrum is near its largest eigenvalue. -/
theorem exists_frontalPairs_eq {error : ℝ} (hclear : HasClearRank top exact)
    (h : IsNearSpectrum error n exact (D.spectrum (frontalGram n hard))) :
    ∃ q rest, frontalPairs D n hard = q :: rest ∧ top - error ≤ q.value ∧ q.value ≤ top + error := by
  obtain ⟨e, he, rfl⟩ := hclear.top_mem
  obtain ⟨p, hp, hep⟩ := h.exists_right he
  have hp : p ∈ frontalPairs D n hard := frontalPairs_perm.mem_iff.mpr hp
  have hsorted : (frontalPairs D n hard).Pairwise fun p q => q.value ≤ p.value :=
    pairwise_byEigenvalue _
  cases hpairs : frontalPairs D n hard with
  | nil =>
    rw [hpairs] at hp
    cases hp
  | cons q rest =>
    obtain ⟨f, hf, hfq⟩ := h.exists_left (frontalPairs_perm.mem_iff.mp (hpairs ▸ List.mem_cons_self))
    rw [hpairs] at hp hsorted
    have hfirst : p.value ≤ q.value := by
      rcases List.mem_cons.mp hp with rfl | hrest
      · exact le_rfl
      · exact (List.pairwise_cons.mp hsorted).1 p hrest
    refine ⟨q, rest, rfl, ?_, ?_⟩
    · linarith [(abs_le.mp hep).1]
    · linarith [(abs_le.mp hfq).2, hclear.le_top f hf]

/-- **Every nonzero singular value counts.** -/
theorem rankThreshold_lt_of_near (hclear : HasClearRank top exact) (hε : ε ≤ 1 / 2 ^ 52)
    (h : IsNearSpectrum (ε * top) n exact (D.spectrum (frontalGram n hard))) {e p : Eigenpair ℝ}
    (he : e ∈ exact) (hne : e.value ≠ 0) (hp : |p.value - e.value| ≤ ε * top) :
    rankThreshold (frontalPairs D n hard) < singularValue p := by
  obtain ⟨q, rest, hpairs, -, hq⟩ := exists_frontalPairs_eq hclear h
  obtain ⟨hratio, htiny⟩ := hclear.clear e he hne
  have htiny : 1e-12 ≤ e.value := by
    have hsq := (Real.le_sqrt' (by norm_num)).mp htiny
    linarith
  have htop : 0 ≤ top := by linarith [hclear.le_top e he]
  have hratio : 1e-12 * top ≤ e.value := by
    have hsq := (Real.le_sqrt (by positivity) (by linarith)).mp hratio
    rw [mul_pow, Real.sq_sqrt htop] at hsq
    linarith
  have herror : ε * top ≤ 1 / 2 ^ 52 * top := mul_le_mul_of_nonneg_right hε htop
  have hvalue := (abs_le.mp hp).1
  rw [hpairs, rankThreshold_lt_iff]
  constructor
  · rw [show (negligibleRatio : ℝ) ^ 2 = 1e-18 by norm_num [negligibleRatio]]
    linarith
  · rw [show (negligiblePivot : ℝ) ^ 2 = 1e-24 by norm_num [negligiblePivot]]
    linarith

/-- **No null direction stands out** if the eigenvalues are as precise as the square of the ratio
asks. -/
theorem overcounted_eq_zero_of_near (hclear : HasClearRank top exact) (htop : 0 ≤ top)
    (hε : ε ≤ negligibleRatio ^ 2 * (1 - ε))
    (h : IsNearSpectrum (ε * top) n exact (D.spectrum (frontalGram n hard))) :
    overcounted (rankThreshold (frontalPairs D n hard)) exact (D.spectrum (frontalGram n hard)) = 0 := by
  obtain ⟨q, rest, hpairs, hq, -⟩ := exists_frontalPairs_eq hclear h
  refine List.countP_eq_zero.mpr fun ⟨e, p⟩ hep => ?_
  have hnear := (List.forall₂_iff_zip.mp h.near).2 hep
  simp only [decide_eq_true_eq, not_and, not_lt]
  intro hzero
  rw [hzero, sub_zero] at hnear
  refine not_lt.mp fun hcounts => ?_
  rw [hpairs, rankThreshold_lt_iff] at hcounts
  have hvalue : p.value ≤ negligibleRatio ^ 2 * q.value := calc
    p.value ≤ ε * top := (abs_le.mp hnear).2
    _ ≤ negligibleRatio ^ 2 * (1 - ε) * top := mul_le_mul_of_nonneg_right hε htop
    _ = negligibleRatio ^ 2 * (top - ε * top) := by ring
    _ ≤ negligibleRatio ^ 2 * q.value := mul_le_mul_of_nonneg_left hq (sq_nonneg _)
  exact hvalue.not_gt hcounts.1

/-- A step that counts more than there are hard rows fails, at a pivot or past the last row. -/
theorem stepHard_of_nrows_lt {α : Type} [Scalar α] {D : Decompositions α} {hard : Dense α}
    (hD : D.IsTriangular) (h : hard.nrows < frontalRank D n hard) (hn : n ≠ 0) (key : κ)
    (soft : Dense α) :
    stepHard D key n hard soft = Outcome.fail (.singular key) ∨
      stepHard D key n hard soft = Outcome.sizes := by
  rw [stepHard_eq, if_neg hn]
  rcases requirePivots_cases key (hardFactor D n hard) (frontalRank D n hard) with hok | hfail | ⟨hfail, -⟩
  · have hle := le_nrows_of_requirePivots hok
    rw [hardFactor, nrows_upperFactor hD] at hle
    exact absurd h (not_lt.mpr (hle.trans (min_le_left _ _)))
  · rw [hfail]
    exact Or.inl rfl
  · rw [hfail]
    exact Or.inr rfl

/-- **The rank decision.** Let the eigenvalues be off by at most `2⁻⁵²` of the largest, and let the
nonzero singular values not be tiny. The counted rank is the rank, which is at most the number of
hard rows, and the number of null directions whose singular value comes out above the threshold. It
is the rank, and the factor of the hard rows has a row for each pivot, if the eigenvalues are as
precise as the square of the ratio asks. If it exceeds the number of hard rows, the step fails. -/
theorem frontalRank_of_near (hD : D.IsTriangular) (hn : n ≠ 0)
    (hexact : IsEigenbasis (frontalGram n hard) exact) (hclear : HasClearRank top exact)
    (hε : ε ≤ 1 / 2 ^ 52) (hnear : IsNearSpectrum (ε * top) n exact (D.spectrum (frontalGram n hard))) :
    frontalRank D n hard = (frontalBlock n hard).rank +
        overcounted (rankThreshold (frontalPairs D n hard)) exact (D.spectrum (frontalGram n hard)) ∧
      (frontalBlock n hard).rank ≤ hard.nrows ∧
      (ε ≤ negligibleRatio ^ 2 * (1 - ε) → frontalRank D n hard = (frontalBlock n hard).rank ∧
        frontalRank D n hard ≤ (hardFactor D n hard).nrows) ∧
      (hard.nrows < frontalRank D n hard → ∀ (key : κ) (soft : Dense ℝ),
        stepHard D key n hard soft = Outcome.fail (.singular key) ∨
          stepHard D key n hard soft = Outcome.sizes) := by
  have hcount : frontalRank D n hard = (frontalBlock n hard).rank +
      overcounted (rankThreshold (frontalPairs D n hard)) exact (D.spectrum (frontalGram n hard)) := by
    rw [frontalRank_eq_countP, countP_eq_add_overcounted hnear.near fun e p hep he hne =>
      rankThreshold_lt_of_near hclear hε hnear he hne hep]
    exact congrArg (· + _) (Dense.countP_value_eq_rank hexact)
  have hrank : (frontalBlock n hard).rank ≤ hard.nrows := (frontalBlock n hard).rank_le_nrows
  refine ⟨hcount, hrank, fun hprecise => ?_, fun h key soft => stepHard_of_nrows_lt hD h hn key soft⟩
  have htop : 0 ≤ top := by
    obtain ⟨e, he, rfl⟩ := hclear.top_mem
    rw [← energy_frontalBlock hexact he]
    exact Dense.energy_nonneg _ _
  rw [overcounted_eq_zero_of_near hclear htop hprecise hnear, add_zero] at hcount
  exact ⟨hcount, frontalRank_le_nrows_hardFactor hD (hcount.le.trans hrank)⟩

end Decision

/-! ### A row that is counted twice -/

section Slanted

/-- The row `6 x + 5 y = 1`. -/
def slantedRow {α : Type} [Scalar α] : Dense α := Dense.ofRows 3 [[6.0, 5.0, 1]]

/-- The directions along the row and across it, the latter with some number for its eigenvalue. -/
noncomputable def slantedPairs (across : ℝ) : List (Eigenpair ℝ) :=
  [⟨61.0, [6.0 / √61.0, 5.0 / √61.0]⟩, ⟨across, [-(5.0 / √61.0), 6.0 / √61.0]⟩]

/-- Reflections for the triangular factor, and the spectrum of the row with an error of `10⁻¹⁴`. -/
noncomputable def slanted : Decompositions ℝ :=
  { Decompositions.standard with spectrum := fun _ => slantedPairs 1e-14 }

theorem along_two (p : Eigenpair ℝ) (x : ℕ → ℝ) :
    p.along 2 x = p.vector.getD 0 0 * x 0 + p.vector.getD 1 0 * x 1 := by
  rw [Eigenpair.along, sum_range_succ, sum_range_one]

theorem unit_slantedPairs (across : ℝ) :
    ∀ p ∈ slantedPairs across, p.along 2 (p.vector.getD · 0) = 1 := by
  have hroot : √(61.0 : ℝ) * √61.0 = 61.0 := Real.mul_self_sqrt (by norm_num)
  simp only [slantedPairs, List.forall_mem_cons, along_two]
  refine ⟨?_, ?_, by simp⟩
  · show 6.0 / √61.0 * (6.0 / √61.0) + 5.0 / √61.0 * (5.0 / √61.0) = (1 : ℝ)
    rw [div_mul_div_comm, div_mul_div_comm, hroot]
    norm_num
  · show -(5.0 / √61.0) * -(5.0 / √61.0) + 6.0 / √61.0 * (6.0 / √61.0) = (1 : ℝ)
    rw [neg_mul_neg, div_mul_div_comm, div_mul_div_comm, hroot]
    norm_num

theorem orthogonal_slantedPairs (across : ℝ) :
    (slantedPairs across).Pairwise fun p q => p.along 2 (q.vector.getD · 0) = 0 := by
  refine List.pairwise_pair.mpr ?_
  rw [along_two]
  show 6.0 / √61.0 * -(5.0 / √61.0) + 5.0 / √61.0 * (6.0 / √61.0) = (0 : ℝ)
  rw [mul_neg, mul_comm, neg_add_cancel]

theorem isEigenbasis_slantedPairs : IsEigenbasis (frontalGram 2 slantedRow) (slantedPairs 0) where
  length_eq := rfl
  unit := unit_slantedPairs 0
  orthogonal := orthogonal_slantedPairs 0
  eigen := by
    have himage : ∀ (v : ℕ → ℝ), ∀ i < 2, (frontalGram 2 slantedRow).image v i =
        slantedRow.entry 0 i * (slantedRow.entry 0 0 * v 0 + slantedRow.entry 0 1 * v 1) :=
      fun v i hi => by
        have hgram : ∀ j, (slantedRow : Dense ℝ).gram i j = slantedRow.entry 0 i * slantedRow.entry 0 j :=
          fun j => sum_range_one _
        rw [Dense.image, show (frontalGram 2 (slantedRow : Dense ℝ)).ncols = 2 from rfl, sum_range_succ,
          sum_range_one, entry_frontalGram _ hi Nat.two_pos, entry_frontalGram _ hi Nat.one_lt_two,
          hgram, hgram]
        ring
    have h6 : (6.0 : ℝ) = 6 := by norm_num
    have h5 : (5.0 : ℝ) = 5 := by norm_num
    have h61 : (61.0 : ℝ) = 61 := by norm_num
    have h0 : (slantedRow : Dense ℝ).entry 0 0 = 6.0 := rfl
    have h1 : (slantedRow : Dense ℝ).entry 0 1 = 5.0 := rfl
    simp only [slantedPairs, List.forall_mem_cons]
    refine ⟨fun i hi => ?_, fun i hi => ?_, by simp⟩
    · rw [himage _ i hi, h0, h1]
      have hlength : (6.0 : ℝ) * (6.0 / √61.0) + 5.0 * (5.0 / √61.0) = 61.0 * (1 / √61.0) := by
        rw [h6, h5, h61]
        ring
      have hvector : ([6.0 / √61.0, 5.0 / √61.0] : List ℝ).getD i 0 =
          slantedRow.entry 0 i * (1 / √61.0) := by
        rcases Nat.lt_succ_iff_lt_or_eq.mp hi with hi | rfl
        · obtain rfl := Nat.lt_one_iff.mp hi
          rw [h0, mul_one_div]
          rfl
        · rw [h1, mul_one_div]
          rfl
      refine (congrArg (_ * ·) hlength).trans ?_
      rw [hvector]
      exact mul_left_comm _ _ _
    · have hacross : (6.0 : ℝ) * -(5.0 / √61.0) + 5.0 * (6.0 / √61.0) = 0 := by
        rw [h6, h5]
        ring
      rw [himage _ i hi, h0, h1, zero_mul]
      exact mul_eq_zero_of_right _ hacross

theorem rank_slantedRow : (frontalBlock 2 (slantedRow : Dense ℝ)).rank = 1 := by
  rw [← Dense.countP_value_eq_rank isEigenbasis_slantedPairs]
  norm_num [slantedPairs, List.countP_cons]

theorem hasClearRank_slantedPairs : HasClearRank 61 (slantedPairs 0) where
  top_mem := ⟨_, List.mem_cons_self, by norm_num⟩
  le_top := by norm_num [slantedPairs]
  clear := by
    have hroot : (1 : ℝ) ≤ √61 := Real.one_le_sqrt.mpr (by norm_num)
    simp only [slantedPairs, List.forall_mem_cons]
    refine ⟨fun _ => ?_, fun h => absurd rfl h, by simp⟩
    rw [show (61.0 : ℝ) = 61 by norm_num]
    constructor <;> linarith

theorem isNearSpectrum_slantedPairs :
    IsNearSpectrum (1 / 2 ^ 52 * 61) 2 (slantedPairs 0) (slantedPairs 1e-14) where
  unit := unit_slantedPairs _
  orthogonal := orthogonal_slantedPairs _
  near := by
    refine .cons ?_ (.cons ?_ .nil)
    · rw [sub_self, abs_zero]
      positivity
    · rw [sub_zero, abs_of_nonneg (by norm_num)]
      norm_num

theorem frontalPairs_slanted : frontalPairs slanted 2 slantedRow = slantedPairs 1e-14 := by
  refine frontalPairs_eq_self (List.pairwise_pair.mpr ?_)
  norm_num

/-- The direction across the row stands out. -/
theorem frontalRank_slanted : frontalRank slanted 2 slantedRow = 2 := by
  rw [frontalRank_eq_countP, frontalPairs_slanted]
  refine List.countP_eq_length.mpr fun p hp => decide_eq_true (rankThreshold_lt_iff.mpr ?_)
  have hp : p ∈ slantedPairs 1e-14 := hp
  simp only [slantedPairs, List.mem_cons, List.not_mem_nil, or_false] at hp
  rcases hp with rfl | rfl <;> norm_num [negligibleRatio, negligiblePivot]

/-- Within the rounding unit the direction across the row may come out with a singular value of
`10⁻⁷`. It is counted, and the step fails whatever the soft rows are. -/
theorem stepHard_slantedRow :
    2 = (frontalBlock 2 (slantedRow : Dense ℝ)).rank +
        overcounted (rankThreshold (slantedPairs 1e-14)) (slantedPairs 0) (slantedPairs 1e-14) ∧
      ∀ (key : ℕ) (soft : Dense ℝ),
        stepHard slanted key 2 slantedRow soft = Outcome.fail (.singular key) ∨
          stepHard slanted key 2 slantedRow soft = Outcome.sizes := by
  obtain ⟨hcount, -, -, hfail⟩ := frontalRank_of_near (κ := ℕ) (D := slanted)
    { Decompositions.standard_isTriangular with } two_ne_zero isEigenbasis_slantedPairs
    hasClearRank_slantedPairs le_rfl isNearSpectrum_slantedPairs
  rw [frontalPairs_slanted, frontalRank_slanted] at hcount
  exact ⟨hcount, hfail (frontalRank_slanted ▸ Nat.one_lt_two)⟩

/-- **The counted rank can exceed the rank and the number of hard rows**, with eigenvalues that are
off by no more than the rounding unit of the largest. On binary64 numbers it does, and the step
fails whatever the soft rows are. -/
theorem overcounted_slantedRow :
    (IsEigenbasis (frontalGram 2 slantedRow) (slantedPairs 0) ∧ HasClearRank 61 (slantedPairs 0) ∧
      IsNearSpectrum (1 / 2 ^ 52 * 61) 2 (slantedPairs 0)
        (slanted.spectrum (frontalGram 2 slantedRow)) ∧
      (frontalBlock 2 (slantedRow : Dense ℝ)).rank = 1 ∧ (slantedRow : Dense ℝ).nrows = 1 ∧
      frontalRank slanted 2 slantedRow = 2) ∧
    frontalRank .standard 2 (slantedRow : Dense Float) = 2 ∧
      ∀ (key : ℕ) (soft : Dense Float), ∀ out, stepHard .standard key 2 slantedRow soft ≠ .ok out := by
  have hsorted : (Decompositions.standard.spectrum (frontalGram 2 (slantedRow : Dense Float))).Pairwise
      fun p q => q.value ≤ p.value := by decide +kernel
  have hrank : frontalRank .standard 2 (slantedRow : Dense Float) = 2 := by
    rw [frontalRank, rangePairs, frontalPairs_eq_self hsorted]
    decide +kernel
  refine ⟨⟨isEigenbasis_slantedPairs, hasClearRank_slantedPairs, isNearSpectrum_slantedPairs,
    rank_slantedRow, rfl, frontalRank_slanted⟩, hrank, fun key soft out hout => ?_⟩
  have hlt : (slantedRow : Dense Float).nrows < frontalRank .standard 2 (slantedRow : Dense Float) :=
    Nat.lt_of_lt_of_eq Nat.one_lt_two hrank.symm
  rcases stepHard_of_nrows_lt Decompositions.standard_isTriangular hlt two_ne_zero key soft with
    hfail | hfail <;>
  · rw [hfail] at hout
    cases hout

end Slanted


end Elimination
end Kinodynamics
