/-
# Rows are used up

A step takes as many rows out of the equations as its variable has entries, at least
(`IsStep.totalRows_le`): the rows of the conditional do not come back, and neither
decomposition makes more rows than it is given. So a net is returned only for a system with
at least as many rows as the variables of the ordering have entries
(`sum_dim_le_of_eliminate`), and a step that has no more rows than it needs hands none on.

Key theorems: `Elimination.IsStep.totalRows_le`, `Elimination.totalRows_of_eliminateAll`,
`Elimination.sum_dim_le_of_eliminate`.
-/
import Kinodynamics.Proofs.Elimination.Factor
import Kinodynamics.Proofs.Elimination.Run

namespace Kinodynamics
namespace Elimination

variable {κ α : Type} [Scalar α] {D : Decompositions α}

/-! ### Counting -/

section Count

omit [Scalar α]

theorem totalRows_append (a b : List (LinearEquation κ α)) :
    totalRows (a ++ b) = totalRows a + totalRows b := by
  induction a with
  | nil => rw [List.nil_append, totalRows, Nat.zero_add]
  | cons r a ih => rw [List.cons_append, totalRows, totalRows, ih, Nat.add_assoc]

/-- Equations split by a test have their rows split. -/
theorem totalRows_filter (p : LinearEquation κ α → Bool) (equations : List (LinearEquation κ α)) :
    totalRows equations =
      totalRows (equations.filter p) + totalRows (equations.filter fun r => !p r) := by
  induction equations with
  | nil => rfl
  | cons r equations ih =>
    cases hp : p r
    · rw [List.filter_cons_of_neg (by simp [hp]), List.filter_cons_of_pos (by simp [hp]), totalRows,
        totalRows, ih]
      omega
    · rw [List.filter_cons_of_pos hp, List.filter_cons_of_neg (by simp [hp]), totalRows, totalRows, ih]
      omega

end Count

theorem nrows_stackRows [DecidableEq κ] (layout : Layout κ) (equations : List (LinearEquation κ α)) :
    (stackRows layout equations).nrows = totalRows equations := by
  show (equations.flatMap fun r => (List.range r.rows).map (rowOver layout r)).length = _
  induction equations with
  | nil => rfl
  | cons r equations ih =>
    rw [List.flatMap_cons, List.length_append, ih, List.length_map, List.length_range, totalRows]

/-- A remainder has the rows it was cut from, or none. -/
theorem IsRemainder.totalRows_le {layout : Layout κ} {rest : Dense α} {noise : ℕ → Noise α}
    {equations : List (LinearEquation κ α)} (h : IsRemainder layout rest noise equations) :
    totalRows equations ≤ rest.nrows := by
  rcases h with ⟨rfl, -⟩ | ⟨r, rfl, -, -, -, hrhs, -⟩
  · exact Nat.zero_le _
  · rw [totalRows, totalRows, LinearEquation.rows, hrhs, Dense.length_column]
    exact le_rfl

theorem IsRemainder.eq_nil {layout : Layout κ} {rest : Dense α} {noise : ℕ → Noise α}
    {equations : List (LinearEquation κ α)} (h : IsRemainder layout rest noise equations)
    (hrows : totalRows equations = 0) : equations = [] := by
  rcases h with ⟨hnil, -⟩ | ⟨r, rfl, -, hne, -, hrhs, -⟩
  · exact hnil
  · rw [totalRows, totalRows, LinearEquation.rows, hrhs, Dense.length_column] at hrows
    exact absurd hrows hne

/-! ### One step -/

variable {key : κ} {n : ℕ} {hard soft : Dense α} {out : StepRows α}

theorem nrows_of_stepSoft (hD : D.IsTriangular) (h : stepSoft D key n soft = .ok out) :
    out.hard.nrows = 0 ∧ out.soft.nrows + n ≤ soft.nrows := by
  obtain ⟨hpivots, rfl⟩ := stepSoft_eq_ok_iff.mp h
  have hle := le_nrows_of_requirePivots hpivots
  have hfactor := nrows_upperFactor hD soft
  refine ⟨rfl, ?_⟩
  show (upperFactor D soft).nrows - n + n ≤ soft.nrows
  omega

theorem nrows_of_stepHard (hD : D.IsTriangular) (h : stepHard D key n hard soft = .ok out) :
    out.hard.nrows + out.soft.nrows + n ≤ hard.nrows + soft.nrows := by
  obtain ⟨gain, softTop, hstep⟩ := isHardStep_of_stepHard h
  have hle := le_nrows_of_requirePivots hstep.rangePivots
  have hfactor : (hardFactor D n hard).nrows = min hard.nrows (rangeStack D n hard).ncols :=
    nrows_upperFactor hD _
  have hhard : out.hard.nrows = (hardFactor D n hard).nrows - frontalRank D n hard := by
    rw [hstep.hard_eq]
    rfl
  have hfree := hstep.free_le
  have hprojected : (softProjected D n hard soft gain).nrows = soft.nrows := rfl
  rcases splitSoft_eq_ok_iff.mp hstep.soft_eq with ⟨hnone, hparts⟩ | ⟨-, hpivots, hparts⟩
  · have hsoft : out.soft.nrows = 0 := by
      rw [(Prod.mk.inj hparts).2]
      rfl
    omega
  · have hsoft : out.soft.nrows = (upperFactor D (softProjected D n hard soft gain)).nrows -
        (n - frontalRank D n hard) := by
      rw [(Prod.mk.inj hparts).2]
      rfl
    have hlesoft := le_nrows_of_requirePivots hpivots
    have hfactorsoft := nrows_upperFactor hD (softProjected D n hard soft gain)
    omega

variable [LinearOrder κ] {widths : Assignment κ ℕ} {remaining rest : List (LinearEquation κ α)}
  {frontal : κ} {hardRest softRest : List (LinearEquation κ α)} {c : Conditional κ α}

/-- **A step uses up as many rows as its variable has entries.** -/
theorem IsStep.totalRows_le (hD : D.IsTriangular)
    (h : IsStep D widths remaining frontal out hardRest softRest c rest) :
    totalRows (hardRest ++ softRest) + widthOf widths frontal ≤
      totalRows (touching remaining frontal) := by
  have hhard := h.isHardRest.totalRows_le
  have hsoft := h.isSoftRest.totalRows_le
  have hstacks : totalRows (touching remaining frontal) =
      (hardStack widths remaining frontal).nrows + (softStack widths remaining frontal).nrows := by
    rw [hardStack, softStack, nrows_stackRows, nrows_stackRows, hardOn, softOn]
    exact totalRows_filter _ _
  rw [totalRows_append, hstacks]
  have hred := h.reduced_eq
  unfold reduced at hred
  split_ifs at hred
  · obtain ⟨hnone, hle⟩ := nrows_of_stepSoft hD hred
    omega
  · have hle := nrows_of_stepHard hD hred
    omega

theorem IsStep.totalRows_rest (hD : D.IsTriangular)
    (h : IsStep D widths remaining frontal out hardRest softRest c rest) :
    totalRows rest + widthOf widths frontal ≤ totalRows remaining := by
  have hle := h.totalRows_le hD
  have hsplit : totalRows remaining =
      totalRows (touching remaining frontal) + totalRows (untouched remaining frontal) :=
    totalRows_filter _ _
  rw [h.rest_eq, totalRows_append]
  omega

/-- **A step that has no more rows than it needs hands none on.** Its separator is then named
by the conditional only. -/
theorem IsStep.rest_eq_untouched (hD : D.IsTriangular)
    (h : IsStep D widths remaining frontal out hardRest softRest c rest)
    (hrows : totalRows (touching remaining frontal) = widthOf widths frontal) :
    rest = untouched remaining frontal := by
  have hle := h.totalRows_le hD
  rw [totalRows_append] at hle
  have hhard : hardRest = [] := h.isHardRest.eq_nil (by omega)
  have hsoft : softRest = [] := h.isSoftRest.eq_nil (by omega)
  rw [h.rest_eq, hhard, hsoft, List.nil_append, List.append_nil]

/-! ### The run -/

/-- **So does a run**, by induction on the ordering. -/
theorem totalRows_of_eliminateAll (hD : D.IsTriangular) : ∀ {ordering : List κ}
    {remaining final : List (LinearEquation κ α)} {conditionals : List (Conditional κ α)},
    eliminateAll D widths ordering remaining = .ok (conditionals, final) →
      totalRows final + (ordering.map (widthOf widths)).sum ≤ totalRows remaining
  | [], _, _, _, h => by
    cases h
    exact le_rfl
  | frontal :: ordering, remaining, final, conditionals, h => by
    obtain ⟨c, rest, later, hnext, hrun, rfl⟩ := eliminateAll_cons_eq_ok h
    obtain ⟨out, hardRest, softRest, hstep⟩ := isStep_of_eliminateNext hnext
    have hfirst := hstep.totalRows_rest hD
    have hlater := totalRows_of_eliminateAll hD hrun
    rw [List.map_cons, List.sum_cons]
    omega

omit [LinearOrder κ] in
theorem totalRows_prepared (s : LinearSystem κ α) : totalRows (prepared s) = totalRows s.equations := by
  rw [prepared]
  induction s.equations with
  | nil => rfl
  | cons r equations ih =>
    have hrows : (if r.isHard then r else r.weighted).rows = r.rows := by
      split_ifs
      · rfl
      · exact r.rows_weighted
    rw [List.map_cons, totalRows, totalRows, ih, hrows]

/-- **A net is returned only if there are enough rows.** -/
theorem sum_dim_le_of_eliminate (hD : D.IsTriangular) {s : LinearSystem κ α} {ordering : List κ}
    {net : BayesNet κ α} (h : eliminate D s ordering = .ok net) :
    (ordering.map s.dim).sum ≤ totalRows s.equations := by
  obtain ⟨w, final, hw, hrun, -⟩ := eliminate_eq_ok_iff.mp h
  have hdim : widthOf w = s.dim := funext (widths_eq_ok hw).2
  have hle := totalRows_of_eliminateAll hD hrun
  rw [hdim, totalRows_prepared] at hle
  omega

end Elimination
end Kinodynamics
