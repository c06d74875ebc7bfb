/-
# Every ordering of a well-conditioned system

The weighted coefficients of a system form one matrix. If it makes every vector but zero
longer than the negligible pivot times the length of the vector, its equations stretch
(`stretches_prepared`), so every ordering of the keys gives a net. A net that names every key
has the minimiser of the error as its solution, whatever the ordering, so all of them have
one solution (`solution_eq_of_eliminate`).

Key definitions: `LinearSystem.layout`, `LinearSystem.weightedMatrix`, `LinearSystem.columns`.
Key theorems: `Elimination.stretches_prepared`, `Elimination.solution_eq_of_eliminate`,
`Elimination.exists_solution_forall_perm`.
-/
import Kinodynamics.Proofs.Elimination.Conditioning

namespace Kinodynamics

open Finset

/-! ### The matrix of a system -/

namespace LinearSystem

variable {κ : Type} [DecidableEq κ]

/-- The variables of a system with their widths. -/
def layout (s : LinearSystem κ ℝ) : Elimination.Layout κ := s.keys.map fun k => (k, s.dim k)

/-- The weighted coefficients of all equations, one equation below the other, with the
columns of each key in the order of the keys. -/
noncomputable def weightedMatrix (s : LinearSystem κ ℝ) : Dense ℝ :=
  let rows := Elimination.stackRows s.layout (s.equations.map LinearEquation.weighted)
  rows.view 0 0 rows.nrows (Elimination.width s.layout)

/-- A valuation as a vector over the columns of the matrix. -/
def columns (s : LinearSystem κ ℝ) (x : Valuation κ) : List ℝ :=
  (List.range (Elimination.width s.layout)).map (Elimination.spread 0 x s.layout)

theorem length_columns (s : LinearSystem κ ℝ) (x : Valuation κ) :
    (s.columns x).length = Elimination.width s.layout := by
  rw [columns, List.length_map, List.length_range]

end LinearSystem

namespace Elimination

variable {κ : Type}

/-- A valuation spread over a layout is as long as it is over the variables. -/
theorem sum_spread_sq (x : Valuation κ) : ∀ layout : Layout κ,
    ∑ j ∈ range (width layout), spread 0 x layout j ^ 2 =
      (layout.map fun l => ∑ j ∈ range l.2, x l.1 j ^ 2).sum
  | [] => rfl
  | (key, n) :: layout => by
    rw [width, sum_range_add, List.map_cons, List.sum_cons, ← sum_spread_sq x layout]
    refine congrArg₂ (· + ·) (sum_congr rfl fun j hj => ?_) (sum_congr rfl fun j _ => ?_)
    · rw [spread_cons_of_lt _ _ _ _ (mem_range.mp hj)]
    · rw [spread_cons_add]

theorem norm_sq (v : List ℝ) : Scalar.norm v ^ 2 = Scalar.normSq v :=
  Real.sq_sqrt (Scalar.normSq_nonneg v)

/-- The squared length of the product of a matrix with a vector is its energy. -/
theorem norm_mulVec_sq (a : Dense ℝ) (v : List ℝ) :
    Scalar.norm (a.mulVec v) ^ 2 = a.energy (v.getD · 0) := by
  rw [norm_sq, Scalar.normSq_eq_sum, Dense.length_mulVec]
  exact sum_congr rfl fun i hi => by rw [LinearEquation.getD_mulVec _ _ (mem_range.mp hi)]

theorem exists_ne_zero_of_normSq_pos {v : List ℝ} (h : 0 < Scalar.normSq v) : ∃ e ∈ v, e ≠ 0 := by
  by_contra hzero
  push Not at hzero
  refine h.ne' ?_
  rw [Scalar.normSq_eq_sum]
  refine sum_eq_zero fun j hj => ?_
  rw [List.getD_eq_getElem _ _ (mem_range.mp hj), hzero _ (List.getElem_mem _), zero_pow two_ne_zero]

variable [LinearOrder κ] {D : Decompositions ℝ} {s : LinearSystem κ ℝ}

theorem map_fst_layout (s : LinearSystem κ ℝ) : s.layout.map Prod.fst = s.keys := by
  rw [LinearSystem.layout, List.map_map]
  exact List.map_id _

/-- **The matrix of a system has the energies of its weighted coefficients.** -/
theorem energy_weightedMatrix {w : Assignment κ ℕ} (hw : widths s = .ok w)
    (x : Valuation κ) : s.weightedMatrix.energy (spread 0 x s.layout) =
      totalEnergy (s.equations.map LinearEquation.weighted) 0 x := by
  obtain ⟨hfit, hdim⟩ := widths_eq_ok hw
  have hblocks : ∀ r ∈ s.equations.map LinearEquation.weighted, ∀ b ∈ r.blocks,
      (b.1, b.2.ncols) ∈ s.layout := by
    intro r hr b hb
    obtain ⟨r, hmem, rfl⟩ := List.mem_map.mp hr
    obtain ⟨b, hblock, rfl⟩ := List.mem_map.mp hb
    have hkey : b.1 ∈ s.keys := LinearSystem.mem_keys.mpr
      (mem_mentioned.mpr ⟨r, hmem, mem_keys_iff.mpr ⟨b, hblock, rfl⟩⟩)
    exact List.mem_map.mpr
      ⟨b.1, hkey, Prod.ext rfl ((hdim b.1).symm.trans (hfit.widthOf_eq hmem hblock))⟩
  rw [← energy_stackRows ((map_fst_layout s).symm ▸ s.nodup_keys) hblocks 0 x]
  exact Dense.energy_view_columns _ (Nat.le_succ _) fun j hj => spread_zero_of_le x hj

theorem getD_columns (s : LinearSystem κ ℝ) (x : Valuation κ) {j : ℕ} (hj : j < width s.layout) :
    (s.columns x).getD j 0 = spread 0 x s.layout j := by
  rw [List.getD_eq_getElem _ _ (by rwa [LinearSystem.length_columns])]
  exact (List.getElem_map _).trans (by rw [List.getElem_range])

/-- The vector of a valuation is as long as the valuation. -/
theorem normSq_columns {w : Assignment κ ℕ} (hw : widths s = .ok w) (x : Valuation κ) :
    Scalar.normSq (s.columns x) = squaredLength (widthOf w) s.keys x := by
  rw [Scalar.normSq_eq_sum, LinearSystem.length_columns,
    sum_congr rfl fun j hj => by rw [getD_columns s x (mem_range.mp hj)], sum_spread_sq,
    LinearSystem.layout, List.map_map, squaredLength]
  exact congrArg List.sum (List.map_congr_left fun k _ => by rw [(widths_eq_ok hw).2]; rfl)

/-- **A matrix that makes every vector but zero long belongs to equations that stretch.** -/
theorem stretches_prepared {w : Assignment κ ℕ} (hw : widths s = .ok w)
    (hsoft : ∀ r ∈ s.equations, r.isHard = false) {τ : ℝ} (hτ : 0 ≤ τ)
    (hlong : ∀ v : List ℝ, v.length = s.weightedMatrix.ncols → (∃ e ∈ v, e ≠ 0) →
      τ * Scalar.norm v < Scalar.norm (s.weightedMatrix.mulVec v)) :
    Stretches τ (widthOf w) s.keys (prepared s) := by
  intro x hx
  set v := s.columns x
  have hprepared : prepared s = s.equations.map LinearEquation.weighted :=
    List.map_congr_left fun r hr => if_neg (by simp [hsoft r hr])
  have henergy : s.weightedMatrix.energy (v.getD · 0) = totalEnergy (prepared s) 0 x := by
    rw [hprepared, ← energy_weightedMatrix hw]
    exact Dense.energy_congr _ fun j hj => getD_columns s x hj
  rw [← normSq_columns hw x] at hx ⊢
  have hv := hlong v (s.length_columns x) (exists_ne_zero_of_normSq_pos hx)
  calc τ ^ 2 * Scalar.normSq v
      = (τ * Scalar.norm v) ^ 2 := by rw [mul_pow, norm_sq]
    _ < Scalar.norm (s.weightedMatrix.mulVec v) ^ 2 :=
        pow_lt_pow_left₀ hv (mul_nonneg hτ (Real.sqrt_nonneg _)) two_ne_zero
    _ = totalEnergy (prepared s) 0 x := by rw [norm_mulVec_sq, henergy]

/-! ### One solution for all orderings -/

/-- The keys of a solution are those of the system if the ordering names no others. -/
theorem get?_eq_none_of_solve (hD : D.IsTriangular) {ordering : List κ} {net : BayesNet κ ℝ}
    (h : eliminate D s ordering = .ok net) (hkeys : ∀ k ∈ ordering, k ∈ s.keys) {x : Solution κ ℝ}
    (hx : net.solve = .ok x) {k : κ} (hk : k ∉ s.keys) : x.get? k = none := by
  obtain ⟨final, -, hshape⟩ := runShape_of_eliminate hD h
  rcases BayesNet.solve_eq hshape.forward hshape.wellFormed with
    ⟨-, y, hy, hperm, -⟩ | ⟨c, hc, l, hl, hnot, hfail⟩
  · obtain rfl : x = y := Except.ok.inj (hx.symm.trans hy)
    refine Assignment.get?_eq_none_iff.mpr fun hmem => hk (hkeys k ?_)
    rw [← hshape.frontals_eq]
    exact hperm.mem_iff.mp hmem
  · have hx : BayesNet.solve ⟨net.conditionals⟩ = .ok x := hx
    rw [hfail] at hx
    cases hx

/-- **Two orderings of the keys of a soft system that give nets give one solution.** -/
theorem solution_eq_of_eliminate (hD : D.IsExact) (hsoft : ∀ r ∈ s.equations, r.isHard = false)
    {ordering ordering' : List κ} (hperm : ordering.Perm s.keys) (hperm' : ordering'.Perm s.keys)
    {net net' : BayesNet κ ℝ} (h : eliminate D s ordering = .ok net)
    (h' : eliminate D s ordering' = .ok net') {x x' : Solution κ ℝ} (hx : net.solve = .ok x)
    (hx' : net'.solve = .ok x') : x = x' := by
  have hprepared := isHard_prepared_of_soft hsoft
  have hhard := hardEnergy_of_soft hprepared
  obtain ⟨c, -, hvalue, -⟩ := exists_value hD h (fun _ _ => exactRanks_of_soft hprepared)
    ⟨fun _ _ => 0, hhard _⟩
  obtain ⟨c', -, hvalue', -⟩ := exists_value hD h' (fun _ _ => exactRanks_of_soft hprepared)
    ⟨fun _ _ => 0, hhard _⟩
  have hzero := energy_solution hD.toIsTriangular h hx
  have hzero' := energy_solution hD.toIsTriangular h' hx'
  -- both solutions have the least energy there is, so the conditionals of one net hold at both
  have hother : BayesNet.energy net.conditionals (valuation x') = 0 := by
    have h1 := hvalue _ (hhard (valuation x))
    have h2 := hvalue _ (hhard (valuation x'))
    have h1' := hvalue' _ (hhard (valuation x))
    have h2' := hvalue' _ (hhard (valuation x'))
    have hle := BayesNet.energy_nonneg net.conditionals (valuation x')
    have hle' := BayesNet.energy_nonneg net'.conditionals (valuation x)
    linarith
  have hget : ∀ k, x.get? k = x'.get? k := fun k => by
    by_cases hk : k ∈ s.keys
    · exact get?_eq_of_energy hD.toIsTriangular h (fun k hk => hperm.mem_iff.mpr hk)
        (fits_of_solve hD.toIsTriangular h hx) (fits_of_solve hD.toIsTriangular h' hx') hzero hother hk
    · rw [get?_eq_none_of_solve hD.toIsTriangular h (fun k hk => hperm.mem_iff.mp hk) hx hk,
        get?_eq_none_of_solve hD.toIsTriangular h' (fun k hk => hperm'.mem_iff.mp hk) hx' hk]
  obtain ⟨entries⟩ := x
  obtain ⟨entries'⟩ := x'
  rw [Assignment.eq_of_get?_eq (BayesNet.pairwise_keys_of_solve hx)
    (BayesNet.pairwise_keys_of_solve hx') hget]

theorem exists_eliminate (hD : D.IsExact) {w : Assignment κ ℕ} (hw : widths s = .ok w)
    (hsoft : ∀ r ∈ s.equations, r.isHard = false) (hwide : ∀ k ∈ s.keys, 0 < s.dim k)
    (hlong : Stretches negligiblePivot (widthOf w) s.keys (prepared s)) {ordering : List κ}
    (hperm : ordering.Perm s.keys) : ∃ net, eliminate D s ordering = .ok net := by
  obtain ⟨hfit, hdim⟩ := widths_eq_ok hw
  have hlong : Stretches negligiblePivot (widthOf w) ordering (prepared s) := fun x hx => by
    rw [squaredLength_perm _ hperm] at hx ⊢
    exact hlong x hx
  obtain ⟨conditionals, final, hrun⟩ := exists_eliminateAll hD (fitted_prepared hfit)
    (isHard_prepared_of_soft hsoft) (fun k hk => by rw [hdim]; exact hwide k (hperm.mem_iff.mp hk))
    (hperm.nodup_iff.mpr s.nodup_keys) hlong
  exact ⟨_, eliminate_eq_ok_of_run hw hrun fun k hk => hperm.mem_iff.mpr hk⟩

/-- **Every ordering of the keys solves a well-conditioned system, to one solution.** Let a
system have soft equations only, with blocks of at least one column and of one width for
each key, and let the matrix of its weighted coefficients make every vector but zero longer
than the negligible pivot times its length. -/
theorem exists_solution_forall_perm (hD : D.IsExact) (hsoft : ∀ r ∈ s.equations, r.isHard = false)
    (hwide : ∀ r ∈ s.equations, ∀ b ∈ r.blocks, 0 < b.2.ncols) (hconsistent : s.Consistent)
    (hlong : ∀ v : List ℝ, v.length = s.weightedMatrix.ncols → (∃ e ∈ v, e ≠ 0) →
      negligiblePivot * Scalar.norm v < Scalar.norm (s.weightedMatrix.mulVec v)) :
    ∃ x, ∀ ordering : List κ, ordering.Perm s.keys →
      ∃ net, eliminate D s ordering = .ok net ∧ net.solve = .ok x := by
  obtain ⟨w, hw⟩ := exists_widths hconsistent
  obtain ⟨hfit, hdim⟩ := widths_eq_ok hw
  have hdims : ∀ k ∈ s.keys, 0 < s.dim k := fun k hk => by
    obtain ⟨r, hr, hkr⟩ := mem_mentioned.mp (LinearSystem.mem_keys.mp hk)
    obtain ⟨b, hb, rfl⟩ := mem_keys_iff.mp hkr
    rw [← hdim, hfit.widthOf_eq hr hb]
    exact hwide r hr b hb
  have hstretches := stretches_prepared hw hsoft negligiblePivot_pos.le hlong
  have hsolved : ∀ ordering : List κ, ordering.Perm s.keys →
      ∃ net x, eliminate D s ordering = .ok net ∧ net.solve = .ok x := fun ordering hperm => by
    obtain ⟨net, hnet⟩ := exists_eliminate hD hw hsoft hdims hstretches hperm
    obtain ⟨x, hx⟩ := (exists_solve_iff hD.toIsTriangular hnet).mpr fun k hk => hperm.mem_iff.mpr hk
    exact ⟨net, x, hnet, hx⟩
  obtain ⟨net, x, hnet, hx⟩ := hsolved s.keys (List.Perm.refl _)
  refine ⟨x, fun ordering hperm => ?_⟩
  obtain ⟨net', x', hnet', hx'⟩ := hsolved ordering hperm
  refine ⟨net', hnet', ?_⟩
  rw [solution_eq_of_eliminate hD hsoft (List.Perm.refl _) hperm hnet hnet' hx hx', hx']

/-- The coefficients of `x₀ + x₁`, `x₀` and `x₁` are well conditioned. -/
theorem long_softTriangle {v : List ℝ} (hlen : v.length = 2) (hne : ∃ e ∈ v, e ≠ 0) :
    negligiblePivot * Scalar.norm v <
      Scalar.norm ((softTriangle (α := ℝ)).weightedMatrix.mulVec v) := by
  obtain ⟨w, hw⟩ : ∃ w, widths (softTriangle (α := ℝ)) = .ok w := ⟨_, rfl⟩
  obtain ⟨a, b, rfl⟩ := List.length_eq_two.mp hlen
  have henergy : (softTriangle (α := ℝ)).weightedMatrix.energy (([a, b] : List ℝ).getD · 0) =
      (a + b) ^ 2 + a ^ 2 + b ^ 2 := by
    have htotal := energy_weightedMatrix hw fun k _ => ([a, b] : List ℝ).getD k 0
    have hequations : (softTriangle (α := ℝ)).equations.map LinearEquation.weighted =
        [(sumEquation false [0, 1] 3.0).weighted, (sumEquation false [0] 1).weighted,
          (sumEquation false [1] 1).weighted] := rfl
    rw [hequations, totalEnergy_cons, totalEnergy_cons, totalEnergy_cons, totalEnergy_nil,
      energy_weighted_sumEquation, energy_weighted_sumEquation, energy_weighted_sumEquation] at htotal
    refine (Dense.energy_congr _ fun j hj => ?_).trans (htotal.trans ?_)
    · have hj : j < 2 := hj
      interval_cases j <;> rfl
    · norm_num
      ring
  have hpos : 0 < a ^ 2 + b ^ 2 := by
    obtain ⟨e, he, hne⟩ := hne
    rcases List.mem_cons.mp he with rfl | he
    · positivity
    · obtain rfl := List.mem_singleton.mp he
      positivity
  have hnorm : Scalar.norm [a, b] ^ 2 = a ^ 2 + b ^ 2 := by
    rw [norm_sq, Scalar.normSq_eq_sum]
    simp [sum_range_succ]
  refine lt_of_pow_lt_pow_left₀ 2 (Real.sqrt_nonneg _) ?_
  rw [norm_mulVec_sq, henergy, mul_pow, hnorm]
  calc negligiblePivot ^ 2 * (a ^ 2 + b ^ 2)
      < a ^ 2 + b ^ 2 := mul_lt_of_lt_one_left hpos (by norm_num [negligiblePivot])
    _ ≤ (a + b) ^ 2 + a ^ 2 + b ^ 2 := by linarith [sq_nonneg (a + b)]

/-- Both orderings of `x₀` and `x₁` give one solution. -/
theorem exists_solution_softTriangle : ∃ x, ∀ ordering : List ℕ, ordering.Perm [0, 1] →
    ∃ net, eliminate .standard (softTriangle (α := ℝ)) ordering = .ok net ∧ net.solve = .ok x := by
  have hcolumn : ∀ r ∈ (softTriangle (α := ℝ)).equations, ∀ b ∈ r.blocks, b.2.ncols = 1 := by
    simp only [softTriangle, List.mem_cons, List.not_mem_nil, or_false]
    rintro r (rfl | rfl | rfl) b hb <;>
    · obtain ⟨k, -, rfl⟩ := List.mem_map.mp hb
      rfl
  have hsoft : ∀ r ∈ (softTriangle (α := ℝ)).equations, r.isHard = false := by
    simp only [softTriangle, List.mem_cons, List.not_mem_nil, or_false]
    rintro r (rfl | rfl | rfl) <;> rfl
  have hconsistent : (softTriangle (α := ℝ)).Consistent := by
    intro b hb b' hb' _
    obtain ⟨r, hr, hb⟩ := List.mem_flatMap.mp hb
    obtain ⟨r', hr', hb'⟩ := List.mem_flatMap.mp hb'
    rw [hcolumn r hr b hb, hcolumn r' hr' b' hb']
  exact exists_solution_forall_perm Decompositions.standard_isExact hsoft
    (fun r hr b hb => (hcolumn r hr b hb).symm ▸ Nat.one_pos) hconsistent
    fun v hlen hne => long_softTriangle hlen hne

end Elimination
end Kinodynamics
