/-
# Elimination is least squares

At the reals, with an exact triangular factor. Without hard equations the error of a
system is, at every solution that fits it, a constant and the squares of the
conditionals (`error_of_eliminate_soft`); the solution of the net makes the squares zero
and is the only minimiser. With hard equations that have a common solution, and counted
ranks that are exact, the solution of the net satisfies them and has the least soft error
of all that do (`leastSquares_of_eliminate`).

If the hard equations have no common solution, what comes out is the least there is of
their energy (`hardEnergy_solution_le`), and nothing reports it.

No condition on the noise models is needed: at the reals `1 / 0` is zero, so a row with a
deviation of zero has no weight.

All of this holds of every net that elimination returns. What is not certain is that the net has
a solution: it has one exactly if the ordering names every key. Elimination does not
check that; it reports an equation that is left, and a variable can leave the equations
as a parent.

Key definitions: `Elimination.HasExactRanks`.
Key theorems: `Elimination.exists_value`, `Elimination.error_of_eliminate_soft`,
`Elimination.leastSquares_of_eliminate`.
-/
import Kinodynamics.Proofs.Elimination.Carry
import Kinodynamics.Proofs.Elimination.OneEntry

namespace Kinodynamics
namespace Elimination

variable {κ : Type}

/-! ### The prepared equations -/

/-- Preparing keeps the hard equations. -/
theorem filter_hard_prepared (s : LinearSystem κ ℝ) :
    (prepared s).filter (fun r => r.isHard) = s.equations.filter fun r => r.isHard := by
  rw [prepared]
  induction s.equations with
  | nil => rfl
  | cons r equations ih =>
    rw [List.map_cons]
    cases hr : r.isHard
    · rw [if_neg Bool.false_ne_true, List.filter_cons_of_neg (by simp [r.isHard_weighted]),
        List.filter_cons_of_neg (by simp [hr]), ih]
    · rw [if_pos rfl, List.filter_cons_of_pos hr, List.filter_cons_of_pos hr, ih]

theorem hardEnergy_prepared (s : LinearSystem κ ℝ) (x : Valuation κ) :
    hardEnergy (prepared s) x = totalEnergy (s.equations.filter fun r => r.isHard) 1 x := by
  rw [hardEnergy, filter_hard_prepared]

theorem softEnergy_prepared (s : LinearSystem κ ℝ) (x : Valuation κ) :
    softEnergy (prepared s) x =
      totalEnergy (s.softPart.equations.map LinearEquation.weighted) 1 x := by
  rw [softEnergy, prepared, LinearSystem.softPart]
  simp only
  induction s.equations with
  | nil => rfl
  | cons r equations ih =>
    rw [List.map_cons]
    cases hr : r.isHard
    · rw [if_neg Bool.false_ne_true, List.filter_cons_of_pos (by simp [r.isHard_weighted]),
        List.filter_cons_of_pos (by simp [hr]), List.map_cons, totalEnergy_cons, totalEnergy_cons, ih]
    · rw [if_pos rfl, List.filter_cons_of_neg (by simp [hr]), List.filter_cons_of_neg (by simp [hr]),
        ih]

/-- Without hard equations nothing has to hold. -/
theorem hardEnergy_of_soft {equations : List (LinearEquation κ ℝ)}
    (h : ∀ r ∈ equations, r.isHard = false) (x : Valuation κ) : hardEnergy equations x = 0 := by
  rw [hardEnergy, List.filter_eq_nil_iff.mpr fun r hr => by simp [h r hr], totalEnergy_nil]

/-- Preparing soft equations leaves them soft. -/
theorem isHard_prepared_of_soft {s : LinearSystem κ ℝ} (h : ∀ r ∈ s.equations, r.isHard = false) :
    ∀ r ∈ prepared s, r.isHard = false := by
  intro r hr
  obtain ⟨r', hr', rfl⟩ := List.mem_map.mp hr
  rw [if_neg (by simp [h r' hr'])]
  exact r'.isHard_weighted

theorem softPart_eq_self {s : LinearSystem κ ℝ} (h : ∀ r ∈ s.equations, r.isHard = false) :
    s.softPart = s := by
  rw [LinearSystem.softPart, List.filter_eq_self.mpr fun r hr => by simp [h r hr]]

variable [LinearOrder κ] {D : Decompositions ℝ} {s : LinearSystem κ ℝ} {ordering : List κ}
  {net : BayesNet κ ℝ}

/-- A solution that fits the system has a value of the right size for each block. -/
theorem exists_get?_of_fits {w : Assignment κ ℕ} (hw : widths s = .ok w) {x : Solution κ ℝ}
    (hx : s.Fits x) {r : LinearEquation κ ℝ} (hr : r ∈ s.equations) {b : κ × Dense ℝ}
    (hb : b ∈ r.blocks) : ∃ v, x.get? b.1 = some v ∧ v.length = b.2.ncols := by
  obtain ⟨hfit, hdim⟩ := widths_eq_ok hw
  have hkey : b.1 ∈ s.keys := LinearSystem.mem_keys.mpr
    (mem_mentioned.mpr ⟨r, hr, mem_keys_iff.mpr ⟨b, hb, rfl⟩⟩)
  obtain ⟨v, hv, hlen⟩ := hx b.1 hkey
  exact ⟨v, hv, by rw [hlen, ← hdim, hfit.widthOf_eq hr hb]⟩

/-- A solution satisfies the hard equations just if their energy is zero. -/
theorem satisfiesHard_iff {w : Assignment κ ℕ} (hw : widths s = .ok w) {x : Solution κ ℝ}
    (hx : s.Fits x) : s.SatisfiesHard x ↔ hardEnergy (prepared s) (valuation x) = 0 := by
  rw [hardEnergy_prepared, totalEnergy_eq_zero_iff]
  have hrow : ∀ r ∈ s.equations,
      r.residual x = .ok (List.replicate r.rows 0) ↔ r.energy 1 (valuation x) = 0 := by
    intro r hr
    obtain ⟨residual, hresidual, hlen, hget⟩ :=
      LinearEquation.residual_eq fun b hb => exists_get?_of_fits hw hx hr hb
    rw [hresidual, LinearEquation.energy_eq_zero_iff]
    constructor
    · intro h i hi
      have heq : residual = List.replicate r.rows 0 := Except.ok.inj h
      rw [← hget i hi, heq, List.getD_replicate _ hi]
    · intro h
      refine congrArg Except.ok (List.ext_getElem (by rw [hlen, List.length_replicate]) fun i hi _ => ?_)
      have hi' : i < r.rows := hlen ▸ hi
      rw [List.getElem_replicate, ← List.getD_eq_getElem residual 0 hi, hget i hi', h i hi']
  constructor
  · intro h r hr
    obtain ⟨hr, hhard⟩ := List.mem_filter.mp hr
    exact (hrow r hr).mp (h r hr hhard)
  · intro h r hr hhard
    exact (hrow r hr).mpr (h r (List.mem_filter.mpr ⟨hr, hhard⟩))

/-- The error of the soft equations is half their energy. -/
theorem error_softPart {w : Assignment κ ℕ} (hw : widths s = .ok w) {x : Solution κ ℝ}
    (hx : s.Fits x) :
    s.softPart.error x = .ok (1 / 2 * softEnergy (prepared s) (valuation x)) := by
  rw [softEnergy_prepared]
  exact LinearSystem.error_eq fun r hr b hb =>
    exists_get?_of_fits hw hx (List.mem_of_mem_filter hr) hb

/-- Values with the same entries are the same. -/
theorem get?_eq_of_valuation {x y : Solution κ ℝ} (hx : s.Fits x) (hy : s.Fits y) {k : κ}
    (hk : k ∈ s.keys) (h : ∀ j < s.dim k, valuation x k j = valuation y k j) :
    x.get? k = y.get? k := by
  obtain ⟨v, hv, hvlen⟩ := hx k hk
  obtain ⟨w, hw, hwlen⟩ := hy k hk
  exact get?_eq_of_length_eq hv hw (hvlen.trans hwlen.symm) fun j hj => h j (hvlen ▸ hj)

/-! ### The value of the problem -/

/-- The ranks that a run counts are exact, at every step with hard equations. -/
def HasExactRanks (D : Decompositions ℝ) (s : LinearSystem κ ℝ) (ordering : List κ) : Prop :=
  ∀ w, widths s = .ok w → ExactRanks D w ordering (prepared s)

/-- **What the net knows of the system.** If the hard equations have a common solution, then
where they hold the soft energy is a constant and the energy of the net, and where the
energy of the net is zero they hold. -/
theorem exists_value (hD : D.IsExact) (h : eliminate D s ordering = .ok net)
    (hranks : HasExactRanks D s ordering) (hfeasible : ∃ x, hardEnergy (prepared s) x = 0) :
    ∃ c : ℝ, 0 ≤ c ∧
      (∀ x, hardEnergy (prepared s) x = 0 →
        softEnergy (prepared s) x = c + BayesNet.energy net.conditionals x) ∧
      ∀ x, BayesNet.energy net.conditionals x = 0 → hardEnergy (prepared s) x = 0 := by
  obtain ⟨w, final, hw, hrun, hnil⟩ := eliminate_eq_ok_iff.mp h
  obtain ⟨lostHard, lostSoft, hlh, hls, hcarry⟩ := carries_of_eliminateAll hD
    (fitted_prepared (widths_eq_ok hw).1) (hranks w hw) hrun
  obtain ⟨x₀, hx₀⟩ := hfeasible
  -- the equations left at the end have no variables, so their energies are constant
  have hmentioned : ∀ p, mentioned (final.filter p) = [] := fun p =>
    List.flatMap_eq_nil_iff.mpr fun r hr =>
      List.flatMap_eq_nil_iff.mp hnil r (List.mem_of_mem_filter hr)
  have hhardFinal : ∀ x, hardEnergy final x = hardEnergy final x₀ := fun x =>
    totalEnergy_of_mentioned_eq_nil (hmentioned _) 1 x x₀
  have hsoftFinal : ∀ x, softEnergy final x = softEnergy final x₀ := fun x =>
    totalEnergy_of_mentioned_eq_nil (hmentioned _) 1 x x₀
  have hnonneg := hardEnergy_nonneg final x₀
  -- where the hard equations have a common solution nothing hard is lost
  have hlost : hardEnergy final x₀ + lostHard = 0 := by
    obtain ⟨fixing, -, hf, -, hhard, -, -⟩ := hcarry x₀
    linarith
  refine ⟨softEnergy final x₀ + lostSoft, add_nonneg (softEnergy_nonneg _ _) hls,
    fun x hx => ?_, fun x hx => ?_⟩
  · obtain ⟨fixing, settling, hf, hs, hhard, hsoft, hnet⟩ := hcarry x
    have hfixing : fixing = 0 := by linarith [hhardFinal x]
    rw [hsoft hfixing, hnet, hsoftFinal x, hfixing]
    ring
  · obtain ⟨fixing, settling, hf, hs, hhard, -, hnet⟩ := hcarry x
    have hfixing : fixing = 0 := by linarith
    linarith [hhardFinal x]

/-- At the solution of a net its conditionals hold. -/
theorem energy_solution (hD : D.IsTriangular) (h : eliminate D s ordering = .ok net)
    {x : Solution κ ℝ} (hx : net.solve = .ok x) :
    BayesNet.energy net.conditionals (valuation x) = 0 := by
  obtain ⟨final, -, hshape⟩ := runShape_of_eliminate hD h
  exact BayesNet.energy_of_solve hshape.forward hshape.wellFormed hx

/-- **Without a common solution the hard equations are solved by least squares.** Nothing is
asked of them here: at the solution of the net their energy is the least there is, and it is
zero just if they have a common solution. -/
theorem hardEnergy_solution_le (hD : D.IsExact) (h : eliminate D s ordering = .ok net)
    (hranks : HasExactRanks D s ordering) {x : Solution κ ℝ} (hx : net.solve = .ok x)
    (y : Valuation κ) : hardEnergy (prepared s) (valuation x) ≤ hardEnergy (prepared s) y := by
  obtain ⟨w, final, hw, hrun, hnil⟩ := eliminate_eq_ok_iff.mp h
  obtain ⟨lostHard, lostSoft, -, -, hcarry⟩ := carries_of_eliminateAll hD
    (fitted_prepared (widths_eq_ok hw).1) (hranks w hw) hrun
  have hfinal : hardEnergy final (valuation x) = hardEnergy final y :=
    totalEnergy_of_mentioned_eq_nil (List.flatMap_eq_nil_iff.mpr fun r hr =>
      List.flatMap_eq_nil_iff.mp hnil r (List.mem_of_mem_filter hr)) 1 _ _
  have hzero := energy_solution hD.toIsTriangular h hx
  obtain ⟨fixing, settling, hf, hs, hhard, -, hnet⟩ := hcarry (valuation x)
  obtain ⟨fixing', -, hf', -, hhard', -, -⟩ := hcarry y
  have hfixing : fixing = 0 := by linarith
  linarith

/-- Two solutions at which the conditionals hold are the same. -/
theorem get?_eq_of_energy (hD : D.IsTriangular) (h : eliminate D s ordering = .ok net)
    (hall : ∀ k ∈ s.keys, k ∈ ordering) {x y : Solution κ ℝ} (hx : s.Fits x) (hy : s.Fits y)
    (hex : BayesNet.energy net.conditionals (valuation x) = 0)
    (hey : BayesNet.energy net.conditionals (valuation y) = 0) {k : κ} (hk : k ∈ s.keys) :
    x.get? k = y.get? k := by
  obtain ⟨final, -, hshape⟩ := runShape_of_eliminate hD h
  refine get?_eq_of_valuation hx hy hk fun j hj => ?_
  exact BayesNet.eq_of_energy_eq_zero hshape.forward hshape.wellFormed
    ((closed_iff_of_eliminate hD h).mpr hall) hex hey k (hshape.frontals_eq ▸ hall k hk) j hj

/-! ### Without hard equations -/

/-- **Elimination of soft equations keeps the error.** For a system without hard equations
there is a constant such that the error of every solution that fits the system is that
constant and half the squares of the conditionals. The net has a solution exactly if the
ordering names every key. Then the constant is the error of that solution, and every other
solution has a larger error. -/
theorem error_of_eliminate_soft (hD : D.IsExact) (hsoft : ∀ r ∈ s.equations, r.isHard = false)
    (h : eliminate D s ordering = .ok net) :
    ∃ c : ℝ, 0 ≤ c ∧
      (∀ x, s.Fits x → s.error x =
        .ok (c + (net.conditionals.map fun d => 1 / 2 * d.energy (valuation x)).sum)) ∧
      ((∃ x, net.solve = .ok x) ↔ ∀ k ∈ s.keys, k ∈ ordering) ∧
      ∀ x, net.solve = .ok x → s.Fits x ∧ s.error x = .ok c ∧
        ∀ y, s.Fits y → ∃ e, s.error y = .ok e ∧ c ≤ e ∧
          (e = c → ∀ k ∈ s.keys, y.get? k = x.get? k) := by
  obtain ⟨w, -, hw, -, -⟩ := eliminate_eq_ok_iff.mp h
  have hprepared := isHard_prepared_of_soft hsoft
  have hhard := hardEnergy_of_soft hprepared
  obtain ⟨c, hc, hvalue, -⟩ := exists_value hD h (fun _ _ => exactRanks_of_soft hprepared)
    ⟨fun _ _ => 0, hhard _⟩
  have herror : ∀ x, s.Fits x →
      s.error x = .ok (1 / 2 * c + 1 / 2 * BayesNet.energy net.conditionals (valuation x)) := by
    intro x hx
    have herr := error_softPart hw hx
    rw [softPart_eq_self hsoft, hvalue _ (hhard _)] at herr
    rw [herr, mul_add]
  refine ⟨1 / 2 * c, by linarith, fun x hx => ?_, exists_solve_iff hD.toIsTriangular h,
    fun x hx => ?_⟩
  · rw [herror x hx, List.sum_map_mul_left]
    rfl
  · have hfits := fits_of_solve hD.toIsTriangular h hx
    have hzero := energy_solution hD.toIsTriangular h hx
    have hall := (exists_solve_iff hD.toIsTriangular h).mp ⟨x, hx⟩
    refine ⟨hfits, by rw [herror x hfits, hzero, mul_zero, add_zero], fun y hy =>
      ⟨_, herror y hy, ?_, fun heq k hk => ?_⟩⟩
    · linarith [BayesNet.energy_nonneg net.conditionals (valuation y)]
    · have hyzero : BayesNet.energy net.conditionals (valuation y) = 0 := by linarith
      exact get?_eq_of_energy hD.toIsTriangular h hall hy hfits hyzero hzero hk

/-- The soft equations `x₀ = 1` and `x₀ = 3`. -/
noncomputable def softPair : LinearSystem ℕ ℝ :=
  ⟨[sumEquation false [0] 1, sumEquation false [0] 3]⟩

/-- The error that is left is the least there is. -/
theorem error_softPair : ∃ net x c, eliminate .standard softPair [0] = .ok net ∧ net.solve = .ok x ∧
    softPair.error x = .ok c ∧ ∀ y, softPair.Fits y → ∃ e, softPair.error y = .ok e ∧ c ≤ e := by
  obtain ⟨w, hw⟩ : ∃ w, widths softPair = .ok w := ⟨_, rfl⟩
  have hkeys : softPair.keys = [0] := rfl
  obtain ⟨net, hnet⟩ : ∃ net, eliminate .standard softPair [0] = .ok net := by
    refine exists_eliminate_alone hw rfl ?_ fun k hk => List.mem_singleton.mp (hkeys ▸ hk)
    have hpivotal : pivotal (prepared softPair) 0 =
        [(sumEquation false [0] 1).weighted,
          (sumEquation false [0] 3).weighted] := rfl
    rw [hpivotal, totalEnergy_cons, totalEnergy_cons, totalEnergy_nil, energy_weighted_sumEquation,
      energy_weighted_sumEquation, negligiblePivot]
    norm_num [unitAt]
  have hsoft : ∀ r ∈ softPair.equations, r.isHard = false := by
    simp only [softPair, List.mem_cons, List.not_mem_nil, or_false]
    rintro r (rfl | rfl) <;> rfl
  obtain ⟨c, -, -, hsolve, hleast⟩ := error_of_eliminate_soft Decompositions.standard_isExact hsoft hnet
  obtain ⟨x, hx⟩ := hsolve.mpr fun k hk => hkeys ▸ hk
  obtain ⟨-, hc, hmin⟩ := hleast x hx
  exact ⟨net, x, c, hnet, hx, hc, fun y hy => by
    obtain ⟨e, he, hle, -⟩ := hmin y hy
    exact ⟨e, he, hle⟩⟩

/-- A net without a solution: `x₀ + x₁ = 1` eliminated by `x₀` alone. -/
theorem softSum_unsolved : (∀ r ∈ (softSum (1 : ℝ)).equations, r.isHard = false) ∧
    ∃ net, eliminate .standard (softSum (1 : ℝ)) [0] = .ok net ∧ ∀ x, net.solve ≠ .ok x := by
  obtain ⟨w, hw⟩ : ∃ w, widths (softSum (1 : ℝ)) = .ok w := ⟨_, rfl⟩
  obtain ⟨net, hnet⟩ : ∃ net, eliminate .standard (softSum (1 : ℝ)) [0] = .ok net := by
    refine exists_eliminate_row hw rfl ?_ rfl rfl
    have hpivotal : pivotal (prepared (softSum (1 : ℝ))) 0 =
        [(sumEquation false [0, 1] 1).weighted] := rfl
    rw [hpivotal, totalEnergy_cons, totalEnergy_nil, energy_weighted_sumEquation, negligiblePivot]
    norm_num [unitAt]
  have hkeys : (softSum (1 : ℝ)).keys = [0, 1] := rfl
  refine ⟨fun r hr => ?_, net, hnet, fun x hx => ?_⟩
  · obtain rfl := List.mem_singleton.mp hr
    rfl
  · have hall := (exists_solve_iff Decompositions.standard_isTriangular hnet).mp ⟨x, hx⟩
    have hone := hall 1 (by rw [hkeys]; decide)
    exact absurd hone (by decide)

/-! ### With hard equations -/

/-- **Elimination solves constrained least squares.** Let the hard equations have a common
solution, and let the ranks that the run counts be exact. The net has a solution exactly if
the ordering names every key. It satisfies every hard equation, has the least error in the
soft equations of all solutions that do, and is the only one with that error. -/
theorem leastSquares_of_eliminate (hD : D.IsExact) (h : eliminate D s ordering = .ok net)
    (hranks : HasExactRanks D s ordering) (hfeasible : ∃ x, s.Fits x ∧ s.SatisfiesHard x) :
    ((∃ x, net.solve = .ok x) ↔ ∀ k ∈ s.keys, k ∈ ordering) ∧
    ∀ x, net.solve = .ok x → s.Fits x ∧ s.SatisfiesHard x ∧
      ∃ least, s.softPart.error x = .ok least ∧
        ∀ y, s.Fits y → s.SatisfiesHard y → ∃ e, s.softPart.error y = .ok e ∧ least ≤ e ∧
          (e = least → ∀ k ∈ s.keys, y.get? k = x.get? k) := by
  obtain ⟨w, -, hw, -, -⟩ := eliminate_eq_ok_iff.mp h
  obtain ⟨x₀, hx₀, hsat₀⟩ := hfeasible
  obtain ⟨c, -, hvalue, hholds⟩ := exists_value hD h hranks
    ⟨valuation x₀, (satisfiesHard_iff hw hx₀).mp hsat₀⟩
  have herror : ∀ y, s.Fits y → s.SatisfiesHard y → s.softPart.error y =
      .ok (1 / 2 * (c + BayesNet.energy net.conditionals (valuation y))) := fun y hy hsat => by
    rw [error_softPart hw hy, hvalue _ ((satisfiesHard_iff hw hy).mp hsat)]
  refine ⟨exists_solve_iff hD.toIsTriangular h, fun x hx => ?_⟩
  have hfits := fits_of_solve hD.toIsTriangular h hx
  have hzero := energy_solution hD.toIsTriangular h hx
  have hall := (exists_solve_iff hD.toIsTriangular h).mp ⟨x, hx⟩
  have hsat : s.SatisfiesHard x := (satisfiesHard_iff hw hfits).mpr (hholds _ hzero)
  refine ⟨hfits, hsat, _, herror x hfits hsat, fun y hy hysat =>
    ⟨_, herror y hy hysat, ?_, fun heq k hk => ?_⟩⟩
  · linarith [BayesNet.energy_nonneg net.conditionals (valuation y)]
  · have hyzero : BayesNet.energy net.conditionals (valuation y) = 0 := by linarith
    exact get?_eq_of_energy hD.toIsTriangular h hall hy hfits hyzero hzero hk

/-- Of a single variable of one entry the counted rank is exact. -/
theorem hasExactRanks_one {k : κ} (hdim : s.dim k = 1)
    (hlong : negligiblePivot ^ 2 < totalEnergy (hardOn (prepared s) k) 0 (unitAt k)) :
    HasExactRanks .standard s [k] := by
  intro w hw
  obtain ⟨hfit, hdims⟩ := widths_eq_ok hw
  exact ⟨fun _ => exactRank_stack_one (fitted_prepared hfit) ((hdims k).trans hdim) hlong,
    fun _ _ _ => trivial⟩

/-- The hard equation `x₀ = 1` and the soft equation `x₀ = 3`. -/
noncomputable def mixedPair : LinearSystem ℕ ℝ :=
  ⟨[sumEquation true [0] 1, sumEquation false [0] 3]⟩

/-- The hard equation is satisfied although the soft one pulls. -/
theorem leastSquares_mixedPair : ∃ net x, eliminate .standard mixedPair [0] = .ok net ∧
    net.solve = .ok x ∧ mixedPair.SatisfiesHard x ∧
      ∃ least, mixedPair.softPart.error x = .ok least := by
  obtain ⟨w, hw⟩ : ∃ w, widths mixedPair = .ok w := ⟨_, rfl⟩
  have hkeys : mixedPair.keys = [0] := rfl
  have hlong : negligiblePivot ^ 2 < totalEnergy (hardOn (prepared mixedPair) 0) 0 (unitAt 0) := by
    have hhard : hardOn (prepared mixedPair) 0 = [sumEquation true [0] 1] := rfl
    rw [hhard, totalEnergy_cons, totalEnergy_nil, energy_sumEquation, negligiblePivot]
    norm_num [unitAt]
  obtain ⟨net, hnet⟩ : ∃ net, eliminate .standard mixedPair [0] = .ok net :=
    exists_eliminate_alone hw rfl hlong fun k hk => List.mem_singleton.mp (hkeys ▸ hk)
  have hfeasible : ∃ x, mixedPair.Fits x ∧ mixedPair.SatisfiesHard x := by
    have hfits : mixedPair.Fits ⟨[(0, [1])]⟩ := fun k hk => by
      obtain rfl := List.mem_singleton.mp (hkeys ▸ hk)
      exact ⟨[1], rfl, rfl⟩
    refine ⟨_, hfits, (satisfiesHard_iff hw hfits).mpr ?_⟩
    have hhard : mixedPair.equations.filter (fun r => r.isHard) =
        [sumEquation true [0] 1] := rfl
    rw [hardEnergy_prepared, hhard, totalEnergy_cons, totalEnergy_nil, energy_sumEquation]
    norm_num [valuation, Assignment.get?]
  obtain ⟨hsolve, hleast⟩ := leastSquares_of_eliminate Decompositions.standard_isExact hnet
    (hasExactRanks_one rfl hlong) hfeasible
  obtain ⟨x, hx⟩ := hsolve.mpr fun k hk => hkeys ▸ hk
  obtain ⟨-, hsat, least, hleast, -⟩ := hleast x hx
  exact ⟨net, x, hnet, hx, hsat, least, hleast⟩

/-- The hard equation `x₀ + x₁ = b`. -/
noncomputable def hardSum (b : ℝ) : LinearSystem ℕ ℝ :=
  ⟨[sumEquation true [0, 1] b]⟩

/-- A net without a solution for hard equations that have one: `x₀ + x₁ = 2` eliminated by
`x₀` alone. -/
theorem hardSum_unsolved : HasExactRanks .standard (hardSum 2) [0] ∧
    (∃ x, (hardSum 2).Fits x ∧ (hardSum 2).SatisfiesHard x) ∧
    ∃ net, eliminate .standard (hardSum 2) [0] = .ok net ∧ ∀ x, net.solve ≠ .ok x := by
  obtain ⟨w, hw⟩ : ∃ w, widths (hardSum 2) = .ok w := ⟨_, rfl⟩
  have hkeys : (hardSum 2).keys = [0, 1] := rfl
  have hlong : negligiblePivot ^ 2 < totalEnergy (hardOn (prepared (hardSum 2)) 0) 0 (unitAt 0) := by
    have hhard : hardOn (prepared (hardSum 2)) 0 = [sumEquation true [0, 1] 2] := rfl
    rw [hhard, totalEnergy_cons, totalEnergy_nil, energy_sumEquation, negligiblePivot]
    norm_num [unitAt]
  obtain ⟨net, hnet⟩ : ∃ net, eliminate .standard (hardSum 2) [0] = .ok net :=
    exists_eliminate_row hw rfl hlong rfl rfl
  refine ⟨hasExactRanks_one rfl hlong, ?_, net, hnet, fun x hx => ?_⟩
  · have hfits : (hardSum 2).Fits ⟨[(0, [1]), (1, [1])]⟩ := fun k hk => by
      rw [hkeys] at hk
      rcases List.mem_cons.mp hk with rfl | hk
      · exact ⟨[1], rfl, rfl⟩
      · obtain rfl := List.mem_singleton.mp hk
        exact ⟨[1], rfl, rfl⟩
    refine ⟨_, hfits, (satisfiesHard_iff hw hfits).mpr ?_⟩
    have hhard : (hardSum 2).equations.filter (fun r => r.isHard) =
        [sumEquation true [0, 1] 2] := rfl
    rw [hardEnergy_prepared, hhard, totalEnergy_cons, totalEnergy_nil, energy_sumEquation]
    norm_num [valuation, Assignment.get?]
  · have hall := (exists_solve_iff Decompositions.standard_isTriangular hnet).mp ⟨x, hx⟩
    exact absurd (hall 1 (by rw [hkeys]; decide)) (by decide)

end Elimination
end Kinodynamics
