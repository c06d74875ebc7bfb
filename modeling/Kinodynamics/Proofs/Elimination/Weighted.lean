/-
# Elimination of weighted equations

If the weights of all equations are multiplied into their rows, hard or not, no equation is
hard any more. Elimination then minimises the error of the system as a whole, in which a
hard equation counts with the weight of the nonlinear cost, and nothing makes it hold: the
solution satisfies the hard equations just if they hold somewhere where the soft equations
are already at their least (`error_of_eliminate_weighted`).

The reason is that a hard equation which holds has no slope there. If the solution
satisfies them all, moving away from it along a segment costs their weight only to second
order, so the soft error cannot fall to first order, and since it is convex it cannot fall
at all (`softEnergy_le_of_hardEnergy_eq_zero`).

Key definitions: `LinearSystem.weighted`, `LinearSystem.HasLeastError`.
Key theorems: `Elimination.totalEnergy_weighted`,
`Elimination.softEnergy_le_of_hardEnergy_eq_zero`, `Elimination.error_of_eliminate_weighted`.
-/
import Kinodynamics.Proofs.Elimination.LeastSquares

namespace Kinodynamics

open Finset

variable {κ : Type}

/-! ### Segments -/

/-- The valuation at `ε` on the way from `x` to `y`. -/
def Valuation.segment (x y : Valuation κ) (ε : ℝ) : Valuation κ :=
  fun k j => (1 - ε) * x k j + ε * y k j

namespace LinearEquation

/-- Defects are affine. -/
theorem defect_segment (r : LinearEquation κ ℝ) (t : ℝ) (x y : Valuation κ) (ε : ℝ) (i : ℕ) :
    r.defect t (x.segment y ε) i = (1 - ε) * r.defect t x i + ε * r.defect t y i := by
  have himage : ∀ b : κ × Dense ℝ, b.2.image (x.segment y ε b.1) i =
      (1 - ε) * b.2.image (x b.1) i + ε * b.2.image (y b.1) i := fun b => by
    simp only [Dense.image, Valuation.segment, mul_sum, ← sum_add_distrib]
    exact sum_congr rfl fun j _ => by ring
  simp only [defect, himage, List.sum_map_add, List.sum_map_mul_left]
  ring

/-- Energies are convex. -/
theorem energy_segment_le (r : LinearEquation κ ℝ) (t : ℝ) (x y : Valuation κ) {ε : ℝ} (h0 : 0 ≤ ε)
    (h1 : ε ≤ 1) :
    r.energy t (x.segment y ε) ≤ (1 - ε) * r.energy t x + ε * r.energy t y := by
  rw [energy, energy, energy, mul_sum, mul_sum, ← sum_add_distrib]
  refine sum_le_sum fun i _ => ?_
  rw [defect_segment]
  have hgap : (1 - ε) * r.defect t x i ^ 2 + ε * r.defect t y i ^ 2 -
      ((1 - ε) * r.defect t x i + ε * r.defect t y i) ^ 2 =
      ε * (1 - ε) * (r.defect t x i - r.defect t y i) ^ 2 := by ring
  have hpos : 0 ≤ ε * (1 - ε) * (r.defect t x i - r.defect t y i) ^ 2 :=
    mul_nonneg (mul_nonneg h0 (sub_nonneg.mpr h1)) (sq_nonneg _)
  linarith

/-- From where it is zero an energy grows with the square of the distance. -/
theorem energy_segment_of_eq_zero {r : LinearEquation κ ℝ} {t : ℝ} {x : Valuation κ}
    (hx : r.energy t x = 0) (y : Valuation κ) (ε : ℝ) :
    r.energy t (x.segment y ε) = ε ^ 2 * r.energy t y := by
  rw [energy, energy, mul_sum]
  refine sum_congr rfl fun i hi => ?_
  rw [defect_segment, energy_eq_zero_iff.mp hx i (mem_range.mp hi), mul_zero, zero_add, mul_pow]

end LinearEquation

theorem totalEnergy_segment_le {equations : List (LinearEquation κ ℝ)} {t : ℝ} (x y : Valuation κ)
    {ε : ℝ} (h0 : 0 ≤ ε) (h1 : ε ≤ 1) :
    totalEnergy equations t (x.segment y ε) ≤
      (1 - ε) * totalEnergy equations t x + ε * totalEnergy equations t y := by
  induction equations with
  | nil => simp
  | cons r equations ih =>
    rw [totalEnergy_cons, totalEnergy_cons, totalEnergy_cons, mul_add, mul_add]
    linarith [r.energy_segment_le t x y h0 h1]

theorem totalEnergy_segment_of_eq_zero {equations : List (LinearEquation κ ℝ)} {t : ℝ}
    {x : Valuation κ} (hx : totalEnergy equations t x = 0) (y : Valuation κ) (ε : ℝ) :
    totalEnergy equations t (x.segment y ε) = ε ^ 2 * totalEnergy equations t y := by
  rw [totalEnergy_eq_zero_iff] at hx
  induction equations with
  | nil => simp
  | cons r equations ih =>
    rw [totalEnergy_cons, totalEnergy_cons, mul_add,
      LinearEquation.energy_segment_of_eq_zero (hx r List.mem_cons_self),
      ih fun r' hr' => hx r' (List.mem_cons_of_mem _ hr')]

/-! ### Weights on every equation -/

namespace LinearEquation

variable {r : LinearEquation κ ℝ}

/-- A weighted equation has the weight one. -/
theorem energy_weighted_weighted (r : LinearEquation κ ℝ) (t : ℝ) (x : Valuation κ) :
    r.weighted.weighted.energy t x = r.weighted.energy t x := by
  rw [r.weighted.energy_weighted, energy]
  refine sum_congr rfl fun i hi => ?_
  have hi' : i < r.rhs.length := by
    have := mem_range.mp hi
    rwa [rows_weighted] at this
  have hweight : r.weighted.noise.weights.getD i 0 = 1 := List.getD_replicate _ hi'
  rw [hweight, one_mul]

/-- All rows of a hard equation have the one weight. -/
theorem energy_weighted_of_isHard (h : r.isHard = true) (t : ℝ) (x : Valuation κ) :
    r.weighted.energy t x = Noise.hardWeight ^ 2 * r.energy t x := by
  obtain ⟨dim, hnoise⟩ : ∃ dim, r.noise = .constrained dim := by
    rw [isHard] at h
    cases hnoise : r.noise with
    | constrained dim => exact ⟨dim, rfl⟩
    | _ => rw [hnoise] at h; cases h
  have hdim : dim = r.rows := by
    rw [rows, ← r.noise_dim, hnoise]
    rfl
  rw [r.energy_weighted, energy, mul_sum]
  refine sum_congr rfl fun i hi => ?_
  have hweight : r.noise.weights.getD i 0 = Noise.hardWeight := by
    rw [hnoise]
    exact List.getD_replicate _ (hdim ▸ mem_range.mp hi)
  rw [hweight, mul_pow]

end LinearEquation

namespace LinearSystem

section

variable {α : Type} [Scalar α]

/-- The system with the weights of its equations, hard or not, multiplied into their rows. -/
def weighted (s : LinearSystem κ α) : LinearSystem κ α := ⟨s.equations.map LinearEquation.weighted⟩

theorem isHard_weighted (s : LinearSystem κ α) : ∀ r ∈ s.weighted.equations, r.isHard = false := by
  intro r hr
  obtain ⟨r, -, rfl⟩ := List.mem_map.mp hr
  rfl

variable [DecidableEq κ] (s : LinearSystem κ α)

theorem keys_weighted : s.weighted.keys = s.keys := by
  have hkeys : s.weighted.equations.flatMap LinearEquation.keys =
      s.equations.flatMap LinearEquation.keys := by
    simp only [weighted, List.flatMap_map, Elimination.keys_weighted]
  rw [keys, keys, hkeys]

theorem dim_weighted (key : κ) : s.weighted.dim key = s.dim key := by
  -- the number of entries is read off the keys and widths of the blocks alone
  have hread : ∀ s : LinearSystem κ α, s.dim key =
      ((((s.equations.flatMap LinearEquation.blocks).map fun b => (b.1, b.2.ncols)).find?
        fun b => b.1 = key).map Prod.snd).getD 0 := fun s => by
    rw [dim, List.find?_map, Option.map_map]
    rfl
  have hsizes : (s.weighted.equations.flatMap LinearEquation.blocks).map (fun b => (b.1, b.2.ncols)) =
      (s.equations.flatMap LinearEquation.blocks).map fun b => (b.1, b.2.ncols) := by
    simp only [weighted, List.flatMap_map, List.map_flatMap, LinearEquation.weighted, List.map_map]
    rfl
  rw [hread, hread, hsizes]

theorem fits_weighted {x : Solution κ α} : s.weighted.Fits x ↔ s.Fits x := by
  simp only [Fits, keys_weighted, dim_weighted]

end

/-- Of the solutions with a property, `x` has the least error. -/
def HasLeastError [DecidableEq κ] (s : LinearSystem κ ℝ) (p : Solution κ ℝ → Prop)
    (x : Solution κ ℝ) : Prop :=
  ∃ least, s.error x = .ok least ∧ ∀ y, p y → ∃ e, s.error y = .ok e ∧ least ≤ e

end LinearSystem

namespace Elimination

/-- The weighted energy of a system counts the hard equations with the weight of the cost. -/
theorem totalEnergy_weighted (s : LinearSystem κ ℝ) (x : Valuation κ) :
    totalEnergy s.weighted.equations 1 x =
      Noise.hardWeight ^ 2 * hardEnergy (prepared s) x + softEnergy (prepared s) x := by
  rw [hardEnergy_prepared, softEnergy_prepared, LinearSystem.weighted, LinearSystem.softPart]
  simp only
  induction s.equations with
  | nil => simp
  | cons r equations ih =>
    rw [List.map_cons, totalEnergy_cons, ih]
    cases hr : r.isHard
    · rw [List.filter_cons_of_neg (by simp [hr]), List.filter_cons_of_pos (by simp [hr]),
        List.map_cons, totalEnergy_cons]
      ring
    · rw [List.filter_cons_of_pos hr, List.filter_cons_of_neg (by simp [hr]), totalEnergy_cons,
        LinearEquation.energy_weighted_of_isHard hr]
      ring

/-- Weighting twice changes nothing. -/
theorem softEnergy_prepared_weighted (s : LinearSystem κ ℝ) (x : Valuation κ) :
    softEnergy (prepared s.weighted) x = totalEnergy s.weighted.equations 1 x := by
  rw [softEnergy_prepared, softPart_eq_self s.isHard_weighted, LinearSystem.weighted, List.map_map]
  simp only [totalEnergy, List.map_map]
  exact congrArg List.sum (List.map_congr_left fun r _ => r.energy_weighted_weighted 1 x)

/-- **Hard equations that hold where the weighted energy is least leave the soft energy at its
least.** -/
theorem softEnergy_le_of_hardEnergy_eq_zero {s : LinearSystem κ ℝ} {x : Valuation κ}
    (hleast : ∀ y, totalEnergy s.weighted.equations 1 x ≤ totalEnergy s.weighted.equations 1 y)
    (hx : hardEnergy (prepared s) x = 0) (y : Valuation κ) :
    softEnergy (prepared s) x ≤ softEnergy (prepared s) y := by
  set W : ℝ := Noise.hardWeight ^ 2 * hardEnergy (prepared s) y with hW
  have hW0 : 0 ≤ W := mul_nonneg (sq_nonneg _) (hardEnergy_nonneg _ _)
  -- on the segment to `y` the hard equations are felt to second order only
  have hfelt : ∀ ε : ℝ, 0 < ε → ε ≤ 1 →
      softEnergy (prepared s) x ≤ ε * W + softEnergy (prepared s) y := by
    intro ε hε hε1
    have hmoved := hleast (x.segment y ε)
    rw [totalEnergy_weighted, totalEnergy_weighted, hx, mul_zero, zero_add,
      show hardEnergy (prepared s) (x.segment y ε) = ε ^ 2 * hardEnergy (prepared s) y from
        totalEnergy_segment_of_eq_zero hx y ε] at hmoved
    have hconvex : softEnergy (prepared s) (x.segment y ε) ≤
        (1 - ε) * softEnergy (prepared s) x + ε * softEnergy (prepared s) y :=
      totalEnergy_segment_le x y hε.le hε1
    have hscaled : ε * softEnergy (prepared s) x ≤ ε * (ε * W + softEnergy (prepared s) y) := by
      rw [hW]
      linarith
    exact le_of_mul_le_mul_left hscaled hε
  by_contra hlt
  set d : ℝ := softEnergy (prepared s) x - softEnergy (prepared s) y with hd
  have hd0 : 0 < d := sub_pos.mpr (not_le.mp hlt)
  have hsum : 0 < d + W := by linarith
  have hshort := hfelt (d / (d + W)) (div_pos hd0 hsum)
    ((div_le_one hsum).mpr (le_add_of_nonneg_right hW0))
  have hsmall : d / (d + W) * W < d := by
    rw [div_mul_eq_mul_div, div_lt_iff₀ hsum]
    nlinarith
  linarith

variable [LinearOrder κ] {D : Decompositions ℝ} {s : LinearSystem κ ℝ} {ordering : List κ}
  {net : BayesNet κ ℝ}

/-- Widths that are listed for the weighted system can be listed for the system. -/
theorem exists_widths_of_weighted {w : Assignment κ ℕ} (hw : widths s.weighted = .ok w) :
    ∃ w', widths s = .ok w' := by
  have hfit : Fitted w s.equations := fun r hr b hb =>
    (widths_eq_ok hw).1 r.weighted (List.mem_map_of_mem hr) (b.1, r.noise.weighRows b.2)
      (List.mem_map_of_mem hb)
  exact exists_widths (consistent_of_fitted hfit)

/-- The errors of a system and of the weighted one are the same. -/
theorem error_weighted {w : Assignment κ ℕ} (hw : widths s.weighted = .ok w) {x : Solution κ ℝ}
    (hx : s.Fits x) : s.weighted.error x = s.error x := by
  obtain ⟨w', hw'⟩ := exists_widths_of_weighted hw
  rw [LinearSystem.error_eq fun r hr b hb => exists_get?_of_fits hw (s.fits_weighted.mpr hx) hr hb,
    LinearSystem.error_eq fun r hr b hb => exists_get?_of_fits hw' hx hr hb]
  have henergy := softEnergy_prepared_weighted s (valuation x)
  rw [softEnergy_prepared, softPart_eq_self s.isHard_weighted] at henergy
  rw [henergy]
  rfl

/-- At the solution of the net the weighted energy is the least there is. -/
theorem totalEnergy_solution_le (hD : D.IsExact) (h : eliminate D s.weighted ordering = .ok net)
    {x : Solution κ ℝ} (hx : net.solve = .ok x) (y : Valuation κ) :
    totalEnergy s.weighted.equations 1 (valuation x) ≤ totalEnergy s.weighted.equations 1 y := by
  have hprepared := isHard_prepared_of_soft s.isHard_weighted
  have hhard := hardEnergy_of_soft hprepared
  obtain ⟨c, -, hvalue, -⟩ := exists_value hD h (fun _ _ => exactRanks_of_soft hprepared)
    ⟨fun _ _ => 0, hhard _⟩
  rw [← softEnergy_prepared_weighted, ← softEnergy_prepared_weighted, hvalue _ (hhard _),
    hvalue _ (hhard _), energy_solution hD.toIsTriangular h hx]
  linarith [BayesNet.energy_nonneg net.conditionals y]

/-- **Elimination of a weighted system minimises the weighted error.** The solution of the net
is the only one with the least error. It satisfies the hard equations just if some solution
satisfies them that has the least soft error of all, hard equations or not. -/
theorem error_of_eliminate_weighted (hD : D.IsExact)
    (h : eliminate D s.weighted ordering = .ok net) {x : Solution κ ℝ} (hx : net.solve = .ok x) :
    s.Fits x ∧ s.HasLeastError s.Fits x ∧
      (∀ y, s.Fits y → s.error y = s.error x → ∀ k ∈ s.keys, y.get? k = x.get? k) ∧
      (s.SatisfiesHard x ↔
        ∃ y, s.Fits y ∧ s.SatisfiesHard y ∧ s.softPart.HasLeastError s.Fits y) := by
  obtain ⟨w, -, hw, -, -⟩ := eliminate_eq_ok_iff.mp h
  obtain ⟨w', hw'⟩ := exists_widths_of_weighted hw
  obtain ⟨c, -, -, -, hsolution⟩ := error_of_eliminate_soft hD s.isHard_weighted h
  obtain ⟨hfits, herror, hleast⟩ := hsolution x hx
  have hxfits := s.fits_weighted.mp hfits
  rw [error_weighted hw hxfits] at herror
  have hmin := totalEnergy_solution_le hD h hx
  refine ⟨hxfits, ⟨c, herror, fun y hy => ?_⟩, fun y hy heq k hk => ?_, ?_, ?_⟩
  · obtain ⟨e, he, hle, -⟩ := hleast y (s.fits_weighted.mpr hy)
    exact ⟨e, error_weighted hw hy ▸ he, hle⟩
  · obtain ⟨e, he, -, hunique⟩ := hleast y (s.fits_weighted.mpr hy)
    rw [error_weighted hw hy, heq, herror] at he
    exact hunique (Except.ok.inj he).symm k (s.keys_weighted ▸ hk)
  · intro hsat
    have hzero := (satisfiesHard_iff hw' hxfits).mp hsat
    refine ⟨x, hxfits, hsat, _, error_softPart hw' hxfits, fun y hy =>
      ⟨_, error_softPart hw' hy, ?_⟩⟩
    linarith [softEnergy_le_of_hardEnergy_eq_zero hmin hzero (valuation y)]
  · rintro ⟨y, hy, hsat, least, hleast, hall⟩
    obtain ⟨e, he, hle⟩ := hall x hxfits
    rw [error_softPart hw' hy] at hleast
    rw [error_softPart hw' hxfits] at he
    rw [← Except.ok.inj hleast, ← Except.ok.inj he] at hle
    have hyzero := (satisfiesHard_iff hw' hy).mp hsat
    have hbound := hmin (valuation y)
    rw [totalEnergy_weighted, totalEnergy_weighted, hyzero] at hbound
    have hweight : (0 : ℝ) < Noise.hardWeight ^ 2 := by norm_num [Noise.hardWeight]
    refine (satisfiesHard_iff hw' hxfits).mpr (le_antisymm ?_ (hardEnergy_nonneg _ _))
    have hle' : Noise.hardWeight ^ 2 * hardEnergy (prepared s) (valuation x) ≤
        Noise.hardWeight ^ 2 * 0 := by linarith
    exact le_of_mul_le_mul_left hle' hweight

end Elimination
end Kinodynamics
