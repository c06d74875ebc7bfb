/-
# Equations as squares

Over the reals a linear equation is what it leaves at an assignment of the variables,
row by row (`LinearEquation.defect`), and its energy is the sum of the squares. A
valuation gives every variable a number for every index, so that nothing has to be said
of sizes. The right-hand side comes with a factor `t`: at one the equation is itself, at
zero only its blocks are left.

Half the energy of the weighted equation is the error that the program computes
(`LinearEquation.error_eq`).

Key definitions: `Valuation`, `valuation`, `LinearEquation.defect`, `LinearEquation.energy`,
`totalEnergy`, `LinearSystem.SatisfiesHard`.
Key theorems: `LinearEquation.defect_weighted`, `LinearEquation.residual_eq`,
`LinearSystem.error_eq`.
-/
import Mathlib
import Kinodynamics.Gaussian.BayesNet
import Kinodynamics.Proofs.Dense.Energy
import Kinodynamics.Proofs.Elimination.Run

namespace Kinodynamics

open Finset

/-- A number for every index of every variable. -/
abbrev Valuation (κ : Type) := κ → ℕ → ℝ

/-- The entries of a solution, zero where it has none. -/
def valuation {κ : Type} [DecidableEq κ] (x : Solution κ ℝ) : Valuation κ :=
  fun k j => ((x.get? k).getD []).getD j 0

theorem valuation_of_get? {κ : Type} [DecidableEq κ] {x : Solution κ ℝ} {k : κ} {v : List ℝ}
    (h : x.get? k = some v) : valuation x k = (v.getD · 0) := by
  funext j
  rw [valuation, h]
  rfl

/-- Values with the same entries are the same. -/
theorem get?_eq_of_length_eq {κ : Type} [DecidableEq κ] {x y : Solution κ ℝ} {k : κ} {v w : List ℝ}
    (hv : x.get? k = some v) (hw : y.get? k = some w) (hlen : v.length = w.length)
    (h : ∀ j < v.length, valuation x k j = valuation y k j) : x.get? k = y.get? k := by
  rw [valuation_of_get? hv, valuation_of_get? hw] at h
  rw [hv, hw]
  refine congrArg some (List.ext_getElem hlen fun j hj hj' => ?_)
  have hval : v.getD j 0 = w.getD j 0 := h j hj
  rwa [List.getD_eq_getElem _ _ hj, List.getD_eq_getElem _ _ hj'] at hval

namespace LinearEquation

variable {κ : Type}

/-- Row `i` of `Σ Aₖ xₖ - t b`. -/
def defect (r : LinearEquation κ ℝ) (t : ℝ) (x : Valuation κ) (i : ℕ) : ℝ :=
  (r.blocks.map fun b => b.2.image (x b.1) i).sum - t * r.rhs.getD i 0

/-- The squared length of `Σ Aₖ xₖ - t b`. -/
def energy (r : LinearEquation κ ℝ) (t : ℝ) (x : Valuation κ) : ℝ :=
  ∑ i ∈ range r.rows, r.defect t x i ^ 2

theorem energy_nonneg (r : LinearEquation κ ℝ) (t : ℝ) (x : Valuation κ) : 0 ≤ r.energy t x :=
  sum_nonneg fun _ _ => sq_nonneg _

theorem energy_eq_zero_iff {r : LinearEquation κ ℝ} {t : ℝ} {x : Valuation κ} :
    r.energy t x = 0 ↔ ∀ i < r.rows, r.defect t x i = 0 := by
  rw [energy, sum_eq_zero_iff_of_nonneg fun _ _ => sq_nonneg _]
  simp

/-- What an equation has at two valuations differs by its coefficients at the difference. -/
theorem defect_add_defect_sub (r : LinearEquation κ ℝ) (t : ℝ) (x y : Valuation κ) (i : ℕ) :
    r.defect t y i + r.defect 0 (fun k j => x k j - y k j) i = r.defect t x i := by
  have himage : ∀ b : κ × Dense ℝ, b.2.image (y b.1) i + b.2.image (fun j => x b.1 j - y b.1 j) i =
      b.2.image (x b.1) i := fun b => by
    rw [← Dense.image_add]
    exact b.2.image_congr (fun j _ => add_sub_cancel _ _) i
  rw [defect, defect, defect, zero_mul, sub_zero, sub_add_eq_add_sub, ← List.sum_map_add]
  simp only [himage]

/-- An equation without blocks has the same energy everywhere. -/
theorem energy_of_keys_eq_nil {r : LinearEquation κ ℝ} (h : r.keys = []) (t : ℝ)
    (x y : Valuation κ) : r.energy t x = r.energy t y := by
  have hblocks : r.blocks = [] := List.map_eq_nil_iff.mp h
  simp only [energy, defect, hblocks, List.map_nil]

/-! ### Weights -/

theorem image_weighRows (noise : Noise ℝ) (a : Dense ℝ) (v : ℕ → ℝ) {i : ℕ} (hi : i < noise.dim) :
    (noise.weighRows a).image v i = noise.weights.getD i 0 * a.image v i := by
  have hlen : noise.weights.length = noise.dim := noise.length_weights
  rw [Noise.weighRows, Dense.image_mul _ _ (by rwa [← hlen] at hi)]
  calc (Dense.diagonal noise.weights).image (a.image v) i
      = ∑ j ∈ range noise.weights.length,
          (if i = j then noise.weights.getD i 0 else 0) * a.image v j := by
        refine sum_congr rfl fun j hj => ?_
        rw [Dense.diagonal, Dense.entry_ofFn_of_lt _ (by rwa [hlen]) (mem_range.mp hj)]
    _ = noise.weights.getD i 0 * a.image v i := by
        simp [hlen, hi]

theorem getD_weigh (noise : Noise ℝ) {residual : List ℝ} (hlen : noise.dim = residual.length)
    {i : ℕ} (hi : i < noise.dim) :
    (noise.weigh residual).getD i 0 = noise.weights.getD i 0 * residual.getD i 0 := by
  have hw : i < noise.weights.length := by rwa [noise.length_weights]
  have hr : i < residual.length := hlen ▸ hi
  rw [Noise.weigh, Scalar.getD_zipWith _ hr hw, mul_comm]

/-- **Weighting multiplies each row by its weight.** -/
theorem defect_weighted (r : LinearEquation κ ℝ) (t : ℝ) (x : Valuation κ) {i : ℕ}
    (hi : i < r.rows) : r.weighted.defect t x i = r.noise.weights.getD i 0 * r.defect t x i := by
  have hdim : i < r.noise.dim := r.noise_dim ▸ hi
  have hblocks : (r.weighted.blocks.map fun b => b.2.image (x b.1) i).sum =
      r.noise.weights.getD i 0 * (r.blocks.map fun b => b.2.image (x b.1) i).sum := by
    rw [← List.sum_map_mul_left]
    simp only [weighted, List.map_map]
    exact congrArg List.sum (List.map_congr_left fun b _ => image_weighRows _ _ _ hdim)
  rw [defect, hblocks, show r.weighted.rhs = r.noise.weigh r.rhs from rfl,
    getD_weigh _ r.noise_dim hdim, defect]
  ring

theorem isHard_weighted (r : LinearEquation κ ℝ) : r.weighted.isHard = false := rfl

theorem energy_weighted (r : LinearEquation κ ℝ) (t : ℝ) (x : Valuation κ) :
    r.weighted.energy t x =
      ∑ i ∈ range r.rows, (r.noise.weights.getD i 0 * r.defect t x i) ^ 2 := by
  rw [energy, rows_weighted]
  exact sum_congr rfl fun i hi => by rw [r.defect_weighted t x (mem_range.mp hi)]

/-! ### What the program computes -/

variable [DecidableEq κ]

theorem getD_mulVec (a : Dense ℝ) (v : List ℝ) {i : ℕ} (hi : i < a.nrows) :
    (a.mulVec v).getD i 0 = a.image (v.getD · 0) i := by
  simp only [Dense.mulVec, Dense.image, ← Scalar.sumRange_eq_sum]
  simp [List.getD_eq_getElem?_getD, hi]

/-- One block added to the residual. -/
def addBlock {α : Type} [Scalar α] (x : Solution κ α) (sum : List α) (b : κ × Dense α) :
    Except (EliminationError κ) (List α) :=
  match x.get? b.1 with
  | none => .error (.missingSolution b.1)
  | some value =>
    if value.length = b.2.ncols then .ok (List.zipWith (· + ·) sum (b.2.mulVec value))
    else .error (.mismatch (.value b.1 value.length b.2.ncols))

theorem residual_eq_foldlM {α : Type} [Scalar α] (r : LinearEquation κ α) (x : Solution κ α) :
    r.residual x = r.blocks.foldlM (addBlock x) (r.rhs.map (- ·)) := rfl

/-- Blocks added one after another. -/
theorem foldlM_addBlock {x : Solution κ ℝ} {n : ℕ} :
    ∀ {blocks : List (κ × Dense ℝ)} {sum : List ℝ}, sum.length = n →
      (∀ b ∈ blocks, b.2.nrows = n ∧ ∃ v, x.get? b.1 = some v ∧ v.length = b.2.ncols) →
      ∃ total, blocks.foldlM (addBlock x) sum = .ok total ∧ total.length = n ∧
        ∀ i < n, total.getD i 0 =
          sum.getD i 0 + (blocks.map fun b => b.2.image (valuation x b.1) i).sum
  | [], sum, hn, _ => ⟨sum, rfl, hn, by simp⟩
  | b :: blocks, sum, hn, h => by
    obtain ⟨hrows, v, hv, hlen⟩ := h b List.mem_cons_self
    have hmoved : (List.zipWith (· + ·) sum (b.2.mulVec v)).length = n := by
      rw [List.length_zipWith, Dense.length_mulVec, hn, hrows, Nat.min_self]
    obtain ⟨total, htotal, hlen', hget⟩ := foldlM_addBlock hmoved
      fun b' hb' => h b' (List.mem_cons_of_mem _ hb')
    refine ⟨total, ?_, hlen', fun i hi => ?_⟩
    · have hstep : addBlock x sum b = .ok (List.zipWith (· + ·) sum (b.2.mulVec v)) := by
        simp only [addBlock, hv, if_pos hlen]
      rw [List.foldlM_cons, hstep]
      exact htotal
    · have hsum : i < sum.length := hn ▸ hi
      have hprod : i < (b.2.mulVec v).length := by rw [Dense.length_mulVec, hrows]; exact hi
      rw [hget i hi, Scalar.getD_zipWith _ hsum hprod, getD_mulVec _ _ (hrows ▸ hi), List.map_cons,
        List.sum_cons, valuation_of_get? hv, add_assoc]

/-- **The residual that the program computes** is the defect, row by row. -/
theorem residual_eq {r : LinearEquation κ ℝ} {x : Solution κ ℝ}
    (h : ∀ b ∈ r.blocks, ∃ v, x.get? b.1 = some v ∧ v.length = b.2.ncols) :
    ∃ residual, r.residual x = .ok residual ∧ residual.length = r.rows ∧
      ∀ i < r.rows, residual.getD i 0 = r.defect 1 (valuation x) i := by
  have hstart : (r.rhs.map (- ·)).length = r.rows := List.length_map _
  obtain ⟨total, htotal, hlen, hget⟩ := foldlM_addBlock hstart
    fun b hb => ⟨r.block_nrows b hb, h b hb⟩
  rw [residual_eq_foldlM]
  refine ⟨total, htotal, hlen, fun i hi => ?_⟩
  have hi' : i < r.rhs.length := hi
  rw [hget i hi, defect, one_mul]
  simp [List.getD_eq_getElem?_getD, hi']
  ring

/-- **The error that the program computes** is half the energy of the weighted equation. -/
theorem error_eq {r : LinearEquation κ ℝ} {x : Solution κ ℝ}
    (h : ∀ b ∈ r.blocks, ∃ v, x.get? b.1 = some v ∧ v.length = b.2.ncols) :
    r.error x = .ok (1 / 2 * r.weighted.energy 1 (valuation x)) := by
  obtain ⟨residual, hresidual, hlen, hget⟩ := residual_eq h
  have hdim : r.noise.dim = residual.length := r.noise_dim.trans hlen.symm
  have hnorm : Scalar.normSq (r.noise.weigh residual) = r.weighted.energy 1 (valuation x) := by
    rw [Scalar.normSq_eq_sum, Noise.length_weigh, hdim, Nat.min_self, energy_weighted, hlen]
    refine sum_congr rfl fun i hi => ?_
    have hi := mem_range.mp hi
    rw [getD_weigh _ hdim (by rwa [hdim, hlen]), hget i hi]
  rw [error, hresidual]
  show Except.ok (0.5 * Scalar.normSq (r.noise.weigh residual)) = _
  rw [hnorm, show (0.5 : ℝ) = 1 / 2 by norm_num]

end LinearEquation

/-! ### Several equations -/

section Total

variable {κ : Type}

/-- The energies of the equations added up. -/
def totalEnergy (equations : List (LinearEquation κ ℝ)) (t : ℝ) (x : Valuation κ) : ℝ :=
  (equations.map fun r => r.energy t x).sum

@[simp] theorem totalEnergy_nil (t : ℝ) (x : Valuation κ) : totalEnergy [] t x = 0 := rfl

@[simp] theorem totalEnergy_cons (r : LinearEquation κ ℝ) (equations : List (LinearEquation κ ℝ))
    (t : ℝ) (x : Valuation κ) :
    totalEnergy (r :: equations) t x = r.energy t x + totalEnergy equations t x := rfl

theorem totalEnergy_append (a b : List (LinearEquation κ ℝ)) (t : ℝ) (x : Valuation κ) :
    totalEnergy (a ++ b) t x = totalEnergy a t x + totalEnergy b t x := by
  rw [totalEnergy, List.map_append, List.sum_append]
  rfl

theorem totalEnergy_nonneg (equations : List (LinearEquation κ ℝ)) (t : ℝ) (x : Valuation κ) :
    0 ≤ totalEnergy equations t x :=
  List.sum_nonneg fun e he => by
    obtain ⟨r, -, rfl⟩ := List.mem_map.mp he
    exact r.energy_nonneg t x

/-- Energies of nonnegative size add up to zero only if all are zero. -/
theorem totalEnergy_eq_zero_iff {equations : List (LinearEquation κ ℝ)} {t : ℝ} {x : Valuation κ} :
    totalEnergy equations t x = 0 ↔ ∀ r ∈ equations, r.energy t x = 0 := by
  induction equations with
  | nil => simp
  | cons r equations ih =>
    rw [totalEnergy_cons, add_eq_zero_iff_of_nonneg (r.energy_nonneg t x)
      (totalEnergy_nonneg equations t x), ih, List.forall_mem_cons]

/-- Where two valuations satisfy the equations, their difference is in the null space. -/
theorem totalEnergy_sub_eq_zero {equations : List (LinearEquation κ ℝ)} {t : ℝ} {x y : Valuation κ}
    (hx : totalEnergy equations t x = 0) (hy : totalEnergy equations t y = 0) :
    totalEnergy equations 0 (fun k j => x k j - y k j) = 0 := by
  rw [totalEnergy_eq_zero_iff] at hx hy ⊢
  intro r hr
  refine LinearEquation.energy_eq_zero_iff.mpr fun i hi => ?_
  have hdefect := r.defect_add_defect_sub t x y i
  rwa [LinearEquation.energy_eq_zero_iff.mp (hx r hr) i hi,
    LinearEquation.energy_eq_zero_iff.mp (hy r hr) i hi, zero_add] at hdefect

/-- Equations split by a test have their energies split. -/
theorem totalEnergy_filter (p : LinearEquation κ ℝ → Bool) (equations : List (LinearEquation κ ℝ))
    (t : ℝ) (x : Valuation κ) :
    totalEnergy equations t x = totalEnergy (equations.filter p) t x +
      totalEnergy (equations.filter fun r => !p r) t x := by
  induction equations with
  | nil => simp
  | cons r equations ih =>
    rw [totalEnergy_cons, ih]
    cases hp : p r
    · rw [List.filter_cons_of_neg (by simp [hp]), List.filter_cons_of_pos (by simp [hp]),
        totalEnergy_cons]
      ring
    · rw [List.filter_cons_of_pos hp, List.filter_cons_of_neg (by simp [hp]), totalEnergy_cons]
      ring

/-- Equations without blocks have the same energy everywhere. -/
theorem totalEnergy_of_mentioned_eq_nil {equations : List (LinearEquation κ ℝ)}
    (h : Elimination.mentioned equations = []) (t : ℝ) (x y : Valuation κ) :
    totalEnergy equations t x = totalEnergy equations t y :=
  congrArg List.sum (List.map_congr_left fun r hr =>
    LinearEquation.energy_of_keys_eq_nil (List.flatMap_eq_nil_iff.mp h r hr) t x y)

end Total

/-! ### Systems -/

namespace LinearSystem

variable {κ : Type} [DecidableEq κ]

/-- The soft equations of a system. -/
def softPart {α : Type} (s : LinearSystem κ α) : LinearSystem κ α :=
  ⟨s.equations.filter fun r => !r.isHard⟩

/-- A solution that satisfies every hard equation exactly. -/
def SatisfiesHard (s : LinearSystem κ ℝ) (x : Solution κ ℝ) : Prop :=
  ∀ r ∈ s.equations, r.isHard = true → r.residual x = .ok (List.replicate r.rows 0)

/-- **The error of a system** is half the energy of its weighted equations. -/
theorem error_eq {s : LinearSystem κ ℝ} {x : Solution κ ℝ}
    (h : ∀ r ∈ s.equations, ∀ b ∈ r.blocks, ∃ v, x.get? b.1 = some v ∧ v.length = b.2.ncols) :
    s.error x =
      .ok (1 / 2 * totalEnergy (s.equations.map LinearEquation.weighted) 1 (valuation x)) := by
  suffices hfold : ∀ (equations : List (LinearEquation κ ℝ)) (sum : ℝ),
      (∀ r ∈ equations, ∀ b ∈ r.blocks, ∃ v, x.get? b.1 = some v ∧ v.length = b.2.ncols) →
      equations.foldlM (fun sum r => do return sum + (← r.error x)) sum =
        (.ok (sum + 1 / 2 * totalEnergy (equations.map LinearEquation.weighted) 1 (valuation x)) :
          Except (EliminationError κ) ℝ) by
    rw [error, hfold _ _ h, zero_add]
  intro equations
  induction equations with
  | nil => intro sum _; simp; rfl
  | cons r equations ih =>
    intro sum hall
    have hr := r.error_eq (hall r List.mem_cons_self)
    rw [List.foldlM_cons, hr]
    refine (ih _ fun r' hr' => hall r' (List.mem_cons_of_mem _ hr')).trans ?_
    rw [List.map_cons, totalEnergy_cons]
    congr 1
    ring

end LinearSystem
end Kinodynamics
