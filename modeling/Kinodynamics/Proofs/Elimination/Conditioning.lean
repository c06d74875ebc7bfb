/-
# Elimination of well-conditioned equations

Soft equations only. If their coefficients make every valuation but zero longer than the
negligible pivot times its length, no step of a run can fail: a pivot is the length of a
product (`exists_eliminateNext_of_stretches`), and the equations that a step leaves have the
same property, since the variable taken out can be chosen so that its conditional vanishes
(`IsStep.stretches`). So a run over any list of different variables succeeds
(`exists_eliminateAll`).

Key definitions: `Elimination.squaredLength`, `Elimination.Stretches`.
Key theorems: `Elimination.exists_eliminateNext_of_stretches`, `Elimination.IsStep.stretches`,
`Elimination.exists_eliminateAll`.
-/
import Kinodynamics.Proofs.Dense.Pivots
import Kinodynamics.Proofs.Elimination.LeastSquares

namespace Kinodynamics

open Finset

namespace Elimination

variable {κ : Type}

/-! ### Lengths of valuations -/

/-- The squared length of a valuation over the entries of the variables `keys`. -/
def squaredLength (dim : κ → ℕ) (keys : List κ) (x : Valuation κ) : ℝ :=
  (keys.map fun k => ∑ j ∈ range (dim k), x k j ^ 2).sum

theorem squaredLength_cons (dim : κ → ℕ) (k : κ) (keys : List κ) (x : Valuation κ) :
    squaredLength dim (k :: keys) x = ∑ j ∈ range (dim k), x k j ^ 2 + squaredLength dim keys x :=
  rfl

theorem squaredLength_congr {dim : κ → ℕ} {keys : List κ} {x y : Valuation κ}
    (h : ∀ k ∈ keys, x k = y k) : squaredLength dim keys x = squaredLength dim keys y :=
  congrArg List.sum (List.map_congr_left fun k hk => by rw [h k hk])

theorem squaredLength_zero (dim : κ → ℕ) (keys : List κ) :
    squaredLength dim keys (fun _ _ => 0) = 0 :=
  List.sum_eq_zero fun e he => by
    obtain ⟨k, -, rfl⟩ := List.mem_map.mp he
    exact sum_eq_zero fun _ _ => zero_pow two_ne_zero

theorem squaredLength_nonneg (dim : κ → ℕ) (keys : List κ) (x : Valuation κ) :
    0 ≤ squaredLength dim keys x :=
  List.sum_nonneg (List.forall_mem_map.mpr fun _ _ => sum_nonneg fun _ _ => sq_nonneg _)

/-- Valuations whose difference has no length are the same. -/
theorem eq_of_squaredLength_sub_eq_zero {dim : κ → ℕ} {keys : List κ} {x y : Valuation κ}
    (h : squaredLength dim keys (fun k j => x k j - y k j) = 0) {k : κ} (hk : k ∈ keys) {j : ℕ}
    (hj : j < dim k) : x k j = y k j := by
  have hle : ∑ j ∈ range (dim k), (x k j - y k j) ^ 2 ≤ 0 :=
    (List.single_le_sum (List.forall_mem_map.mpr fun _ _ => sum_nonneg fun _ _ => sq_nonneg _) _
      (List.mem_map_of_mem hk)).trans_eq h
  have hsum := le_antisymm hle (sum_nonneg fun _ _ => sq_nonneg _)
  have hsq := (sum_eq_zero_iff_of_nonneg fun _ _ => sq_nonneg _).mp hsum j (mem_range.mpr hj)
  exact sub_eq_zero.mp (pow_eq_zero_iff two_ne_zero |>.mp hsq)

/-- The length does not depend on the order of the variables. -/
theorem squaredLength_perm (dim : κ → ℕ) {keys keys' : List κ} (h : keys.Perm keys')
    (x : Valuation κ) : squaredLength dim keys x = squaredLength dim keys' x :=
  (h.map _).sum_eq

/-- The coefficients of the equations make every valuation of `keys` but zero longer than
`τ` times its length. -/
def Stretches (τ : ℝ) (dim : κ → ℕ) (keys : List κ) (equations : List (LinearEquation κ ℝ)) : Prop :=
  ∀ x : Valuation κ, 0 < squaredLength dim keys x →
    τ ^ 2 * squaredLength dim keys x < totalEnergy equations 0 x

/-- Equations read the variables that they mention. -/
theorem totalEnergy_congr {equations : List (LinearEquation κ ℝ)} {t : ℝ} {x y : Valuation κ}
    (h : ∀ k ∈ mentioned equations, x k = y k) : totalEnergy equations t x = totalEnergy equations t y := by
  refine congrArg List.sum (List.map_congr_left fun r hr => sum_congr rfl fun i _ => ?_)
  rw [LinearEquation.defect, LinearEquation.defect]
  congr 3
  refine List.map_congr_left fun b hb => ?_
  rw [h b.1 (mem_mentioned.mpr ⟨r, hr, mem_keys_iff.mpr ⟨b, hb, rfl⟩⟩)]

/-- Coefficients take zero to zero. -/
theorem totalEnergy_zero (equations : List (LinearEquation κ ℝ)) :
    totalEnergy equations 0 (fun _ _ => 0) = 0 := by
  refine totalEnergy_eq_zero_iff.mpr fun r _ => LinearEquation.energy_eq_zero_iff.mpr fun i _ => ?_
  have hblocks : (r.blocks.map fun b => b.2.image (fun _ => 0) i).sum = 0 :=
    List.sum_eq_zero fun e he => by
      obtain ⟨b, -, rfl⟩ := List.mem_map.mp he
      exact sum_eq_zero fun _ _ => mul_zero _
  rw [LinearEquation.defect, hblocks, zero_mul, sub_zero]

/-! ### One step -/

variable [LinearOrder κ] {D : Decompositions ℝ} {widths : Assignment κ ℕ}
  {remaining rest : List (LinearEquation κ ℝ)} {frontal : κ} {keys : List κ} {out : StepRows ℝ}
  {hardRest softRest : List (LinearEquation κ ℝ)} {c : Conditional κ ℝ}

theorem softOn_of_soft (hsoft : ∀ r ∈ remaining, r.isHard = false) (frontal : κ) :
    softOn remaining frontal = touching remaining frontal :=
  List.filter_eq_self.mpr fun r hr => by simp [hsoft r (mem_touching.mp hr).1]

theorem frontal_notMem_untouched : frontal ∉ mentioned (untouched remaining frontal) := fun h => by
  obtain ⟨r, hr, hk⟩ := mem_mentioned.mp h
  exact (mem_untouched.mp hr).2 hk

theorem frontal_notMem_untouched_filter {p : LinearEquation κ ℝ → Bool} :
    frontal ∉ mentioned ((untouched remaining frontal).filter p) := fun h => by
  obtain ⟨r, hr, hk⟩ := mem_mentioned.mp h
  exact frontal_notMem_untouched (mem_mentioned.mpr ⟨r, List.mem_of_mem_filter hr, hk⟩)

/-- The energy of the equations that pass a test is that of their stack and of those not on the
variable. -/
theorem energy_stack_add (p : LinearEquation κ ℝ → Bool) (frontal : κ) (hfit : Fitted widths remaining)
    (x : Valuation κ) :
    (stackRows (layoutOf widths remaining frontal) ((touching remaining frontal).filter p)).energy
        (spread 0 x (layoutOf widths remaining frontal)) +
      totalEnergy ((untouched remaining frontal).filter p) 0 x = totalEnergy (remaining.filter p) 0 x := by
  rw [energy_stack hfit, ← energy_touching]

omit [LinearOrder κ] in
theorem filter_soft {equations : List (LinearEquation κ ℝ)} (h : ∀ r ∈ equations, r.isHard = false) :
    equations.filter (fun r => !r.isHard) = equations :=
  List.filter_eq_self.mpr fun r hr => by simp [h r hr]

/-- The valuation of one variable, zero at the others. -/
def only (k : κ) (v : ℕ → ℝ) : Valuation κ := fun l j => if l = k then v j else 0

theorem spread_only (v : ℕ → ℝ) (hv : ∀ j, widthOf widths frontal ≤ j → v j = 0) :
    spread 0 (only frontal v) (layoutOf widths remaining frontal) = v := by
  have hrest : ∀ l ∈ separating widths remaining frontal, ∀ j, only frontal v l.1 j = 0 := fun l hl j =>
    if_neg fun h => (mem_separating.mp (List.mem_map.mpr ⟨l, hl, rfl⟩)).1 h
  funext j
  rw [layoutOf, spread]
  split_ifs with hj
  · exact if_pos rfl
  · rw [spread_eq_zero hrest, hv j (not_lt.mp hj)]

theorem squaredLength_only (dim : κ → ℕ) (hnew : frontal ∉ keys) (v : ℕ → ℝ) :
    squaredLength dim (frontal :: keys) (only frontal v) = ∑ j ∈ range (dim frontal), v j ^ 2 := by
  have hrest : squaredLength dim keys (only frontal v) = 0 :=
    (squaredLength_congr fun k hk => funext fun j =>
      if_neg (ne_of_mem_of_not_mem hk hnew)).trans (squaredLength_zero dim keys)
  rw [squaredLength_cons, hrest, add_zero]
  exact sum_congr rfl fun j _ => by rw [only, if_pos rfl]

/-- The stack of the equations on a variable that pass a test meets a vector over its columns
as these equations meet the variable alone. -/
theorem energy_stack_only (p : LinearEquation κ ℝ → Bool) (hfit : Fitted widths remaining) {v : ℕ → ℝ}
    (hv : ∀ j, widthOf widths frontal ≤ j → v j = 0) :
    (stackRows (layoutOf widths remaining frontal) ((touching remaining frontal).filter p)).energy v =
      totalEnergy (remaining.filter p) 0 (only frontal v) := by
  have huntouched : totalEnergy ((untouched remaining frontal).filter p) 0 (only frontal v) = 0 :=
    (totalEnergy_congr fun k hk => funext fun j =>
      if_neg (ne_of_mem_of_not_mem hk frontal_notMem_untouched_filter)).trans (totalEnergy_zero _)
  have henergy := energy_stack_add p frontal hfit (only frontal v)
  rwa [spread_only v hv, huntouched, add_zero] at henergy

/-- So it stretches those columns if the equations stretch. -/
theorem Stretches.energy_stack {τ : ℝ} {p : LinearEquation κ ℝ → Bool}
    (h : Stretches τ (widthOf widths) (frontal :: keys) (remaining.filter p))
    (hfit : Fitted widths remaining) (hnew : frontal ∉ keys) {v : ℕ → ℝ}
    (hv : ∀ j, widthOf widths frontal ≤ j → v j = 0) (hne : ∃ j < widthOf widths frontal, v j ≠ 0) :
    τ ^ 2 * ∑ j ∈ range (widthOf widths frontal), v j ^ 2 <
      (stackRows (layoutOf widths remaining frontal) ((touching remaining frontal).filter p)).energy v := by
  have hpos : 0 < ∑ j ∈ range (widthOf widths frontal), v j ^ 2 := by
    obtain ⟨j, hj, hvj⟩ := hne
    exact sum_pos' (fun _ _ => sq_nonneg _) ⟨j, mem_range.mpr hj, by positivity⟩
  have hlong := h (only frontal v)
  rw [squaredLength_only (widthOf widths) hnew v, ← energy_stack_only p hfit hv] at hlong
  exact hlong hpos

omit [LinearOrder κ] in
/-- The pivots of a stack that stretches its first `n` columns pass. -/
theorem requirePivots_of_lt_energy (hD : D.IsExact) {τ : ℝ} (hτ : negligiblePivot ≤ τ) {stack : Dense ℝ}
    {n : ℕ} (hn : n ≤ stack.ncols)
    (hlong : ∀ v : ℕ → ℝ, (∀ j, n ≤ j → v j = 0) → (∃ j < n, v j ≠ 0) →
      τ ^ 2 * ∑ j ∈ range n, v j ^ 2 < stack.energy v) (key : κ) :
    requirePivots key (upperFactor D stack) n = .ok () := by
  have hupper : (upperFactor D stack).Upper := fun i j hij =>
    entry_upperFactor_below hD.toIsTriangular stack hij
  have hcols : (upperFactor D stack).ncols = stack.ncols := ncols_upperFactor hD.toIsTriangular _
  have hpivots := hupper.lt_abs_pivot (n := n) (by omega) (negligiblePivot_pos.le.trans hτ)
    fun v hv hne => by
      rw [energy_upperFactor hD]
      exact hlong v hv hne
  refine requirePivots_eq_ok_iff.mpr fun i hi => ?_
  obtain ⟨hrow, hpivot⟩ := hpivots i hi
  exact ⟨hrow, by omega, not_le.mpr (hτ.trans_lt hpivot)⟩

/-- **No step fails on equations that stretch.** -/
theorem exists_eliminateNext_of_stretches (hD : D.IsExact) (hfit : Fitted widths remaining)
    (hsoft : ∀ r ∈ remaining, r.isHard = false) (hpos : 0 < widthOf widths frontal)
    (hnew : frontal ∉ keys)
    (h : Stretches negligiblePivot (widthOf widths) (frontal :: keys) remaining) :
    ∃ c rest, eliminateNext D widths remaining frontal = .ok (c, rest) := by
  have hpivots : requirePivots frontal (upperFactor D (softStack widths remaining frontal))
      (widthOf widths frontal) = .ok () := by
    refine requirePivots_of_lt_energy hD le_rfl ?_ (fun v hv hne => ?_) frontal
    · exact (Nat.le_add_right _ _).trans (Nat.le_succ _)
    · rw [← filter_soft hsoft] at h
      exact h.energy_stack hfit hnew hv hne
  have hrows : widthOf widths frontal ≤ totalRows (touching remaining frontal) := by
    have hle := le_nrows_of_requirePivots hpivots
    rw [nrows_upperFactor hD.toIsTriangular, softStack, nrows_stackRows, softOn_of_soft hsoft] at hle
    exact hle.trans (min_le_left _ _)
  refine exists_eliminateNext (fun hnil => ?_) hrows ?_
  · rw [hnil, totalRows] at hrows
    omega
  · rw [reduced, hardOn_of_soft hsoft, List.isEmpty_nil, if_pos rfl]
    exact ⟨_, stepSoft_eq_ok_iff.mpr ⟨hpivots, rfl⟩⟩

omit [LinearOrder κ] in
/-- The rows of a conditional vanish for some choice of the variable taken out, whatever the
others are. -/
theorem exists_energy_splitBelow_eq_zero (hD : D.IsExact) {key : κ} {stack : Dense ℝ} {n tail : ℕ}
    (hcols : stack.ncols = n + tail) (hpivots : requirePivots key (upperFactor D stack) n = .ok ())
    (u : ℕ → ℝ) : ∃ v, (splitBelow (upperFactor D stack) n).1.energy (glue n v u) = 0 := by
  set factor := upperFactor D stack with hfactor
  have hfactorCols : factor.ncols = n + tail := (ncols_upperFactor hD.toIsTriangular stack).trans hcols
  have hupper : factor.Upper := fun i j hij => entry_upperFactor_below hD.toIsTriangular stack hij
  have hdiag : ∀ i < n, factor.entry i i ≠ 0 := fun i hi h0 => by
    obtain ⟨-, -, hpivot⟩ := requirePivots_eq_ok_iff.mp hpivots i hi
    rw [h0] at hpivot
    exact hpivot (abs_zero.trans_le negligiblePivot_pos.le)
  obtain ⟨v, htail, hzero⟩ := hupper.exists_image_eq (by omega) hdiag (glue n (fun _ => 0) u) fun _ => 0
  have hv : glue n v u = v := funext fun j => by
    by_cases hj : j < n
    · exact glue_of_lt _ _ hj
    · rw [htail j (not_lt.mp hj), glue, glue, if_neg hj, if_neg hj]
  refine ⟨v, Dense.energy_eq_zero_iff.mpr fun i hi => ?_⟩
  have hi : i < n := hi
  have hrow : (splitBelow factor n).1.image v i = factor.image v i := by
    show (factor.view 0 0 n factor.ncols).image v i = _
    rw [Dense.image_view _ hi]
    simp only [Nat.zero_add]
    rfl
  rw [hv, hrow, hzero i hi]

/-- The valuation `y` with another value of the frontal variable, over the layout of a step. -/
theorem spread_update (y : Valuation κ) (v : ℕ → ℝ) :
    spread 0 (Function.update y frontal v) (layoutOf widths remaining frontal) =
      glue (widthOf widths frontal) v (spread 0 y (separating widths remaining frontal)) := by
  have hothers : spread 0 (Function.update y frontal v) (separating widths remaining frontal) =
      spread 0 y (separating widths remaining frontal) := spread_congr fun l hl =>
    Function.update_of_ne (mem_separating.mp (List.mem_map.mpr ⟨l, hl, rfl⟩)).1 _ _
  funext j
  by_cases hj : j < widthOf widths frontal
  · rw [glue_of_lt _ _ hj, layoutOf, spread_cons_of_lt _ _ _ _ hj, Function.update_self]
  · obtain ⟨j, rfl⟩ := Nat.exists_eq_add_of_le (not_lt.mp hj)
    rw [glue_add, layoutOf, spread_cons_add, hothers]

/-- Whatever values the other variables have, the variable taken out has a value at which the
coefficients have the energy of the equations left. -/
theorem IsStep.exists_energy_eq (hD : D.IsExact) (hfit : Fitted widths remaining)
    (hsoft : ∀ r ∈ remaining, r.isHard = false)
    (h : IsStep D widths remaining frontal out hardRest softRest c rest) (y : Valuation κ) :
    ∃ x : Valuation κ, (∀ k, k ≠ frontal → x k = y k) ∧
      totalEnergy remaining 0 x = totalEnergy rest 0 y := by
  set n := widthOf widths frontal
  set sep := separating widths remaining frontal
  set stack := softStack widths remaining frontal
  have hcols : stack.ncols = n + (width sep + 1) := Nat.add_assoc _ _ _
  obtain ⟨hpivots, hout⟩ := stepSoft_eq_ok_iff.mp (h.stepSoft_eq hsoft)
  obtain ⟨v, hv⟩ := exists_energy_splitBelow_eq_zero hD hcols hpivots (spread 0 y sep)
  have hx : ∀ k, k ≠ frontal → Function.update y frontal v k = y k := fun k hk =>
    Function.update_of_ne hk _ _
  have hrows : out.soft = (splitBelow (upperFactor D stack) n).2 := by rw [hout]
  have hrest : totalEnergy softRest 0 y =
      (splitBelow (upperFactor D stack) n).2.energy (spread 0 y sep) := by
    rw [← hrows]
    refine h.isSoftRest.totalEnergy_zero_eq ?_ y
    have hfactor : (upperFactor D stack).ncols = n + (width sep + 1) :=
      (ncols_upperFactor hD.toIsTriangular stack).trans hcols
    rw [hrows]
    show (upperFactor D stack).ncols - n = width sep + 1
    rw [hfactor, Nat.add_sub_cancel_left]
  refine ⟨Function.update y frontal v, hx, ?_⟩
  calc totalEnergy remaining 0 (Function.update y frontal v)
      = stack.energy (glue n v (spread 0 y sep)) +
          totalEnergy (untouched remaining frontal) 0 (Function.update y frontal v) := by
        have henergy := energy_stack_add (fun r => !r.isHard) frontal hfit (Function.update y frontal v)
        rw [filter_soft hsoft, filter_soft fun r hr => hsoft r (mem_untouched.mp hr).1,
          spread_update] at henergy
        exact henergy.symm
    _ = totalEnergy softRest 0 y + totalEnergy (untouched remaining frontal) 0 y := by
        rw [energy_splitBelow hD hcols hpivots, hv, zero_add, ← hrest]
        congr 1
        exact totalEnergy_congr fun k hk => hx k (ne_of_mem_of_not_mem hk frontal_notMem_untouched)
    _ = totalEnergy rest 0 y := by
        rw [h.rest_eq, h.hardRest_eq_nil hsoft, List.nil_append, totalEnergy_append, add_comm]

/-- **The equations that a step leaves stretch as much.** -/
theorem IsStep.stretches {τ : ℝ} (hD : D.IsExact) (hfit : Fitted widths remaining)
    (hsoft : ∀ r ∈ remaining, r.isHard = false) (hnew : frontal ∉ keys)
    (h : IsStep D widths remaining frontal out hardRest softRest c rest)
    (hlong : Stretches τ (widthOf widths) (frontal :: keys) remaining) :
    Stretches τ (widthOf widths) keys rest := by
  intro y hy
  obtain ⟨x, hx, henergy⟩ := h.exists_energy_eq hD hfit hsoft y
  have hkeys : squaredLength (widthOf widths) keys x = squaredLength (widthOf widths) keys y :=
    squaredLength_congr fun k hk => hx k (ne_of_mem_of_not_mem hk hnew)
  have hle : squaredLength (widthOf widths) keys y ≤ squaredLength (widthOf widths) (frontal :: keys) x := by
    rw [squaredLength_cons, hkeys]
    exact le_add_of_nonneg_left (sum_nonneg fun _ _ => sq_nonneg _)
  calc τ ^ 2 * squaredLength (widthOf widths) keys y
      ≤ τ ^ 2 * squaredLength (widthOf widths) (frontal :: keys) x :=
        mul_le_mul_of_nonneg_left hle (sq_nonneg τ)
    _ < totalEnergy remaining 0 x := hlong x (hy.trans_le hle)
    _ = totalEnergy rest 0 y := henergy

/-! ### The run -/

/-- **No run fails on equations that stretch**, by induction on the ordering. -/
theorem exists_eliminateAll (hD : D.IsExact) : ∀ {ordering : List κ}
    {remaining : List (LinearEquation κ ℝ)}, Fitted widths remaining →
      (∀ r ∈ remaining, r.isHard = false) → (∀ k ∈ ordering, 0 < widthOf widths k) →
      ordering.Nodup → Stretches negligiblePivot (widthOf widths) ordering remaining →
      ∃ conditionals final, eliminateAll D widths ordering remaining = .ok (conditionals, final)
  | [], remaining, _, _, _, _, _ => ⟨[], remaining, rfl⟩
  | frontal :: ordering, remaining, hfit, hsoft, hpos, hnodup, hlong => by
    obtain ⟨hnew, hnodup⟩ := List.nodup_cons.mp hnodup
    obtain ⟨c, rest, hnext⟩ := exists_eliminateNext_of_stretches hD hfit hsoft
      (hpos frontal List.mem_cons_self) hnew hlong
    obtain ⟨out, hardRest, softRest, hstep⟩ := isStep_of_eliminateNext hnext
    obtain ⟨conditionals, final, hrun⟩ := exists_eliminateAll hD (hstep.fitted hfit)
      (hstep.soft_rest hsoft) (fun k hk => hpos k (List.mem_cons_of_mem _ hk)) hnodup
      (hstep.stretches hD hfit hsoft hnew hlong)
    refine ⟨c :: conditionals, final, ?_⟩
    rw [eliminateAll, hnext]
    show (eliminateAll D widths ordering rest >>= _) = _
    rw [hrun]
    rfl

end Elimination
end Kinodynamics
