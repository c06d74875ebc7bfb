/-
# What linearisation hands to elimination

The first-order model of a relation is the equation `J δ = -r` with the noise of the
relation, so that it is hard where the relation is. What `Relation.linearize` returns is
that equation with its weights multiplied into its rows, those of a hard relation too, and
with no noise left (`Relation.exists_firstOrder_of_linearize`). Elimination then sees soft
equations only. The step that it returns is the one with the least weighted error of the
first-order model, and it satisfies the hard equations just if that costs the soft ones
nothing (`Objective.step_of_linearize`). Otherwise it misses them although they can be
satisfied (`Objective.step_pulled_misses`).

Key definitions: `Relation.firstOrder`, `Objective.firstOrder`.
Key theorems: `Relation.columnBlocks_weighRows`, `Relation.exists_firstOrder_of_linearize`,
`Objective.step_of_linearize`.
-/
import Kinodynamics.Proofs.Elimination.Weighted
import Kinodynamics.Proofs.Objective

namespace Kinodynamics

open Finset

/-! ### Weights of rows and right-hand sides -/

namespace Noise

variable (noise : Noise ℝ)

theorem entry_weighRows (a : Dense ℝ) {i : ℕ} (hi : i < noise.dim) (j : ℕ) :
    (noise.weighRows a).entry i j = noise.weights.getD i 0 * a.entry i j := by
  rcases Nat.lt_or_ge j a.ncols with hj | hj
  · rw [← Dense.image_unitVec _ (by rwa [ncols_weighRows]), LinearEquation.image_weighRows _ _ _ hi,
      Dense.image_unitVec _ hj]
  · rw [Dense.entry_of_ncols_le _ _ (by rwa [ncols_weighRows]), Dense.entry_of_ncols_le _ _ hj,
      mul_zero]

/-- Columns are cut out of weighted rows as out of the rows. -/
theorem view_weighRows {a : Dense ℝ} (hrows : a.nrows = noise.dim) (c n : ℕ) :
    (noise.weighRows a).view 0 c (noise.weighRows a).nrows n =
      noise.weighRows (a.view 0 c a.nrows n) := by
  refine Dense.ext_entry rfl rfl fun i j hi hj => ?_
  have hi' : i < noise.dim := by rwa [Dense.nrows_view, nrows_weighRows] at hi
  have hj' : j < n := hj
  rw [Dense.entry_view _ (by rwa [nrows_weighRows]) hj', noise.entry_weighRows _ hi',
    Dense.entry_view _ (hrows ▸ hi') hj', Nat.zero_add, noise.entry_weighRows _ hi']

/-- Weights do not change signs. -/
theorem weigh_map_neg (residual : List ℝ) :
    noise.weigh (residual.map (- ·)) = (noise.weigh residual).map (- ·) := by
  rw [weigh, weigh, List.zipWith_map_left, List.map_zipWith]
  simp only [neg_mul]

theorem weigh?_eq_some_iff {α : Type} [Scalar α] {noise : Noise α} {residual weighted : List α} :
    noise.weigh? residual = some weighted ↔
      residual.length = noise.dim ∧ weighted = noise.weigh residual := by
  rw [weigh?, Option.ite_none_right_eq_some, Option.some.injEq, eq_comm (a := weighted)]

theorem weighRows?_eq_some_iff {α : Type} [Scalar α] {noise : Noise α} {a weighted : Dense α} :
    noise.weighRows? a = some weighted ↔ a.nrows = noise.dim ∧ weighted = noise.weighRows a := by
  rw [weighRows?, Option.ite_none_right_eq_some, Option.some.injEq, eq_comm (a := weighted)]

end Noise

/-! ### Relations -/

namespace Relation

section

variable {α : Type} [Scalar α]

/-- The equation `J δ = -r` on the tangent directions of the variables, unweighted and with the
noise of the relation. -/
def firstOrder (r : Relation α) (values : Values α) : Outcome ModelError (LinearEquation Key α) := do
  let l ← r.linearization values
  let equation := LinearEquation.make (columnBlocks l.jacobian 0 r.keys) (l.residual.map (- ·)) r.noise
  (Outcome.ofExcept equation).wrap fun cause => .elimination (.mismatch cause)

theorem firstOrder_eq_ok_iff {r : Relation α} {values : Values α} {e : LinearEquation Key α} :
    r.firstOrder values = .ok e ↔ ∃ l, r.linearization values = .ok l ∧
      e.blocks = columnBlocks l.jacobian 0 r.keys ∧ e.rhs = l.residual.map (- ·) ∧ e.noise = r.noise := by
  rw [firstOrder, Outcome.bind_eq_ok]
  refine exists_congr fun l => and_congr_right fun _ => ?_
  rw [Outcome.wrap_ofExcept_eq_ok, Elimination.make_eq_ok_iff]

theorem map_fst_columnBlocks (jacobian : Dense α) :
    ∀ (c : ℕ) (keys : List Key), (columnBlocks jacobian c keys).map Prod.fst = keys
  | _, [] => rfl
  | c, key :: keys => congrArg (key :: ·) (map_fst_columnBlocks jacobian (c + key.dim) keys)

theorem nrows_of_mem_columnBlocks {jacobian : Dense α} :
    ∀ {c : ℕ} {keys : List Key} {b : Key × Dense α}, b ∈ columnBlocks jacobian c keys →
      b.2.nrows = jacobian.nrows
  | _, [], _, hb => by cases hb
  | _, _ :: _, _, hb => by
    rcases List.mem_cons.mp hb with rfl | hb
    · rfl
    · exact nrows_of_mem_columnBlocks hb

/-- What a relation is linearised to, by its steps. -/
theorem linearize_eq_ok {r : Relation α} {values : Values α} {e : LinearEquation Key α}
    (h : r.linearize values = .ok e) : ∃ l, r.linearization values = .ok l ∧
      l.residual.length = r.noise.dim ∧ l.jacobian.nrows = r.noise.dim ∧
      e.blocks = columnBlocks (r.noise.weighRows l.jacobian) 0 r.keys ∧
      e.rhs = (r.noise.weigh l.residual).map (- ·) ∧ e.noise = .unit r.factor.dim := by
  obtain ⟨weighted, hweighted, h⟩ := Outcome.bind_eq_ok.mp h
  obtain ⟨residual, hresidual, hweighted⟩ := Outcome.bind_eq_ok.mp hweighted
  obtain ⟨l, hl, hresidual⟩ := Outcome.bind_eq_ok.mp hresidual
  obtain ⟨l', hl', hweighted⟩ := Outcome.bind_eq_ok.mp hweighted
  obtain rfl : l = l' := Except.ok.inj (hl.symm.trans hl')
  obtain ⟨jacobian, hjacobian, hweighted⟩ := Outcome.bind_eq_ok.mp hweighted
  obtain rfl := Except.ok.inj hweighted
  obtain ⟨hlength, rfl⟩ := Noise.weigh?_eq_some_iff.mp (Outcome.ofOption_eq_ok.mp hresidual)
  obtain ⟨hrows, rfl⟩ := Noise.weighRows?_eq_some_iff.mp (Outcome.ofOption_eq_ok.mp hjacobian)
  simp only at h
  -- both tests of the number of columns are read in either branch of the first
  split_ifs at h
  · cases h
  · cases h
  · cases h
  · obtain ⟨hblocks, hrhs, hnoise⟩ :=
      Elimination.make_eq_ok_iff.mp (Outcome.wrap_ofExcept_eq_ok.mp h)
    exact ⟨l, hl, hlength, hrows, hblocks, hrhs, hnoise⟩

end

theorem columnBlocks_weighRows (noise : Noise ℝ) {jacobian : Dense ℝ}
    (hrows : jacobian.nrows = noise.dim) : ∀ (c : ℕ) (keys : List Key),
      columnBlocks (noise.weighRows jacobian) c keys =
        (columnBlocks jacobian c keys).map fun b => (b.1, noise.weighRows b.2)
  | _, [] => rfl
  | c, key :: keys => by
    rw [columnBlocks, columnBlocks, List.map_cons, columnBlocks_weighRows noise hrows,
      noise.view_weighRows hrows]

variable {r : Relation ℝ} {values : Values ℝ}

theorem nodup_keys_of_linearize {e : LinearEquation Key ℝ} (h : r.linearize values = .ok e) :
    r.keys.Nodup := by
  obtain ⟨l, -, -, -, hblocks, -⟩ := linearize_eq_ok h
  have hnodup := e.keys_nodup
  rwa [hblocks, map_fst_columnBlocks] at hnodup

/-- **A relation is linearised to its weighted first-order equation**, whose noise says
nothing of the relation any more. -/
theorem exists_firstOrder_of_linearize {e : LinearEquation Key ℝ} (h : r.linearize values = .ok e) :
    ∃ e', r.firstOrder values = .ok e' ∧ e = e'.weighted := by
  obtain ⟨l, hl, hlength, hrows, hblocks, hrhs, hnoise⟩ := linearize_eq_ok h
  have hkeys : ((columnBlocks l.jacobian 0 r.keys).map Prod.fst).Nodup := by
    rw [map_fst_columnBlocks]
    exact nodup_keys_of_linearize h
  let e' : LinearEquation Key ℝ :=
    { blocks := columnBlocks l.jacobian 0 r.keys
      rhs := l.residual.map (- ·)
      noise := r.noise
      noise_dim := by rw [List.length_map, hlength]
      block_nrows := fun b hb => by
        rw [nrows_of_mem_columnBlocks hb, hrows, List.length_map, hlength]
      keys_nodup := hkeys }
  refine ⟨e', firstOrder_eq_ok_iff.mpr ⟨l, hl, rfl, rfl, rfl⟩, ?_⟩
  have hmade : LinearEquation.make e'.weighted.blocks e'.weighted.rhs e'.weighted.noise = .ok e := by
    refine Elimination.make_eq_ok_iff.mpr ⟨?_, ?_, ?_⟩
    · rw [hblocks, columnBlocks_weighRows _ hrows]
      rfl
    · rw [hrhs, ← Noise.weigh_map_neg]
      rfl
    · show e.noise = .unit (l.residual.map (- ·)).length
      rw [hnoise, List.length_map, hlength, r.dim_noise]
  exact Except.ok.inj (hmade.symm.trans (Elimination.make_eq_ok_iff.mpr ⟨rfl, rfl, rfl⟩))

end Relation

/-! ### Objectives -/

namespace Objective

/-- The first-order equations of all relations, in order. -/
def firstOrder {α : Type} [Scalar α] (s : Objective α) (values : Values α) :
    Outcome ModelError (LinearSystem Key α) := do
  return ⟨← s.relations.mapM fun r => r.firstOrder values⟩

/-- An objective is linearised relation by relation. -/
theorem forall₂_of_linearize {α : Type} [Scalar α] {s : Objective α} {values : Values α}
    {system : LinearSystem Key α} (h : s.linearize values = .ok system) :
    List.Forall₂ (fun r e => r.linearize values = .ok e) s.relations system.equations := by
  obtain ⟨equations, hequations, h⟩ := Outcome.bind_eq_ok.mp h
  obtain rfl := Except.ok.inj h
  exact mapM_eq_ok_iff.mp hequations

variable {s : Objective ℝ} {values : Values ℝ} {system : LinearSystem Key ℝ}

/-- An objective is linearised to its weighted first-order equations. -/
theorem exists_firstOrder_of_linearize (h : s.linearize values = .ok system) :
    ∃ model, s.firstOrder values = .ok model ∧ system = model.weighted := by
  have hmap : ∀ {relations : List (Relation ℝ)} {equations : List (LinearEquation Key ℝ)},
      List.Forall₂ (fun r e => r.linearize values = .ok e) relations equations →
        ∃ model, List.Forall₂ (fun r e => r.firstOrder values = .ok e) relations model ∧
          equations = model.map LinearEquation.weighted := by
    intro relations equations hall
    induction hall with
    | nil => exact ⟨[], .nil, rfl⟩
    | cons he _ ih =>
      obtain ⟨e', he', rfl⟩ := Relation.exists_firstOrder_of_linearize he
      obtain ⟨rest, hrest, rfl⟩ := ih
      exact ⟨e' :: rest, .cons he' hrest, rfl⟩
  obtain ⟨model, hmodel, hsystem⟩ := hmap (forall₂_of_linearize h)
  exact ⟨⟨model⟩, Outcome.bind_eq_ok.mpr ⟨model, mapM_eq_ok_iff.mpr hmodel, rfl⟩,
    congrArg LinearSystem.mk hsystem⟩

/-- **The step of a linearised objective has the least weighted error of the first-order
model.** It is the only one. It satisfies the first-order equations of the hard relations just
if some step satisfies them that has the least soft error of all steps. -/
theorem step_of_linearize {D : Decompositions ℝ} (hD : D.IsExact)
    (hs : s.linearize values = .ok system) {ordering : List Key} {net : BayesNet Key ℝ}
    (h : eliminate D system ordering = .ok net) {step : Solution Key ℝ}
    (hstep : net.solve = .ok step) :
    ∃ model, s.firstOrder values = .ok model ∧ model.Fits step ∧
      model.HasLeastError model.Fits step ∧
      (∀ y, model.Fits y → model.error y = model.error step →
        ∀ key ∈ model.keys, y.get? key = step.get? key) ∧
      (model.SatisfiesHard step ↔
        ∃ y, model.Fits y ∧ model.SatisfiesHard y ∧ model.softPart.HasLeastError model.Fits y) := by
  obtain ⟨model, hmodel, rfl⟩ := exists_firstOrder_of_linearize hs
  exact ⟨model, hmodel, Elimination.error_of_eliminate_weighted hD h hstep⟩

/-! ### A hard relation that is pulled -/

/-- A torque. -/
def torqueKey : Key := .torque ⟨0⟩ 0

/-- The torque is held at zero by a hard relation and pulled to one by a soft one. -/
noncomputable def pulled (sigma : ℝ) : Objective ℝ :=
  ⟨[⟨[torqueKey], .prior [0], .constrained 1, rfl⟩, ⟨[torqueKey], .prior [1], .isotropic 1 sigma, rfl⟩]⟩

/-- The torque is zero. -/
noncomputable def zeroTorque : Values ℝ := ⟨[(torqueKey, .scalar 0)]⟩

/-- The equation `δ = b` on the torque. -/
noncomputable def torqueEquation (noise : Noise ℝ) (b : ℝ) (h : noise.dim = 1) :
    LinearEquation Key ℝ where
  blocks := Relation.columnBlocks (.identity 1) 0 [torqueKey]
  rhs := [b]
  noise := noise
  noise_dim := h
  block_nrows := fun _ hc => Relation.nrows_of_mem_columnBlocks hc
  keys_nodup := List.nodup_singleton torqueKey

theorem energy_weighted_torqueEquation (noise : Noise ℝ) (b : ℝ) (h : noise.dim = 1) (t : ℝ)
    (x : Valuation Key) : (torqueEquation noise b h).weighted.energy t x =
      (noise.weights.getD 0 0 * (x torqueKey 0 - t * b)) ^ 2 := by
  have hentry : ((Dense.identity 1 : Dense ℝ).view 0 0 1 1).entry 0 0 = 1 := by
    rw [Dense.entry_view _ Nat.one_pos Nat.one_pos, Dense.entry_identity Nat.one_pos Nat.one_pos,
      if_pos rfl]
  have hdefect : (torqueEquation noise b h).defect t x 0 = x torqueKey 0 - t * b := by
    show [∑ j ∈ range 1, ((Dense.identity 1 : Dense ℝ).view 0 0 1 1).entry 0 j * x torqueKey j].sum -
      t * b = _
    rw [sum_range_one, hentry, one_mul, List.sum_singleton]
  rw [LinearEquation.energy_weighted]
  show ∑ i ∈ range 1, (noise.weights.getD i 0 * (torqueEquation noise b h).defect t x i) ^ 2 = _
  rw [sum_range_one, hdefect]

/-- What the hard relation asks of a change of the torque. -/
noncomputable def holding : LinearEquation Key ℝ := torqueEquation (.constrained 1) (-(0 - 0)) rfl

/-- What the soft relation asks of it. -/
noncomputable def pulling (sigma : ℝ) : LinearEquation Key ℝ :=
  torqueEquation (.isotropic 1 sigma) (-(0 - 1)) rfl

theorem energy_weighted_holding (t : ℝ) (x : Valuation Key) :
    holding.weighted.energy t x = (1e6 * x torqueKey 0) ^ 2 := by
  refine (energy_weighted_torqueEquation _ _ _ t x).trans ?_
  show (1e6 * (x torqueKey 0 - t * -(0 - 0))) ^ 2 = _
  ring

theorem energy_weighted_pulling (sigma t : ℝ) (x : Valuation Key) :
    (pulling sigma).weighted.energy t x = (1 / sigma * (x torqueKey 0 - t)) ^ 2 := by
  refine (energy_weighted_torqueEquation _ _ _ t x).trans ?_
  show (1 / sigma * (x torqueKey 0 - t * -(0 - 1))) ^ 2 = _
  ring

/-- What both ask of it. -/
noncomputable def pulledModel (sigma : ℝ) : LinearSystem Key ℝ := ⟨[holding, pulling sigma]⟩

theorem firstOrder_pulled (sigma : ℝ) :
    (pulled sigma).firstOrder zeroTorque = .ok (pulledModel sigma) := rfl

/-- The step is found. -/
theorem exists_step_pulled (sigma : ℝ) : ∃ net step,
    (pulled sigma).linearize zeroTorque = .ok (pulledModel sigma).weighted ∧
      eliminate .standard (pulledModel sigma).weighted [torqueKey] = .ok net ∧ net.solve = .ok step := by
  obtain ⟨system, hsystem⟩ : ∃ system, (pulled sigma).linearize zeroTorque = .ok system := ⟨_, rfl⟩
  obtain ⟨model, hmodel, rfl⟩ := exists_firstOrder_of_linearize hsystem
  obtain rfl := Except.ok.inj ((firstOrder_pulled sigma).symm.trans hmodel)
  obtain ⟨w, hw⟩ : ∃ w, Elimination.widths (pulledModel sigma).weighted = .ok w := ⟨_, rfl⟩
  have hkeys : (pulledModel sigma).weighted.keys = [torqueKey] := rfl
  obtain ⟨net, hnet⟩ : ∃ net, eliminate .standard (pulledModel sigma).weighted [torqueKey] = .ok net := by
    refine Elimination.exists_eliminate_alone hw rfl ?_ fun k hk => List.mem_singleton.mp (hkeys ▸ hk)
    have hpivotal : Elimination.pivotal (Elimination.prepared (pulledModel sigma).weighted) torqueKey =
        [holding.weighted.weighted, (pulling sigma).weighted.weighted] := rfl
    have hunit : Elimination.unitAt torqueKey torqueKey 0 = 1 := if_pos ⟨rfl, rfl⟩
    have hsmall : (Elimination.negligiblePivot : ℝ) ^ 2 < (1e6 * 1) ^ 2 := by
      norm_num [Elimination.negligiblePivot]
    rw [hpivotal, totalEnergy_cons, totalEnergy_cons, totalEnergy_nil, add_zero,
      LinearEquation.energy_weighted_weighted, LinearEquation.energy_weighted_weighted,
      energy_weighted_holding, energy_weighted_pulling, hunit]
    exact lt_add_of_lt_of_nonneg hsmall (sq_nonneg _)
  obtain ⟨step, hstep⟩ :=
    (Elimination.exists_solve_iff Decompositions.standard_isTriangular hnet).mpr fun k hk => by
      rwa [← hkeys]
  exact ⟨net, step, hsystem, hnet, hstep⟩

/-- The step has the least error, hard relations weighed. -/
theorem step_pulled : ∃ system net step model,
    (pulled 1e-6).linearize zeroTorque = .ok system ∧
      eliminate .standard system [torqueKey] = .ok net ∧ net.solve = .ok step ∧
      (pulled 1e-6).firstOrder zeroTorque = .ok model ∧ model.HasLeastError model.Fits step := by
  obtain ⟨net, step, hsystem, hnet, hstep⟩ := exists_step_pulled 1e-6
  obtain ⟨model, hmodel, -, hleast, -⟩ :=
    step_of_linearize Decompositions.standard_isExact hsystem hnet hstep
  exact ⟨_, net, step, model, hsystem, hnet, hstep, hmodel, hleast⟩

section Pulled

variable {sigma : ℝ} {w : Assignment Key ℕ} {y : Solution Key ℝ}

theorem fits_pulledModel (b : ℝ) : (pulledModel sigma).Fits ⟨[(torqueKey, [b])]⟩ := fun k hk => by
  have hkeys : (pulledModel sigma).keys = [torqueKey] := rfl
  obtain rfl := List.mem_singleton.mp (hkeys ▸ hk)
  exact ⟨[b], rfl, rfl⟩

theorem satisfiesHard_pulledModel_iff (hw : Elimination.widths (pulledModel sigma) = .ok w)
    (hy : (pulledModel sigma).Fits y) :
    (pulledModel sigma).SatisfiesHard y ↔ valuation y torqueKey 0 = 0 := by
  have hhard : (pulledModel sigma).equations.filter (fun r => r.isHard) = [holding] := rfl
  have hweighted := LinearEquation.energy_weighted_of_isHard (r := holding) rfl 1 (valuation y)
  rw [energy_weighted_holding] at hweighted
  rw [Elimination.satisfiesHard_iff hw hy, Elimination.hardEnergy_prepared, hhard, totalEnergy_cons,
    totalEnergy_nil, add_zero]
  have hweight : (Noise.hardWeight : ℝ) ^ 2 ≠ 0 := by norm_num [Noise.hardWeight]
  rw [← mul_eq_zero_iff_left hweight, ← hweighted, sq_eq_zero_iff, mul_eq_zero,
    or_iff_right (by norm_num : (1e6 : ℝ) ≠ 0)]

theorem error_softPart_pulledModel (hw : Elimination.widths (pulledModel sigma) = .ok w)
    (hy : (pulledModel sigma).Fits y) : (pulledModel sigma).softPart.error y =
      .ok (1 / 2 * (1 / sigma * (valuation y torqueKey 0 - 1)) ^ 2) := by
  have hsoft : (pulledModel sigma).softPart.equations.map LinearEquation.weighted =
      [(pulling sigma).weighted] := rfl
  rw [Elimination.error_softPart hw hy, Elimination.softEnergy_prepared, hsoft, totalEnergy_cons,
    totalEnergy_nil, add_zero, energy_weighted_pulling]

end Pulled

/-- **The step misses the hard relation**, which could be satisfied: the soft relation pulls. -/
theorem step_pulled_misses : ∃ system net step model,
    (pulled 1e-6).linearize zeroTorque = .ok system ∧
      eliminate .standard system [torqueKey] = .ok net ∧ net.solve = .ok step ∧
      (pulled 1e-6).firstOrder zeroTorque = .ok model ∧
      (∃ y, model.Fits y ∧ model.SatisfiesHard y) ∧ ¬model.SatisfiesHard step := by
  obtain ⟨net, step, hsystem, hnet, hstep⟩ := exists_step_pulled 1e-6
  obtain ⟨w, hw⟩ : ∃ w, Elimination.widths (pulledModel 1e-6) = .ok w := ⟨_, rfl⟩
  refine ⟨_, net, step, _, hsystem, hnet, hstep, firstOrder_pulled 1e-6, ⟨⟨[(torqueKey, [0])]⟩,
    fits_pulledModel 0, (satisfiesHard_pulledModel_iff hw (fits_pulledModel 0)).mpr rfl⟩, fun hsat => ?_⟩
  obtain ⟨-, -, -, hiff⟩ :=
    Elimination.error_of_eliminate_weighted Decompositions.standard_isExact hnet hstep
  obtain ⟨y, hy, hysat, least, hleast, hall⟩ := hiff.mp hsat
  -- where the hard equation holds the soft one is off by one, and elsewhere it is not
  have hyzero := (satisfiesHard_pulledModel_iff hw hy).mp hysat
  obtain ⟨e, he, hle⟩ := hall _ (fits_pulledModel 1)
  have hone : valuation (⟨[(torqueKey, [1])]⟩ : Solution Key ℝ) torqueKey 0 = 1 := rfl
  rw [error_softPart_pulledModel hw hy, hyzero] at hleast
  rw [error_softPart_pulledModel hw (fits_pulledModel 1), hone] at he
  rw [← Except.ok.inj hleast, ← Except.ok.inj he] at hle
  norm_num at hle

end Objective
end Kinodynamics
