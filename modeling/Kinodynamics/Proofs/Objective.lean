/-
# The cost of relations

A relation that has values for its variables has a residual with one entry for each of its
rows, and its error is half the squared length of the weighted residual. With weights that
are not zero the error is zero just where the residual is, and since no error is negative
the cost of an objective is zero just where the residuals of all its relations are
(`Objective.exists_cost`).

Key definitions: `Values.Holds`, `Relation.HasResidual`, `Noise.Weighs`.
Key theorems: `Factor.length_residual`, `Relation.HasResidual.error_eq`, `Objective.exists_cost`.
-/
import Kinodynamics.Proofs.Motion.Adjoint
import Kinodynamics.Proofs.Reading
import Kinodynamics.Objective

namespace Kinodynamics

/-! ### Weights -/

/-- No row has the weight zero. -/
def Noise.Weighs (noise : Noise ℝ) : Prop := ∀ w ∈ noise.weights, w ≠ 0

theorem Noise.weighs_isotropic {dim : ℕ} {sigma : ℝ} (h : sigma ≠ 0) :
    (Noise.isotropic dim sigma).Weighs := fun w hw => by
  obtain rfl := List.eq_of_mem_replicate hw
  exact one_div_ne_zero h

theorem Noise.weighs_constrained (dim : ℕ) : (Noise.constrained dim : Noise ℝ).Weighs := fun w hw => by
  obtain rfl := List.eq_of_mem_replicate hw
  norm_num [Noise.hardWeight]

theorem Scalar.normSq_eq_zero_iff {xs : List ℝ} : Scalar.normSq xs = 0 ↔ ∀ x ∈ xs, x = 0 := by
  rw [Scalar.normSq_eq_sum, Finset.sum_eq_zero_iff_of_nonneg fun i _ => sq_nonneg _]
  constructor
  · intro h x hx
    obtain ⟨i, hi, rfl⟩ := List.getElem_of_mem hx
    have hentry := sq_eq_zero_iff.mp (h i (Finset.mem_range.mpr hi))
    rwa [List.getD_eq_getElem _ _ hi] at hentry
  · intro h i hi
    have hlt := Finset.mem_range.mp hi
    rw [List.getD_eq_getElem _ _ hlt, h _ (List.getElem_mem hlt), zero_pow two_ne_zero]

/-- Weights that are not zero leave zero residuals only at zero. -/
theorem Noise.Weighs.normSq_weigh_eq_zero_iff {noise : Noise ℝ} (hweighs : noise.Weighs)
    {residual : List ℝ} (hlength : residual.length = noise.dim) :
    Scalar.normSq (noise.weigh residual) = 0 ↔ ∀ x ∈ residual, x = 0 := by
  rw [Scalar.normSq_eq_zero_iff, Noise.weigh]
  constructor
  · intro h x hx
    obtain ⟨i, hi, rfl⟩ := List.getElem_of_mem hx
    have hweight : i < noise.weights.length := by rwa [Noise.length_weights, ← hlength]
    have hproduct : residual[i] * noise.weights[i] = 0 := by
      have hplace : i < (List.zipWith (· * ·) residual noise.weights).length := by
        rw [List.length_zipWith]
        exact lt_min hi hweight
      have hentry := h _ (List.getElem_mem hplace)
      rwa [List.getElem_zipWith] at hentry
    exact (mul_eq_zero.mp hproduct).resolve_right (hweighs _ (List.getElem_mem hweight))
  · intro h x hx
    obtain ⟨i, hi, rfl⟩ := List.getElem_of_mem hx
    rw [List.length_zipWith, lt_min_iff] at hi
    rw [List.getElem_zipWith, h _ (List.getElem_mem hi.1), zero_mul]

/-! ### Values of the right kinds -/

namespace Values

variable {values : Values ℝ} {key : Key}

/-- Each of the keys has a value of its kind, and the values that are poses are rigid motions. -/
def Holds (values : Values ℝ) (keys : List Key) : Prop :=
  ∀ key ∈ keys, ∃ value, values.get? key = some value ∧ value.kind = key.valueKind ∧
    ∀ p, value = .pose p → p.IsUnit

theorem Holds.exists_pose {keys : List Key} (h : values.Holds keys) (hkey : key ∈ keys)
    (hkind : key.valueKind = .pose) : ∃ p, values.get? key = some (.pose p) ∧ p.IsUnit := by
  obtain ⟨value, hvalue, hsame, hunit⟩ := h key hkey
  obtain ⟨p, rfl⟩ := Value.exists_pose (hsame.trans hkind)
  exact ⟨p, hvalue, hunit p rfl⟩

theorem Holds.exists_spatial {keys : List Key} (h : values.Holds keys) (hkey : key ∈ keys)
    (hkind : key.valueKind = .spatial) : ∃ v, values.get? key = some (.spatial v) := by
  obtain ⟨value, hvalue, hsame, -⟩ := h key hkey
  obtain ⟨v, rfl⟩ := Value.exists_spatial (hsame.trans hkind)
  exact ⟨v, hvalue⟩

theorem Holds.exists_scalar {keys : List Key} (h : values.Holds keys) (hkey : key ∈ keys)
    (hkind : key.valueKind = .scalar) : ∃ x, values.get? key = some (.scalar x) := by
  obtain ⟨value, hvalue, hsame, -⟩ := h key hkey
  obtain ⟨x, rfl⟩ := Value.exists_scalar (hsame.trans hkind)
  exact ⟨x, hvalue⟩

end Values

/-! ### Residuals -/

/-- A factor has one residual for each of its rows. -/
theorem Factor.length_residual {α : Type} [Scalar α] {f : Factor α} {params : List (List α)}
    {l : Linearization α} (h : f.linearize? params = some l) : l.residual.length = f.dim := by
  unfold linearize? at h
  split at h
  -- each factor, after what it reads of its parameters
  case h_1 | h_2 | h_5 =>
    obtain ⟨_, -, h⟩ := Option.bind_eq_some_iff.mp h
    obtain ⟨_, -, h⟩ := Option.bind_eq_some_iff.mp h
    obtain rfl := Option.some.inj h
    rfl
  case h_3 =>
    obtain ⟨_, -, h⟩ := Option.bind_eq_some_iff.mp h
    obtain ⟨_, -, h⟩ := Option.bind_eq_some_iff.mp h
    obtain ⟨_, -, h⟩ := Option.bind_eq_some_iff.mp h
    obtain rfl := Option.some.inj h
    rfl
  case h_4 =>
    obtain ⟨_, -, h⟩ := Option.bind_eq_some_iff.mp h
    obtain rfl := Option.some.inj h
    rfl
  case h_6 =>
    obtain ⟨_, -, h⟩ := Option.bind_eq_some_iff.mp h
    obtain rfl := Option.some.inj h
    exact Dense.length_mulVec _ _
  case h_7 =>
    obtain rfl := Option.some.inj h
    rfl
  case h_8 value param _ =>
    split_ifs at h with hlength
    obtain rfl := Option.some.inj h
    show (List.zipWith _ param value).length = value.length
    rw [List.length_zipWith, hlength, Nat.min_self]
  case h_9 => cases h

namespace Relation

/-- **The error is half the squared length of the weighted residual.** -/
theorem error_eq {α : Type} [Scalar α] {r : Relation α} {values : Values α} {l : Linearization α}
    (hl : r.linearization values = .ok l) (hlength : l.residual.length = r.noise.dim) :
    r.error values = .ok (0.5 * Scalar.normSq (r.noise.weigh l.residual)) := by
  have hweighted : r.weightedResidual values = .ok (r.noise.weigh l.residual) := by
    rw [weightedResidual, hl]
    show Outcome.ofOption (r.noise.weigh? l.residual) = _
    rw [Noise.weigh?, if_pos hlength]
    rfl
  rw [error, hweighted]
  rfl

variable {r : Relation ℝ} {values : Values ℝ} {residual : List ℝ}

/-- The variables of the relation have values, and there it has the unweighted residual. -/
def HasResidual (r : Relation ℝ) (values : Values ℝ) (residual : List ℝ) : Prop :=
  ∃ jacobian, r.linearization values = .ok ⟨residual, jacobian⟩

/-- The residual of a relation is that of its factor at the parameters of its variables. -/
theorem hasResidual_iff : r.HasResidual values residual ↔
    ∃ params, r.parameters values = .ok params ∧
      (r.factor.linearize? params).map Linearization.residual = some residual := by
  rw [HasResidual, linearization]
  cases hparams : r.parameters values with
  | error e => simp [Outcome.ofExcept, Outcome.fail, bind, Except.bind]
  | ok params =>
    simp only [Outcome.ofExcept, bind, Except.bind, Except.ok.injEq, exists_eq_left']
    cases hl : r.factor.linearize? params with
    | none => simp [Outcome.ofOption, Outcome.sizes]
    | some l =>
      simp only [Outcome.ofOption, Except.ok.injEq, Option.map_some, Option.some.injEq]
      constructor
      · rintro ⟨jacobian, rfl⟩
        rfl
      · rintro rfl
        exact ⟨l.jacobian, rfl⟩

/-- A relation has the residual of its factor at the parameters that its variables have. -/
theorem hasResidual_of_parameters {params : List (List ℝ)}
    (hparams : List.Forall₂ (fun key p => values.parameters key = .ok p) r.keys params)
    (hresidual : (r.factor.linearize? params).map Linearization.residual = some residual) :
    r.HasResidual values residual :=
  hasResidual_iff.mpr ⟨params, Values.mapM_parameters hparams, hresidual⟩

theorem HasResidual.length_eq (h : r.HasResidual values residual) : residual.length = r.noise.dim := by
  obtain ⟨params, -, hresidual⟩ := hasResidual_iff.mp h
  obtain ⟨l, hl, rfl⟩ := Option.map_eq_some_iff.mp hresidual
  rw [Factor.length_residual hl, r.dim_noise]

theorem HasResidual.error_eq (h : r.HasResidual values residual) :
    r.error values = .ok (0.5 * Scalar.normSq (r.noise.weigh residual)) := by
  have hlength := h.length_eq
  obtain ⟨jacobian, hl⟩ := h
  exact Relation.error_eq hl hlength

/-- The error is not negative, and zero where the residual is. -/
theorem HasResidual.exists_error (h : r.HasResidual values residual) (hweighs : r.noise.Weighs) :
    ∃ e, r.error values = .ok e ∧ 0 ≤ e ∧ (e = 0 ↔ ∀ x ∈ residual, x = 0) := by
  refine ⟨_, h.error_eq, mul_nonneg (by norm_num) (Scalar.normSq_nonneg _), ?_⟩
  rw [mul_eq_zero, or_iff_right (by norm_num : (0.5 : ℝ) ≠ 0)]
  exact hweighs.normSq_weigh_eq_zero_iff h.length_eq

end Relation

/-! ### Objectives -/

namespace Objective

variable {values : Values ℝ}

/-- Errors added up from a start. -/
theorem exists_foldlM {relations : List (Relation ℝ)} {residuals : List (List ℝ)}
    (h : List.Forall₂ (fun r residual => r.HasResidual values residual) relations residuals)
    (hweighs : ∀ r ∈ relations, r.noise.Weighs) (start : ℝ) :
    ∃ c, relations.foldlM (fun sum r => do return sum + (← r.error values)) start =
        (.ok (start + c) : Outcome ModelError ℝ) ∧ 0 ≤ c ∧
      (c = 0 ↔ ∀ residual ∈ residuals, ∀ x ∈ residual, x = 0) := by
  induction h generalizing start with
  | nil => exact ⟨0, by rw [add_zero]; rfl, le_rfl, by simp⟩
  | @cons r residual relations residuals hr _ ih =>
    obtain ⟨e, herror, he, hzero⟩ := hr.exists_error (hweighs r List.mem_cons_self)
    obtain ⟨c, hc, hnonneg, hrest⟩ := ih (fun r hr => hweighs r (List.mem_cons_of_mem _ hr)) (start + e)
    refine ⟨e + c, ?_, add_nonneg he hnonneg, ?_⟩
    · rw [List.foldlM_cons, herror, ← add_assoc]
      exact hc
    · rw [add_eq_zero_iff_of_nonneg he hnonneg, hzero, hrest, List.forall_mem_cons]

/-- **The cost is zero just where all residuals are**, if no weight is zero. -/
theorem exists_cost {s : Objective ℝ} {residuals : List (List ℝ)}
    (h : List.Forall₂ (fun r residual => r.HasResidual values residual) s.relations residuals)
    (hweighs : ∀ r ∈ s.relations, r.noise.Weighs) :
    ∃ c, s.cost values = .ok c ∧ (c = 0 ↔ ∀ residual ∈ residuals, ∀ x ∈ residual, x = 0) := by
  obtain ⟨c, hc, -, hzero⟩ := exists_foldlM h hweighs 0
  exact ⟨c, by rw [cost, hc, zero_add], hzero⟩

end Objective
end Kinodynamics
