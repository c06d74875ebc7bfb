/-
# Evaluating and linearising relations

A relation whose variables are of the kinds that its factor takes can go wrong only at the store.
The factor then has parameters of the right sizes, one residual for each deviation and one column
for each direction of its variables, so none of the tests of sizes fails and the columns are cut
at the right places. What is left to fail is reading the store, and evaluating and linearising read
it in the same order: they fail at the same variable, if at any (`Objective.decidedBy_cost`,
`Objective.decidedBy_linearize`).

The right-hand side of an equation is the weighted residual with its sign changed, and that is all
there is of it at the solution that is zero. So a system has the cost of its relations there
(`Objective.error_still`).

Key definitions: `Outcome.DecidedBy`, `Factor.Takes`, `Relation.IsTyped`, `Relation.ShapedAs`.
Key theorems: `Factor.Takes.exists_linearize`, `Objective.decidedBy_cost`,
`Objective.decidedBy_linearize`, `Objective.shapedAs_of_linearize`, `Objective.error_still`.
-/
import Kinodynamics.Proofs.ExactSteps

namespace Kinodynamics

/-! ### Lists of computations -/

namespace Outcome

variable {ε β γ ρ : Type}

/-- The outcome is the error if there is one, and an answer otherwise. -/
def DecidedBy (outcome : Outcome ε β) (cause : Option ε) : Prop :=
  match cause with
  | some e => outcome = fail e
  | none => ∃ b, outcome = .ok b

theorem DecidedBy.exists_ok_iff {outcome : Outcome ε β} {cause : Option ε} (h : outcome.DecidedBy cause) :
    (∃ b, outcome = .ok b) ↔ cause = none := by
  cases cause with
  | none => exact iff_of_true h rfl
  | some e =>
    refine iff_of_false ?_ nofun
    rintro ⟨b, hb⟩
    cases hb.symm.trans h

theorem DecidedBy.map {outcome : Outcome ε β} {cause : Option ε} (h : outcome.DecidedBy cause)
    (f : β → γ) : DecidedBy (outcome >>= fun b => .ok (f b)) cause := by
  cases cause with
  | none =>
    obtain ⟨b, rfl⟩ := h
    exact ⟨f b, rfl⟩
  | some e =>
    obtain rfl := h
    rfl

/-- **The first cause decides a list of computations.** -/
theorem DecidedBy.mapM {f : ρ → Outcome ε β} {cause : ρ → Option ε} {items : List ρ}
    (h : ∀ r ∈ items, (f r).DecidedBy (cause r)) :
    (items.mapM f).DecidedBy (items.findSome? cause) := by
  induction items with
  | nil => exact ⟨[], rfl⟩
  | cons r items ih =>
    obtain ⟨hfirst, hrest⟩ := List.forall_mem_cons.mp h
    rw [List.mapM_cons, List.findSome?_cons]
    cases hcause : cause r with
    | some e =>
      rw [hcause] at hfirst
      have hfail : f r = fail e := hfirst
      rw [hfail]
      rfl
    | none =>
      rw [hcause] at hfirst
      obtain ⟨b, hb⟩ := hfirst
      rw [hb]
      exact (ih hrest).map (b :: ·)

end Outcome

/-- Answers added up as they come are the answers added up in the end. -/
theorem foldlM_add_eq {ε ρ α : Type} [Scalar α] (f : ρ → Except ε α) (items : List ρ) (start : α) :
    items.foldlM (fun sum r => do return sum + (← f r)) start =
      (items.mapM f >>= fun xs => .ok (xs.foldl (· + ·) start)) := by
  induction items generalizing start with
  | nil => rfl
  | cons r items ih =>
    rw [List.foldlM_cons, List.mapM_cons]
    cases f r with
    | error e => rfl
    | ok x =>
      refine (ih (start + x)).trans ?_
      cases items.mapM f <;> rfl

/-! ### Factors -/

/-- The kinds of the variables that a factor of a joint takes. -/
inductive Factor.Takes {α : Type} : Factor α → List ValueKind → Prop
  | pose (j : Joint α) : Takes (.pose j) [.pose, .pose, .scalar]
  | twist (j : Joint α) : Takes (.twist j) [.spatial, .spatial, .scalar, .scalar]
  | twistAccel (j : Joint α) :
    Takes (.twistAccel j) [.spatial, .spatial, .spatial, .scalar, .scalar, .scalar]
  | torque (j : Joint α) : Takes (.torque j) [.spatial, .scalar]
  | wrenchBalance (j : Joint α) : Takes (.wrenchBalance j) [.spatial, .spatial, .scalar]
  | planar (axis : PlaneNormal) : Takes (.planar axis) [.spatial]
  | limit (lower upper : α) : Takes (.limit lower upper) [.scalar]

/-- **A factor has an answer at values of the kinds that it takes**, with a row for each of its
rows and a column for each direction of the values. -/
theorem Factor.Takes.exists_linearize {α : Type} [Scalar α] {f : Factor α} {vals : List (Value α)}
    (h : f.Takes (vals.map Value.kind)) : ∃ l, f.linearize? (vals.map Value.toList) = some l ∧
      l.jacobian.nrows = f.dim ∧ l.jacobian.ncols = (vals.map Value.dim).sum := by
  generalize hkinds : vals.map Value.kind = kinds at h
  cases h <;> simp only [List.map_eq_cons_iff, List.map_eq_nil_iff] at hkinds
  case pose j =>
    obtain ⟨_, _, rfl, h₁, _, _, rfl, h₂, _, _, rfl, h₃, rfl⟩ := hkinds
    obtain ⟨parent, rfl⟩ := Value.exists_pose h₁
    obtain ⟨child, rfl⟩ := Value.exists_pose h₂
    obtain ⟨q, rfl⟩ := Value.exists_scalar h₃
    exact ⟨_, rfl, rfl, rfl⟩
  case twist j =>
    obtain ⟨_, _, rfl, h₁, _, _, rfl, h₂, _, _, rfl, h₃, _, _, rfl, h₄, rfl⟩ := hkinds
    obtain ⟨parent, rfl⟩ := Value.exists_spatial h₁
    obtain ⟨child, rfl⟩ := Value.exists_spatial h₂
    obtain ⟨q, rfl⟩ := Value.exists_scalar h₃
    obtain ⟨qDot, rfl⟩ := Value.exists_scalar h₄
    exact ⟨_, rfl, rfl, rfl⟩
  case twistAccel j =>
    obtain ⟨_, _, rfl, h₁, _, _, rfl, h₂, _, _, rfl, h₃, _, _, rfl, h₄, _, _, rfl, h₅, _, _, rfl, h₆,
      rfl⟩ := hkinds
    obtain ⟨childTwist, rfl⟩ := Value.exists_spatial h₁
    obtain ⟨parent, rfl⟩ := Value.exists_spatial h₂
    obtain ⟨child, rfl⟩ := Value.exists_spatial h₃
    obtain ⟨q, rfl⟩ := Value.exists_scalar h₄
    obtain ⟨qDot, rfl⟩ := Value.exists_scalar h₅
    obtain ⟨qDDot, rfl⟩ := Value.exists_scalar h₆
    exact ⟨_, rfl, rfl, rfl⟩
  case torque j =>
    obtain ⟨_, _, rfl, h₁, _, _, rfl, h₂, rfl⟩ := hkinds
    obtain ⟨wrench, rfl⟩ := Value.exists_spatial h₁
    obtain ⟨torque, rfl⟩ := Value.exists_scalar h₂
    exact ⟨_, rfl, rfl, rfl⟩
  case wrenchBalance j =>
    obtain ⟨_, _, rfl, h₁, _, _, rfl, h₂, _, _, rfl, h₃, rfl⟩ := hkinds
    obtain ⟨parent, rfl⟩ := Value.exists_spatial h₁
    obtain ⟨child, rfl⟩ := Value.exists_spatial h₂
    obtain ⟨q, rfl⟩ := Value.exists_scalar h₃
    exact ⟨_, rfl, rfl, rfl⟩
  case planar axis =>
    obtain ⟨_, _, rfl, h₁, rfl⟩ := hkinds
    obtain ⟨wrench, rfl⟩ := Value.exists_spatial h₁
    exact ⟨_, rfl, rfl, rfl⟩
  case limit lower upper =>
    obtain ⟨_, _, rfl, h₁, rfl⟩ := hkinds
    obtain ⟨x, rfl⟩ := Value.exists_scalar h₁
    exact ⟨_, rfl, rfl, rfl⟩

/-! ### Relations -/

namespace Relation

section

variable {α : Type} [Scalar α]

/-- The variables of the relation are distinct and of the kinds that its factor takes. -/
structure IsTyped (r : Relation α) : Prop where
  takes : r.factor.Takes (r.keys.map Key.valueKind)
  nodup : r.keys.Nodup

/-- The equation has the keys of the relation, in order, and for each of them a block with a row
for each row of the relation and a column for each direction of the variable. -/
structure ShapedAs (r : Relation α) (e : LinearEquation Key α) : Prop where
  keys : e.keys = r.keys
  rows : e.rows = r.factor.dim
  block : ∀ b ∈ e.blocks, b.2.nrows = r.factor.dim ∧ b.2.ncols = b.1.dim

variable {r : Relation α} {values : Values α} {cause : ModelError}

/-- **A relation is linearised to an equation of its shape.** -/
theorem shapedAs_of_linearize {e : LinearEquation Key α} (he : r.linearize values = .ok e) :
    r.ShapedAs e := by
  obtain ⟨l, hl, hlength, -, hblocks, hrhs, -⟩ := linearize_eq_ok he
  refine ⟨?_, ?_, fun b hb => ?_⟩
  · rw [LinearEquation.keys, hblocks, map_fst_columnBlocks]
  · rw [LinearEquation.rows, hrhs, List.length_map, Noise.length_weigh, hlength, Nat.min_self, r.dim_noise]
  · rw [hblocks] at hb
    rw [nrows_of_mem_columnBlocks hb, Noise.nrows_weighRows, r.dim_noise]
    exact ⟨rfl, ncols_of_mem_columnBlocks hb⟩

/-! #### What the store decides -/

theorem linearization_eq_fail (h : values.firstOffence? r.keys = some cause) :
    r.linearization values = Outcome.fail cause := by
  have hread : r.parameters values = .error cause := Values.mapM_parameters_eq_error h
  rw [linearization, hread]
  rfl

/-- Values of the right kinds, in the order of the variables. -/
theorem exists_values {keys : List Key} (h : values.Supplies keys) : ∃ vals : List (Value α),
    vals.map Value.kind = keys.map Key.valueKind ∧ (vals.map Value.dim).sum = tangentDim keys ∧
      List.Forall₂ (fun key p => values.parameters key = .ok p) keys (vals.map Value.toList) := by
  induction keys with
  | nil => exact ⟨[], rfl, rfl, .nil⟩
  | cons key keys ih =>
    obtain ⟨⟨value, hvalue, hkind⟩, hrest⟩ := List.forall_mem_cons.mp h
    obtain ⟨vals, hkinds, hdims, hparams⟩ := ih hrest
    refine ⟨value :: vals, ?_, ?_, .cons (Values.parameters_eq hvalue hkind) hparams⟩
    · rw [List.map_cons, List.map_cons, hkind, hkinds]
    · rw [List.map_cons, List.sum_cons, hdims, tangentDim, Key.dim_eq_of_kind hkind]

theorem IsTyped.exists_linearization (h : r.IsTyped) (hvalues : values.Supplies r.keys) :
    ∃ l, r.linearization values = .ok l ∧ l.jacobian.nrows = r.noise.dim ∧
      l.jacobian.ncols = tangentDim r.keys := by
  obtain ⟨vals, hkinds, hdims, hparams⟩ := exists_values hvalues
  obtain ⟨l, hl, hrows, hcols⟩ := Factor.Takes.exists_linearize (hkinds ▸ h.takes)
  exact ⟨l, linearization_eq hparams hl, hrows.trans r.dim_noise.symm, hcols.trans hdims⟩

/-- **The error of a relation of the right kinds fails only at the store.** -/
theorem IsTyped.decidedBy_error (h : r.IsTyped) (values : Values α) :
    (r.error values).DecidedBy (values.firstOffence? r.keys) := by
  cases hcause : values.firstOffence? r.keys with
  | some cause =>
    rw [error, weightedResidual, linearization_eq_fail hcause]
    rfl
  | none =>
    obtain ⟨l, hl, -⟩ := h.exists_linearization (Values.firstOffence?_eq_none_iff.mp hcause)
    exact ⟨_, error_eq hl (length_residual hl)⟩

/-- **Linearising it, too.** -/
theorem IsTyped.decidedBy_linearize (h : r.IsTyped) (values : Values α) :
    (r.linearize values).DecidedBy (values.firstOffence? r.keys) := by
  cases hcause : values.firstOffence? r.keys with
  | some cause =>
    rw [linearize, evaluate, weightedResidual, linearization_eq_fail hcause]
    rfl
  | none =>
    obtain ⟨l, hl, hrows, hcols⟩ :=
      h.exists_linearization (Values.firstOffence?_eq_none_iff.mp hcause)
    exact exists_linearize hl hrows hcols h.nodup

end
end Relation

/-! ### The solution that is zero -/

/-- Weights of one change nothing. -/
theorem Noise.weigh_unit (residual : List ℝ) : (Noise.unit residual.length).weigh residual = residual := by
  rw [weigh, weights]
  refine List.ext_getElem (by simp) fun i hi hi' => ?_
  rw [List.getElem_zipWith, List.getElem_replicate, mul_one]

/-- At zero an equation is its right-hand side with the sign changed. -/
theorem LinearEquation.residual_zero {κ : Type} [DecidableEq κ] {e : LinearEquation κ ℝ} {x : Solution κ ℝ}
    (hx : ∀ b ∈ e.blocks, x.get? b.1 = some (List.replicate b.2.ncols 0)) :
    e.residual x = .ok (e.rhs.map (- ·)) := by
  obtain ⟨residual, hresidual, hlength, hentries⟩ :=
    residual_eq fun b hb => ⟨_, hx b hb, List.length_replicate⟩
  have hnone : ∀ b ∈ e.blocks, ∀ i, b.2.image (valuation x b.1) i = 0 := by
    intro b hb i
    have hzero : ∀ j, valuation x b.1 j = 0 := fun j => by
      rw [valuation_of_get? (hx b hb)]
      simp only [List.getD_eq_getElem?_getD, List.getElem?_replicate]
      split_ifs <;> rfl
    simp only [Dense.image, hzero, mul_zero, Finset.sum_const_zero]
  rw [hresidual]
  refine congrArg Except.ok (List.ext_getElem (by rw [hlength, rows, List.length_map]) fun i hi hi' => ?_)
  have hrow : i < e.rows := hlength ▸ hi
  rw [← List.getD_eq_getElem _ 0 hi, hentries i hrow, defect, List.map_congr_left fun b hb => hnone b hb i,
    List.getElem_map, List.getD_eq_getElem _ _ hrow]
  simp only [List.map_const', List.sum_replicate, smul_zero, one_mul, zero_sub]
  rfl

/-- **Without a step the equation of a relation has its error.** -/
theorem Relation.error_still {r : Relation ℝ} {values : Values ℝ} {e : LinearEquation Key ℝ}
    (he : r.linearize values = .ok e) {x : Solution Key ℝ}
    (hx : ∀ key ∈ r.keys, x.get? key = some (List.replicate key.dim 0)) :
    ∃ c, r.error values = .ok c ∧ e.error x = .ok c := by
  obtain ⟨hkeys, -, hblock⟩ := shapedAs_of_linearize he
  obtain ⟨l, hl, hlength, -, -, hrhs, hnoise⟩ := linearize_eq_ok he
  have hwidths : ∀ b ∈ e.blocks, x.get? b.1 = some (List.replicate b.2.ncols 0) := fun b hb => by
    rw [(hblock b hb).2]
    exact hx b.1 (hkeys ▸ List.mem_map_of_mem hb)
  have hresidual : e.rhs.map (- ·) = r.noise.weigh l.residual := by
    rw [hrhs, List.map_map]
    exact (List.map_congr_left fun w _ => neg_neg w).trans (List.map_id _)
  have hdim : r.factor.dim = (r.noise.weigh l.residual).length := by
    rw [Noise.length_weigh, hlength, Nat.min_self, r.dim_noise]
  refine ⟨_, error_eq hl hlength, ?_⟩
  rw [LinearEquation.error, LinearEquation.residual_zero hwidths, hresidual, hnoise, hdim]
  exact congrArg (fun xs => Except.ok (0.5 * Scalar.normSq xs)) (Noise.weigh_unit _)

/-! ### Objectives -/

namespace Objective

section

variable {α : Type} {s : Objective α} {values : Values α}

theorem mem_keys_iff {key : Key} : key ∈ s.keys ↔ key ∈ s.relations.flatMap Relation.keys :=
  mem_sortedKeys_iff

theorem supplies_keys_iff :
    values.Supplies s.keys ↔ values.Supplies (s.relations.flatMap Relation.keys) :=
  forall_congr' fun _ => imp_congr_left mem_keys_iff

/-- The first offence, relation by relation. -/
theorem firstOffence?_flatMap (relations : List (Relation α)) :
    values.firstOffence? (relations.flatMap Relation.keys) =
      relations.findSome? fun r => values.firstOffence? r.keys := by
  induction relations with
  | nil => rfl
  | cons r relations ih =>
    rw [List.flatMap_cons, Values.firstOffence?_append, ih, List.findSome?_cons]
    cases values.firstOffence? r.keys <;> rfl

variable [Scalar α]

/-- **The cost fails at the first variable with which something is wrong**, if at any. -/
theorem decidedBy_cost (hs : ∀ r ∈ s.relations, r.IsTyped) (values : Values α) :
    (s.cost values).DecidedBy (values.firstOffence? (s.relations.flatMap Relation.keys)) := by
  rw [cost, foldlM_add_eq, firstOffence?_flatMap]
  exact (Outcome.DecidedBy.mapM fun r hr => (hs r hr).decidedBy_error values).map _

/-- **Linearising fails there, too.** -/
theorem decidedBy_linearize (hs : ∀ r ∈ s.relations, r.IsTyped) (values : Values α) :
    (s.linearize values).DecidedBy (values.firstOffence? (s.relations.flatMap Relation.keys)) := by
  rw [firstOffence?_flatMap]
  exact (Outcome.DecidedBy.mapM fun r hr => (hs r hr).decidedBy_linearize values).map _

/-- **The system has one equation for each relation**, in order and of its shape. -/
theorem shapedAs_of_linearize {system : LinearSystem Key α} (h : s.linearize values = .ok system) :
    List.Forall₂ Relation.ShapedAs s.relations system.equations :=
  (forall₂_of_linearize h).imp fun _ _ => Relation.shapedAs_of_linearize

end

/-- Equations and relations have the same errors, so they have the same sum of errors. -/
theorem mapM_error_still {values : Values ℝ} {x : Solution Key ℝ} {relations : List (Relation ℝ)}
    {equations : List (LinearEquation Key ℝ)}
    (h : List.Forall₂ (fun r e => r.linearize values = .ok e) relations equations)
    (hx : ∀ key ∈ relations.flatMap Relation.keys, x.get? key = some (List.replicate key.dim 0)) :
    ∃ errors, relations.mapM (fun r => r.error values) = .ok errors ∧
      equations.mapM (fun e => e.error x) = .ok errors := by
  induction h with
  | nil => exact ⟨[], rfl, rfl⟩
  | cons he _ ih =>
    rw [List.flatMap_cons] at hx
    obtain ⟨hfirst, hrest⟩ := List.forall_mem_append.mp hx
    obtain ⟨c, hc, hstill⟩ := Relation.error_still he hfirst
    obtain ⟨errors, herrors, hstills⟩ := ih hrest
    refine ⟨c :: errors, ?_, ?_⟩
    · rw [List.mapM_cons, hc, herrors]
      rfl
    · rw [List.mapM_cons, hstill, hstills]
      rfl

/-- **Without a step the system has the cost of the relations.** -/
theorem error_still {s : Objective ℝ} {values : Values ℝ} {system : LinearSystem Key ℝ}
    (h : s.linearize values = .ok system) {x : Solution Key ℝ}
    (hx : ∀ key ∈ s.keys, x.get? key = some (List.replicate key.dim 0)) :
    ∃ c, s.cost values = .ok c ∧ system.error x = .ok c := by
  obtain ⟨errors, herrors, hstills⟩ :=
    mapM_error_still (forall₂_of_linearize h) fun key hkey => hx key (mem_keys_iff.mpr hkey)
  refine ⟨errors.foldl (· + ·) 0, ?_, ?_⟩
  · rw [cost, foldlM_add_eq, herrors]
    rfl
  · rw [LinearSystem.error, foldlM_add_eq, hstills]
    rfl

end Objective
end Kinodynamics
