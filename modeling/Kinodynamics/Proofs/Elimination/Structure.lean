/-
# The net that elimination returns

If elimination returns a net, its conditionals are those of the ordering, one for
each variable named, each well-formed, and a parent is never taken out before its
child. Whether the net can be solved depends on one more thing. Elimination stops
with an error if an equation is left on a variable that the ordering does not name,
but a variable can also leave the equations as a parent, when a step has no rows to
hand on. So the ordering may miss variables, and solving such a net reports one of
them; the net has a solution exactly if the ordering names every key.

Key definitions: `Elimination.RunShape`.
Key theorems: `Elimination.IsStep.wellFormed`, `Elimination.runShape`,
`Elimination.structure_of_eliminate`.
-/
import Kinodynamics.Proofs.Elimination.Factor
import Kinodynamics.Proofs.Elimination.Run
import Kinodynamics.Proofs.Gaussian.BackSubstitution

namespace Kinodynamics

namespace Elimination

open BayesNet (Forward Closed)

variable {κ α : Type} [LinearOrder κ] [Scalar α] [Scalar.Signed α] {D : Decompositions α}
  {widths : Assignment κ ℕ} {remaining rest : List (LinearEquation κ α)} {frontal : κ}
  {out : StepRows α} {hardRest softRest : List (LinearEquation κ α)} {c : Conditional κ α}

/-! ### One step -/

/-- The rows that become the conditional have sound pivots, with or without hard rows. -/
theorem IsStep.isConditional (hD : D.IsTriangular)
    (h : IsStep D widths remaining frontal out hardRest softRest c rest) :
    IsConditional (widthOf widths frontal) (width (separating widths remaining frontal) + 1)
      out.conditional := by
  have hred := h.reduced_eq
  unfold reduced at hred
  split_ifs at hred with hhard
  · obtain ⟨hpivots, hout⟩ := stepSoft_eq_ok_iff.mp hred
    rw [hout]
    exact (isConditional_upperFactor hD rfl hpivots).view
  · obtain ⟨gain, softTop, hstep⟩ := isHardStep_of_stepHard hred
    have hpivots := hstep.pivots
    rw [hstep.conditional_eq] at hpivots ⊢
    refine isConditional_upperFactor hD ?_ hpivots
    show widthOf widths frontal + (widthOf widths frontal + width _ + 1 - widthOf widths frontal) = _
    omega

/-- **The conditional of a step is well-formed.** -/
theorem IsStep.wellFormed (hD : D.IsTriangular)
    (h : IsStep D widths remaining frontal out hardRest softRest c rest) :
    c.WellFormed (widthOf widths) := by
  have hcond := h.isConditional hD
  have hparents := h.parents_eq
  rw [h.conditional_eq] at hparents ⊢
  set n := widthOf widths frontal with hn
  have hr : ∀ i < n, ∀ j < n,
      ((out.conditional.view 0 0 n out.conditional.ncols).view 0 0 n n).entry i j =
        out.conditional.entry i j := by
    intro i hi j hj
    have hc : j < out.conditional.ncols := by
      have := hcond.ncols_eq
      omega
    rw [Dense.entry_view _ hi hj, Dense.entry_view _ (by omega) (by omega)]
    simp only [Nat.zero_add]
  constructor
  · rfl
  · rfl
  · intro i j hij
    by_cases hi : i < n
    · have hzero := hcond.isZero_below i j hij
      rwa [← hr i hi j (hij.trans hi)] at hzero
    · have hzero : Scalar.IsZero (0 : α) := Scalar.Signed.isZero_zero
      rwa [← Dense.entry_of_nrows_le ((out.conditional.view 0 0 n out.conditional.ncols).view 0 0 n n)
        (not_lt.mp hi) j] at hzero
  · intro i hi
    have hpivot := hcond.pivot i hi
    rwa [← hr i hi i hi] at hpivot
  · rw [Conditional.parentKeys, hparents]
    exact pairwise_separating
  · intro b hb
    obtain ⟨h1, h2⟩ := shape_of_mem_cut hb
    exact ⟨h1, (widthOf_of_mem_separating h2).symm⟩
  · exact Dense.length_column _ _

/-! ### The run -/

/-- What a run over `ordering` returns, from equations `remaining` to equations `final`. -/
structure RunShape (dim : κ → ℕ) (ordering : List κ) (remaining final : List (LinearEquation κ α))
    (conditionals : List (Conditional κ α)) : Prop where
  frontals_eq : conditionals.map Conditional.frontal = ordering
  wellFormed : ∀ c ∈ conditionals, c.WellFormed dim
  forward : Forward conditionals
  frontal_mem : ∀ k ∈ ordering, k ∈ mentioned remaining
  parent_mem : ∀ c ∈ conditionals, ∀ k ∈ c.parentKeys, k ∈ mentioned remaining
  covered : ∀ k ∈ mentioned remaining,
    k ∈ ordering ∨ k ∈ mentioned final ∨ ∃ c ∈ conditionals, k ∈ c.parentKeys

/-- A step before a run: its variable is mentioned no more. -/
theorem RunShape.cons (hD : D.IsTriangular) {ordering : List κ}
    {final : List (LinearEquation κ α)} {conditionals : List (Conditional κ α)}
    (hstep : IsStep D widths remaining frontal out hardRest softRest c rest)
    (h : RunShape (widthOf widths) ordering rest final conditionals) :
    RunShape (widthOf widths) (frontal :: ordering) remaining final (c :: conditionals) := by
  have hfrontal := hstep.frontal_eq
  have hgone : frontal ∉ mentioned rest := fun hm => (hstep.mem_mentioned_rest hm).2 rfl
  have hparent : ∀ {k}, k ∈ c.parentKeys →
      k ≠ frontal ∧ k ∈ mentioned (touching remaining frontal) := fun {k} hk => by
    rw [Conditional.parentKeys, hstep.parents_eq] at hk
    exact mem_separating.mp hk
  have hremaining : ∀ {k}, k ∈ mentioned (touching remaining frontal) → k ∈ mentioned remaining :=
    fun {k} hk => by
      obtain ⟨r, hr, hkr⟩ := mem_mentioned.mp hk
      exact mem_mentioned.mpr ⟨r, (mem_touching.mp hr).1, hkr⟩
  constructor
  · rw [List.map_cons, h.frontals_eq, hfrontal]
  · exact List.forall_mem_cons.mpr ⟨hstep.wellFormed hD, h.wellFormed⟩
  · constructor
    · rw [List.map_cons, h.frontals_eq, hfrontal]
      exact List.nodup_cons.mpr ⟨fun hm => hgone (h.frontal_mem _ hm),
        h.frontals_eq ▸ h.forward.nodup⟩
    · exact List.forall_mem_cons.mpr ⟨fun hm => (hparent hm).1 hfrontal, h.forward.parent_ne⟩
    · refine List.pairwise_cons.mpr ⟨fun c' hc' hm => ?_, h.forward.later⟩
      rw [hfrontal] at hm
      exact hgone (h.parent_mem c' hc' _ hm)
  · exact List.forall_mem_cons.mpr ⟨hstep.frontal_mem,
      fun k hk => (hstep.mem_mentioned_rest (h.frontal_mem k hk)).1⟩
  · exact List.forall_mem_cons.mpr ⟨fun k hk => hremaining (hparent hk).2,
      fun c' hc' k hk => (hstep.mem_mentioned_rest (h.parent_mem c' hc' k hk)).1⟩
  · intro k hk
    rcases hstep.mem_of_mem_mentioned hk with rfl | hrest | hp
    · exact Or.inl List.mem_cons_self
    · rcases h.covered k hrest with ho | hf | ⟨c', hc', hk'⟩
      · exact Or.inl (List.mem_cons_of_mem _ ho)
      · exact Or.inr (Or.inl hf)
      · exact Or.inr (Or.inr ⟨c', List.mem_cons_of_mem _ hc', hk'⟩)
    · exact Or.inr (Or.inr ⟨c, List.mem_cons_self, hp⟩)

/-- **The shape of a run**, by induction on the ordering. -/
theorem runShape (hD : D.IsTriangular) : ∀ {ordering : List κ}
    {remaining final : List (LinearEquation κ α)} {conditionals : List (Conditional κ α)},
    eliminateAll D widths ordering remaining = .ok (conditionals, final) →
      RunShape (widthOf widths) ordering remaining final conditionals
  | [], remaining, final, conditionals, h => by
    cases h
    exact ⟨rfl, by simp, ⟨List.nodup_nil, by simp, List.Pairwise.nil⟩, by simp, by simp,
      fun k hk => Or.inr (Or.inl hk)⟩
  | frontal :: ordering, remaining, final, conditionals, h => by
    obtain ⟨c, rest, later, hnext, hrun, rfl⟩ := eliminateAll_cons_eq_ok h
    obtain ⟨out, hardRest, softRest, hstep⟩ := isStep_of_eliminateNext hnext
    exact (runShape hD hrun).cons hD hstep

/-! ### The net -/

/-- The shape of the net, in terms of the system. -/
theorem runShape_of_eliminate (hD : D.IsTriangular) {s : LinearSystem κ α} {ordering : List κ}
    {net : BayesNet κ α} (h : eliminate D s ordering = .ok net) :
    ∃ final, mentioned final = [] ∧
      RunShape s.dim ordering (prepared s) final net.conditionals := by
  obtain ⟨w, final, hw, hrun, hnil⟩ := eliminate_eq_ok_iff.mp h
  have hdim : widthOf w = s.dim := funext (widths_eq_ok hw).2
  exact ⟨final, hnil, hdim ▸ runShape hD hrun⟩

/-- Every parent is a variable of the net just if the ordering names every key. -/
theorem closed_iff_of_eliminate (hD : D.IsTriangular) {s : LinearSystem κ α} {ordering : List κ}
    {net : BayesNet κ α} (h : eliminate D s ordering = .ok net) :
    Closed net.conditionals ↔ ∀ k ∈ s.keys, k ∈ ordering := by
  obtain ⟨final, hnil, hshape⟩ := runShape_of_eliminate hD h
  constructor
  · intro hclosed k hk
    rcases hshape.covered k (mem_keys_iff_prepared.mp hk) with ho | hf | ⟨c, hc, hp⟩
    · exact ho
    · rw [hnil] at hf
      cases hf
    · exact hshape.frontals_eq ▸ hclosed c hc k hp
  · intro hall c hc k hk
    rw [hshape.frontals_eq]
    exact hall k (mem_keys_iff_prepared.mpr (hshape.parent_mem c hc k hk))

/-- **The net has a solution exactly if the ordering names every key**, and the solution fits
the system. -/
theorem exists_solve_iff (hD : D.IsTriangular) {s : LinearSystem κ α} {ordering : List κ}
    {net : BayesNet κ α} (h : eliminate D s ordering = .ok net) :
    (∃ x, net.solve = .ok x) ↔ ∀ k ∈ s.keys, k ∈ ordering := by
  obtain ⟨final, -, hshape⟩ := runShape_of_eliminate hD h
  rw [← closed_iff_of_eliminate hD h]
  rcases BayesNet.solve_eq hshape.forward hshape.wellFormed with
    ⟨hclosed, x, hx, -⟩ | ⟨c, hc, k, hk, hnot, hfail⟩
  · exact ⟨fun _ => hclosed, fun _ => ⟨x, hx⟩⟩
  · refine ⟨fun ⟨x, hx⟩ => ?_, fun hclosed => absurd (hclosed c hc k hk) hnot⟩
    have hx : BayesNet.solve ⟨net.conditionals⟩ = .ok x := hx
    rw [hfail] at hx
    cases hx

/-- If the ordering misses a key, solving the net reports one that it misses. -/
theorem missingSolution_of_eliminate (hD : D.IsTriangular) {s : LinearSystem κ α} {ordering : List κ}
    {net : BayesNet κ α} (h : eliminate D s ordering = .ok net) (hmiss : ∃ k ∈ s.keys, k ∉ ordering) :
    ∃ k ∈ s.keys, k ∉ ordering ∧ net.solve = Outcome.fail (.missingSolution k) := by
  obtain ⟨final, -, hshape⟩ := runShape_of_eliminate hD h
  rcases BayesNet.solve_eq hshape.forward hshape.wellFormed with
    ⟨hclosed, -⟩ | ⟨c, hc, k, hk, hnot, hfail⟩
  · obtain ⟨k, hk, hno⟩ := hmiss
    exact absurd ((closed_iff_of_eliminate hD h).mp hclosed k hk) hno
  · have hmem := hshape.parent_mem c hc k hk
    exact ⟨k, mem_keys_iff_prepared.mpr hmem, hshape.frontals_eq ▸ hnot, hfail⟩

theorem fits_of_solve (hD : D.IsTriangular) {s : LinearSystem κ α} {ordering : List κ}
    {net : BayesNet κ α} (h : eliminate D s ordering = .ok net) {x : Solution κ α}
    (hx : net.solve = .ok x) : s.Fits x := by
  obtain ⟨final, -, hshape⟩ := runShape_of_eliminate hD h
  have hall := (exists_solve_iff hD h).mp ⟨x, hx⟩
  rcases BayesNet.solve_eq hshape.forward hshape.wellFormed with
    ⟨-, y, hy, hperm, hsizes⟩ | ⟨c, hc, k, hk, hnot, hfail⟩
  · obtain rfl : x = y := Except.ok.inj (hx.symm.trans hy)
    intro k hk
    have hmem : k ∈ x.keys := hperm.mem_iff.mpr (hshape.frontals_eq ▸ hall k hk)
    obtain ⟨v, hv⟩ := Option.isSome_iff_exists.mp (Assignment.get?_isSome_iff.mpr hmem)
    exact ⟨v, hv, hsizes k v hv⟩
  · have hx : BayesNet.solve ⟨net.conditionals⟩ = .ok x := hx
    rw [hfail] at hx
    cases hx

/-- A parent is a key of the system, and is taken out later if the ordering names it. -/
theorem parents_of_eliminate (hD : D.IsTriangular) {s : LinearSystem κ α} {ordering : List κ}
    {net : BayesNet κ α} (h : eliminate D s ordering = .ok net) {before after : List (Conditional κ α)}
    {c : Conditional κ α} (heq : net.conditionals = before ++ c :: after) {k : κ}
    (hk : k ∈ c.parentKeys) :
    k ∈ s.keys ∧ (k ∈ ordering → k ∈ after.map Conditional.frontal) := by
  obtain ⟨final, -, hshape⟩ := runShape_of_eliminate hD h
  have hc : c ∈ net.conditionals := by
    rw [heq]
    exact List.mem_append_right _ List.mem_cons_self
  refine ⟨mem_keys_iff_prepared.mpr (hshape.parent_mem c hc k hk), fun ho => ?_⟩
  rw [← hshape.frontals_eq, heq] at ho
  exact (heq ▸ hshape.forward).mem_of_append hk ho

/-- **What elimination returns.** The ordering has no repeated key and keys of the system
only, and is the ordering of the net; every conditional is well-formed, and its pivots are
above the negligible size unless they are undefined; a parent is a key of the system that is
taken out later, or not at all. If the ordering names every key, a parent is taken out later,
and the net has a solution, with one value of the right size for each key. If it misses one,
solving the net reports a missing one. -/
theorem structure_of_eliminate (hD : D.IsTriangular) {s : LinearSystem κ α} {ordering : List κ}
    {net : BayesNet κ α} (h : eliminate D s ordering = .ok net) :
    ordering.Nodup ∧ (∀ k ∈ ordering, k ∈ s.keys) ∧ net.ordering = ordering ∧
    (∀ c ∈ net.conditionals, c.WellFormed s.dim ∧ ∀ i < s.dim c.frontal,
      c.r.entry i i ≤ c.r.entry i i → negligiblePivot < c.r.entry i i) ∧
    (∀ before c after, net.conditionals = before ++ c :: after → ∀ k ∈ c.parentKeys,
      k ∈ s.keys ∧ (k ∈ after.map Conditional.frontal ∨ k ∉ ordering)) ∧
    ((∀ k ∈ s.keys, k ∈ ordering) →
      (∀ before c after, net.conditionals = before ++ c :: after → ∀ k ∈ c.parentKeys,
        k ∈ after.map Conditional.frontal) ∧
      ∃ x, net.solve = .ok x ∧ x.keys.Nodup ∧ (∀ k, k ∈ x.keys ↔ k ∈ s.keys) ∧
        ∀ k v, x.get? k = some v → v.length = s.dim k) ∧
    ((∃ k ∈ s.keys, k ∉ ordering) →
      ∃ k ∈ s.keys, k ∉ ordering ∧ net.solve = Outcome.fail (.missingSolution k)) := by
  obtain ⟨final, -, hshape⟩ := runShape_of_eliminate hD h
  have hkeys : ∀ k ∈ ordering, k ∈ s.keys := fun k hk =>
    mem_keys_iff_prepared.mpr (hshape.frontal_mem k hk)
  refine ⟨hshape.frontals_eq ▸ hshape.forward.nodup, hkeys, hshape.frontals_eq, fun c hc => ?_,
    fun before c after heq k hk => ?_, fun hall => ⟨fun before c after heq k hk => ?_, ?_⟩,
    missingSolution_of_eliminate hD h⟩
  · have hwell := hshape.wellFormed c hc
    exact ⟨hwell, fun i hi => hwell.pivot_gt hi⟩
  · obtain ⟨hkey, hlater⟩ := parents_of_eliminate hD h heq hk
    by_cases ho : k ∈ ordering
    · exact ⟨hkey, Or.inl (hlater ho)⟩
    · exact ⟨hkey, Or.inr ho⟩
  · obtain ⟨hkey, hlater⟩ := parents_of_eliminate hD h heq hk
    exact hlater (hall k hkey)
  · rcases BayesNet.solve_eq hshape.forward hshape.wellFormed with
      ⟨-, x, hx, hperm, hsizes⟩ | ⟨c, hc, k, hk, hnot, -⟩
    · refine ⟨x, hx, hperm.nodup_iff.mpr hshape.forward.nodup, fun k => ?_, hsizes⟩
      rw [hperm.mem_iff, hshape.frontals_eq]
      exact ⟨hkeys k, hall k⟩
    · exact absurd ((closed_iff_of_eliminate hD h).mpr hall c hc k hk) hnot

/-! ### Sums of variables -/

/-- The equation `Σ xₖ = b` on variables of one entry, to hold exactly or not. A key counts
once. -/
def sumEquation {α : Type} [Scalar α] (hard : Bool) (keys : List ℕ) (b : α) : LinearEquation ℕ α where
  blocks := keys.dedup.map fun k => (k, Dense.ofRows 1 [[1]])
  rhs := [b]
  noise := if hard then .constrained 1 else .unit 1
  noise_dim := by cases hard <;> rfl
  block_nrows := fun b hb => by
    obtain ⟨k, -, rfl⟩ := List.mem_map.mp hb
    rfl
  keys_nodup := by
    rw [List.map_map]
    exact (List.map_id keys.dedup).symm ▸ keys.nodup_dedup

/-- The soft equations `x₀ + x₁ = 3`, `x₀ = 1` and `x₁ = 1`. -/
def softTriangle {α : Type} [Scalar α] : LinearSystem ℕ α :=
  ⟨[sumEquation false [0, 1] 3.0, sumEquation false [0] 1,
    sumEquation false [1] 1]⟩

theorem exists_ok_of_isOk {ε α : Type} {x : Except ε α} (h : x.isOk = true) : ∃ a, x = .ok a := by
  cases x with
  | ok a => exact ⟨a, rfl⟩
  | error e => cases h

/-- Binary64 numbers, and an ordering that names every key. -/
theorem structure_softTriangle : ∃ net : BayesNet ℕ Float,
    eliminate .standard softTriangle [0, 1] = .ok net ∧ net.ordering = [0, 1] ∧
      (∀ c ∈ net.conditionals, c.WellFormed (softTriangle (α := Float)).dim) ∧
      ∃ x, net.solve = .ok x ∧ ∀ k, k ∈ x.keys ↔ k ∈ [0, 1] := by
  have hok : (eliminate .standard (softTriangle (α := Float)) [0, 1]).isOk = true := by decide +kernel
  obtain ⟨net, hnet⟩ := exists_ok_of_isOk hok
  have hkeys : (softTriangle (α := Float)).keys = [0, 1] := rfl
  obtain ⟨-, -, hordering, hwell, -, hall, -⟩ :=
    structure_of_eliminate Decompositions.standard_isTriangular hnet
  obtain ⟨-, x, hx, -, hxkeys, -⟩ := hall fun k hk => hkeys ▸ hk
  exact ⟨net, hnet, hordering, fun c hc => (hwell c hc).1, x, hx, fun k => by rw [hxkeys, hkeys]⟩

/-- The soft equation `x₀ + x₁ = b`. -/
def softSum {α : Type} [Scalar α] (b : α) : LinearSystem ℕ α :=
  ⟨[sumEquation false [0, 1] b]⟩

/-- An ordering that misses a key can pass. The first to miss it is the solution. -/
theorem softSum_misses_key : 1 ∈ (softSum (1 : Float)).keys ∧ ∃ net : BayesNet ℕ Float,
    eliminate .standard (softSum 1) [0] = .ok net ∧
      net.solve = Outcome.fail (.missingSolution 1) := by
  have hok : (eliminate .standard (softSum (1 : Float)) [0]).isOk = true := by decide +kernel
  obtain ⟨net, hnet⟩ := exists_ok_of_isOk hok
  have hkeys : (softSum (1 : Float)).keys = [0, 1] := rfl
  obtain ⟨k, hk, hno, hfail⟩ := missingSolution_of_eliminate Decompositions.standard_isTriangular hnet
    ⟨1, by rw [hkeys]; decide, by decide⟩
  rw [hkeys] at hk ⊢
  obtain rfl : k = 1 := by
    rcases List.mem_cons.mp hk with rfl | hk
    · exact absurd List.mem_cons_self hno
    · exact List.mem_singleton.mp hk
  exact ⟨by decide, net, hnet, hfail⟩

end Elimination
end Kinodynamics
