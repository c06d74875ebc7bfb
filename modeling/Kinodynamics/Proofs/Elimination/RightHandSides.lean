/-
# A run does not read right-hand sides

Two systems with the same blocks and noise models are eliminated step by step with the
same tests: the equations that remain are alike (`Similar`), so the stacks of the next step
are. In particular a system goes as its homogeneous one does, whose hard equations have a
common solution. A contradiction between hard equations is in their right-hand sides only.

Key definitions: `LinearEquation.Similar`, `LinearSystem.homogeneous`.
Key theorems: `Elimination.alike_eliminateNext`, `Elimination.alike_eliminate`,
`Elimination.solves_iff_homogeneous`.
-/
import Kinodynamics.Proofs.Elimination.HardCoefficients
import Kinodynamics.Proofs.Elimination.LeastSquares
import Kinodynamics.Proofs.Elimination.Rows

namespace Kinodynamics

open Finset
open List (Forall₂)

variable {κ : Type}

namespace LinearEquation

/-- The keys of an equation with the widths of their blocks. -/
def shape {α : Type} (r : LinearEquation κ α) : List (κ × ℕ) :=
  r.blocks.map fun b => (b.1, b.2.ncols)

/-- Equations on the same variables, of one number of rows and one kind, with the same
energy where the right-hand side is left out. -/
structure Similar (r r' : LinearEquation κ ℝ) : Prop where
  shape_eq : r.shape = r'.shape
  rows_eq : r.rows = r'.rows
  isHard_eq : r.isHard = r'.isHard
  energy_eq : ∀ x, r.energy 0 x = r'.energy 0 x

theorem map_fst_shape {α : Type} (r : LinearEquation κ α) : r.shape.map Prod.fst = r.keys := by
  rw [shape, List.map_map]
  rfl

theorem Similar.keys_eq {r r' : LinearEquation κ ℝ} (h : Similar r r') : r.keys = r'.keys := by
  rw [← map_fst_shape, ← map_fst_shape, h.shape_eq]

theorem Similar.mentions_eq [DecidableEq κ] {r r' : LinearEquation κ ℝ} (h : Similar r r') (k : κ) :
    r.mentions k = r'.mentions k := by
  rw [Bool.eq_iff_iff, LinearEquation.mentions_iff, LinearEquation.mentions_iff, h.keys_eq]

/-- The same blocks, rows and kind. -/
theorem similar_of_blocks_eq {r r' : LinearEquation κ ℝ} (hblocks : r.blocks = r'.blocks)
    (hrows : r.rows = r'.rows) (hhard : r.isHard = r'.isHard) : Similar r r' := by
  refine ⟨by rw [shape, shape, hblocks], hrows, hhard, fun x => ?_⟩
  rw [energy, energy, ← hrows]
  refine sum_congr rfl fun i _ => ?_
  rw [defect, defect, hblocks, zero_mul, zero_mul]

/-- The equation with right-hand side zero. -/
def homogeneous {α : Type} [Zero α] (r : LinearEquation κ α) : LinearEquation κ α where
  blocks := r.blocks
  rhs := List.replicate r.rhs.length 0
  noise := r.noise
  noise_dim := by rw [List.length_replicate, r.noise_dim]
  block_nrows := by
    rw [List.length_replicate]
    exact r.block_nrows
  keys_nodup := r.keys_nodup

end LinearEquation

open LinearEquation (Similar similar_of_blocks_eq)

/-- The system with all right-hand sides zero. -/
def LinearSystem.homogeneous {α : Type} [Zero α] (s : LinearSystem κ α) : LinearSystem κ α :=
  ⟨s.equations.map LinearEquation.homogeneous⟩

namespace Elimination

/-! ### Equations that are alike -/

section Equations

variable {a b : List (LinearEquation κ ℝ)}

theorem mentioned_eq_of_similar (h : Forall₂ Similar a b) : mentioned a = mentioned b := by
  induction h with
  | nil => rfl
  | cons hr _ ih =>
    rw [mentioned, mentioned, List.flatMap_cons, List.flatMap_cons, hr.keys_eq]
    exact congrArg _ ih

theorem totalRows_eq_of_similar (h : Forall₂ Similar a b) : totalRows a = totalRows b := by
  induction h with
  | nil => rfl
  | cons hr _ ih => rw [totalRows, totalRows, hr.rows_eq, ih]

theorem totalEnergy_eq_of_similar (h : Forall₂ Similar a b) (x : Valuation κ) :
    totalEnergy a 0 x = totalEnergy b 0 x := by
  induction h with
  | nil => rfl
  | cons hr _ ih => rw [totalEnergy_cons, totalEnergy_cons, hr.energy_eq, ih]

theorem similar_filter {p : LinearEquation κ ℝ → Bool} (hp : ∀ r r', Similar r r' → p r = p r')
    (h : Forall₂ Similar a b) : Forall₂ Similar (a.filter p) (b.filter p) :=
  List.rel_filter (fun r r' hr => iff_of_eq (congrArg (· = true) (hp r r' hr))) h

/-- The blocks of equations that are alike have the same keys and widths. -/
theorem forall_shape_of_similar (h : Forall₂ Similar a b) {P : κ × ℕ → Prop}
    (ha : ∀ r ∈ a, ∀ l ∈ r.blocks, P (l.1, l.2.ncols)) :
    ∀ r ∈ b, ∀ l ∈ r.blocks, P (l.1, l.2.ncols) := by
  induction h with
  | nil => exact fun r hr => by cases hr
  | @cons r r' _ _ hr _ ih =>
    refine List.forall_mem_cons.mpr ⟨fun l hl => ?_, ih fun r hr => ha r (List.mem_cons_of_mem _ hr)⟩
    have hmem : (l.1, l.2.ncols) ∈ r.shape := by
      rw [hr.shape_eq]
      exact List.mem_map.mpr ⟨l, hl, rfl⟩
    obtain ⟨l', hl', heq⟩ := List.mem_map.mp hmem
    exact heq ▸ ha r List.mem_cons_self l' hl'

end Equations

/-! ### Stacks and remainders that are alike -/

section Stacks

/-- Equations that are alike make stacks with the same coefficients. -/
theorem sameCoefficients_stackRows [DecidableEq κ] {layout : Layout κ}
    (hnodup : (layout.map Prod.fst).Nodup) {a b : List (LinearEquation κ ℝ)} (h : Forall₂ Similar a b)
    (ha : ∀ r ∈ a, ∀ l ∈ r.blocks, (l.1, l.2.ncols) ∈ layout) :
    SameCoefficients (width layout) (stackRows layout a) (stackRows layout b) := by
  refine ⟨?_, rfl, rfl, fun v hv => ?_⟩
  · rw [nrows_stackRows, nrows_stackRows, totalRows_eq_of_similar h]
  have hspread : ∀ j < width layout + 1, v j = spread 0 (valuationOver layout v) layout j := by
    intro j hj
    by_cases hjw : j < width layout
    · exact (spread_valuationOver 0 v hnodup j hjw).symm
    · rw [hv j (by omega), spread_zero_of_le _ (by omega)]
  have hb : ∀ r ∈ b, ∀ l ∈ r.blocks, (l.1, l.2.ncols) ∈ layout :=
    forall_shape_of_similar h (P := fun l => l ∈ layout) ha
  calc (stackRows layout a).energy v
      = (stackRows layout a).energy (spread 0 (valuationOver layout v) layout) :=
        Dense.energy_congr _ hspread
    _ = totalEnergy a 0 (valuationOver layout v) := energy_stackRows hnodup ha 0 _
    _ = totalEnergy b 0 (valuationOver layout v) := totalEnergy_eq_of_similar h _
    _ = (stackRows layout b).energy (spread 0 (valuationOver layout v) layout) :=
        (energy_stackRows hnodup hb 0 _).symm
    _ = (stackRows layout b).energy v := (Dense.energy_congr _ hspread).symm

theorem map_shape_cut (a : Dense ℝ) : ∀ (c : ℕ) (layout : Layout κ),
    (cut a c layout).map (fun b => (b.1, b.2.ncols)) = layout
  | _, [] => rfl
  | c, (key, n) :: layout => by
    rw [cut, List.map_cons, map_shape_cut a (c + n) layout]
    rfl

/-- Remainders of rows with the same coefficients are alike. -/
theorem similar_of_isRemainder {layout : Layout κ} (hl : layout ≠ []) {rest rest' : Dense ℝ}
    (hrest : SameCoefficients (width layout) rest rest') {noise : ℕ → Noise ℝ}
    {equations equations' : List (LinearEquation κ ℝ)} (h : IsRemainder layout rest noise equations)
    (h' : IsRemainder layout rest' noise equations') : Forall₂ Similar equations equations' := by
  have henergy : ∀ x, totalEnergy equations 0 x = totalEnergy equations' 0 x := fun x => by
    rw [h.totalEnergy_zero_eq hrest.ncols_left, h'.totalEnergy_zero_eq hrest.ncols_right]
    exact hrest.energy_eq _ fun j hj => spread_zero_of_le x hj
  rcases h with ⟨rfl, h⟩ | ⟨r, rfl, -, hrows, hblocks, hrhs, hnoise⟩ <;>
    rcases h' with ⟨rfl, h'⟩ | ⟨r', rfl, -, hrows', hblocks', hrhs', hnoise'⟩
  · exact Forall₂.nil
  · exact absurd (hrest.nrows_eq ▸ h.resolve_left hl) hrows'
  · exact absurd (hrest.nrows_eq.trans (h'.resolve_left hl)) hrows
  · refine Forall₂.cons ⟨?_, ?_, ?_, fun x => ?_⟩ Forall₂.nil
    · rw [LinearEquation.shape, LinearEquation.shape, hblocks, hblocks', map_shape_cut, map_shape_cut]
    · rw [LinearEquation.rows, LinearEquation.rows, hrhs, hrhs', Dense.length_column,
        Dense.length_column, hrest.nrows_eq]
    · rw [LinearEquation.isHard, LinearEquation.isHard, hnoise, hnoise', hrest.nrows_eq]
    · simpa using henergy x

end Stacks

/-! ### Steps that are alike -/

section Steps

variable [LinearOrder κ] {D : Decompositions ℝ} {widths : Assignment κ ℕ}
  {remaining remaining' : List (LinearEquation κ ℝ)} {frontal : κ}

theorem similar_touching (h : Forall₂ Similar remaining remaining') (frontal : κ) :
    Forall₂ Similar (touching remaining frontal) (touching remaining' frontal) :=
  similar_filter (fun _ _ hr => hr.mentions_eq frontal) h

theorem similar_untouched (h : Forall₂ Similar remaining remaining') (frontal : κ) :
    Forall₂ Similar (untouched remaining frontal) (untouched remaining' frontal) :=
  similar_filter (fun _ _ hr => by rw [hr.mentions_eq frontal]) h

theorem separating_eq_of_similar (h : Forall₂ Similar remaining remaining') (frontal : κ) :
    separating widths remaining frontal = separating widths remaining' frontal := by
  have hmentioned := mentioned_eq_of_similar (similar_touching h frontal)
  exact congrArg (fun keys => (sortedKeys (keys.filter fun key => key ≠ frontal)).map
    fun key => (key, widthOf widths key)) hmentioned

theorem layoutOf_eq_of_similar (h : Forall₂ Similar remaining remaining') (frontal : κ) :
    layoutOf widths remaining frontal = layoutOf widths remaining' frontal := by
  rw [layoutOf, layoutOf, separating_eq_of_similar h]

/-- The stacks of a step have the same coefficients. -/
theorem sameCoefficients_stack (hfit : Fitted widths remaining)
    (h : Forall₂ Similar remaining remaining') (frontal : κ) {p : LinearEquation κ ℝ → Bool}
    (hp : ∀ r r', Similar r r' → p r = p r') :
    SameCoefficients (widthOf widths frontal + width (separating widths remaining frontal))
      (stackRows (layoutOf widths remaining frontal) ((touching remaining frontal).filter p))
      (stackRows (layoutOf widths remaining' frontal) ((touching remaining' frontal).filter p)) := by
  rw [← layoutOf_eq_of_similar h]
  exact sameCoefficients_stackRows nodup_layoutOf (similar_filter hp (similar_touching h frontal))
    fun r hr l hl => hfit.mem_layoutOf (List.mem_of_mem_filter hr) hl

/-- The rows of a step are alike, whichever way it goes. -/
theorem alike_reduced (hD : D.IsExact) (hS : D.IsComplete) (hfit : Fitted widths remaining)
    (h : Forall₂ Similar remaining remaining') :
    Alike (SameRows (widthOf widths frontal) (width (separating widths remaining frontal)))
      (reduced D widths remaining frontal) (reduced D widths remaining' frontal) := by
  have hkind : ∀ r r' : LinearEquation κ ℝ, Similar r r' → r.isHard = r'.isHard :=
    fun _ _ hr => hr.isHard_eq
  have hhard := sameCoefficients_stack hfit h frontal hkind
  have hsoft := sameCoefficients_stack (p := fun r => !r.isHard) hfit h frontal
    fun r r' hr => by rw [hr.isHard_eq]
  have hnil : (hardOn remaining frontal).isEmpty = (hardOn remaining' frontal).isEmpty := by
    have hlen := (similar_filter hkind (similar_touching h frontal)).length_eq
    rw [Bool.eq_iff_iff, List.isEmpty_iff_length_eq_zero, List.isEmpty_iff_length_eq_zero, hardOn,
      hardOn, hlen]
  rw [reduced, reduced, ← hnil]
  exact Alike.ite Iff.rfl (fun _ => alike_stepSoft hD hsoft) fun _ => alike_stepHard hD hS hhard hsoft

/-- The remainders of a step are alike. -/
theorem alike_remainders (h : Forall₂ Similar remaining remaining') {out out' : StepRows ℝ}
    (hout : SameRows (widthOf widths frontal) (width (separating widths remaining frontal)) out out') :
    Alike (Forall₂ Similar) (remainders widths remaining frontal out)
      (remainders widths remaining' frontal out') := by
  rw [remainders, remainders, ← separating_eq_of_similar h]
  refine Alike.ite Iff.rfl (fun _ => Alike.ok Forall₂.nil) fun hempty => ?_
  have hl : separating widths remaining frontal ≠ [] := fun h0 => hempty (by rw [h0]; rfl)
  have hnodup : ((separating widths remaining frontal).map Prod.fst).Nodup :=
    pairwise_separating.imp fun hlt => hlt.ne
  have hpart : ∀ noise : ℕ → Noise ℝ, (∀ n, (noise n).dim = n) → ∀ {rest rest' : Dense ℝ},
      SameCoefficients (width (separating widths remaining frontal)) rest rest' →
      ∃ equations equations', Forall₂ Similar equations equations' ∧
        remainder (separating widths remaining frontal) rest noise = .ok equations ∧
        remainder (separating widths remaining frontal) rest' noise = .ok equations' := by
    intro noise hnoise rest rest' hrest
    obtain ⟨equations, hok, hrem⟩ := exists_remainder hl hnodup noise hnoise rest
    obtain ⟨equations', hok', hrem'⟩ := exists_remainder hl hnodup noise hnoise rest'
    exact ⟨equations, equations', similar_of_isRemainder hl hrest hrem hrem', hok, hok'⟩
  obtain ⟨hard, hard', hhard, hok, hok'⟩ := hpart .constrained (fun _ => rfl) hout.hard
  obtain ⟨soft, soft', hsoft, hok₂, hok₂'⟩ := hpart .unit (fun _ => rfl) hout.soft
  rw [hok, hok', hok₂, hok₂']
  exact Alike.ok (List.rel_append hhard hsoft)

/-- **One step** goes the same way and leaves equations that are alike. -/
theorem alike_eliminateNext (hD : D.IsExact) (hS : D.IsComplete) (hfit : Fitted widths remaining)
    (h : Forall₂ Similar remaining remaining') (frontal : κ) :
    Alike (fun a b => Forall₂ Similar a.2 b.2) (eliminateNext D widths remaining frontal)
      (eliminateNext D widths remaining' frontal) := by
  have htouching := similar_touching h frontal
  have hempty : (touching remaining frontal).isEmpty = (touching remaining' frontal).isEmpty := by
    rw [Bool.eq_iff_iff, List.isEmpty_iff_length_eq_zero, List.isEmpty_iff_length_eq_zero,
      htouching.length_eq]
  rw [eliminateNext_eq, eliminateNext_eq, ← hempty, ← totalRows_eq_of_similar htouching]
  refine Alike.ite Iff.rfl (fun _ => Alike.error _) fun _ => ?_
  refine Alike.ite Iff.rfl (fun _ => Alike.error _) fun _ => ?_
  refine Alike.bind (alike_reduced hD hS hfit h) fun out out' _ hout => ?_
  refine Alike.bind (alike_remainders h hout) fun more more' _ hmore => ?_
  exact Alike.ok (List.rel_append (similar_untouched h frontal) hmore)

/-- **A run**, by induction on the ordering. -/
theorem alike_eliminateAll (hD : D.IsExact) (hS : D.IsComplete) : ∀ {ordering : List κ}
    {remaining remaining' : List (LinearEquation κ ℝ)}, Fitted widths remaining →
    Forall₂ Similar remaining remaining' →
      Alike (fun a b => Forall₂ Similar a.2 b.2) (eliminateAll D widths ordering remaining)
        (eliminateAll D widths ordering remaining')
  | [], _, _, _, h => Alike.ok h
  | frontal :: ordering, remaining, remaining', hfit, h => by
    rw [eliminateAll, eliminateAll]
    refine Alike.bind (alike_eliminateNext hD hS hfit h frontal) fun a b hnext hrest => ?_
    obtain ⟨c, rest⟩ := a
    obtain ⟨out, hardRest, softRest, hstep⟩ := isStep_of_eliminateNext hnext
    exact Alike.bind (alike_eliminateAll hD hS (hstep.fitted hfit) hrest) fun _ _ _ hfinal =>
      Alike.ok hfinal

end Steps

/-! ### Systems that are alike -/

section Systems

variable {D : Decompositions ℝ} {s s' : LinearSystem κ ℝ}

/-- Systems with the same blocks and noise models, equation by equation, whatever their
right-hand sides. -/
def SameLeft (s s' : LinearSystem κ ℝ) : Prop :=
  Forall₂ (fun r r' => r.blocks = r'.blocks ∧ r.noise = r'.noise) s.equations s'.equations

theorem rows_eq_of_noise {r r' : LinearEquation κ ℝ} (h : r.noise = r'.noise) : r.rows = r'.rows := by
  rw [LinearEquation.rows, LinearEquation.rows, ← r.noise_dim, ← r'.noise_dim, h]

theorem SameLeft.similar (h : SameLeft s s') : Forall₂ Similar s.equations s'.equations :=
  h.imp fun r r' hr => similar_of_blocks_eq hr.1 (rows_eq_of_noise hr.2)
    (by rw [LinearEquation.isHard, LinearEquation.isHard, hr.2])

/-- The equations that elimination starts from are alike. -/
theorem SameLeft.similar_prepared (h : SameLeft s s') : Forall₂ Similar (prepared s) (prepared s') := by
  rw [prepared, prepared, List.forall₂_map_left_iff, List.forall₂_map_right_iff]
  refine h.imp fun r r' hr => ?_
  have hkind : r.isHard = r'.isHard := by rw [LinearEquation.isHard, LinearEquation.isHard, hr.2]
  have hrows := rows_eq_of_noise hr.2
  rw [← hkind]
  split_ifs
  · exact similar_of_blocks_eq hr.1 hrows hkind
  · refine similar_of_blocks_eq ?_ ?_ rfl
    · show r.blocks.map (fun b => (b.1, r.noise.weighRows b.2)) =
        r'.blocks.map fun b => (b.1, r'.noise.weighRows b.2)
      rw [hr.1, hr.2]
    · rw [r.rows_weighted, r'.rows_weighted, hrows]

theorem SameLeft.blocks_eq (h : SameLeft s s') :
    s.equations.flatMap LinearEquation.blocks = s'.equations.flatMap LinearEquation.blocks := by
  have hblocks : s.equations.map LinearEquation.blocks = s'.equations.map LinearEquation.blocks := by
    rw [← List.forall₂_eq_eq_eq, List.forall₂_map_left_iff, List.forall₂_map_right_iff]
    exact h.imp fun _ _ hr => hr.1
  rw [List.flatMap_def, List.flatMap_def, hblocks]

theorem sameLeft_homogeneous (s : LinearSystem κ ℝ) : SameLeft s s.homogeneous := by
  rw [SameLeft, LinearSystem.homogeneous, List.forall₂_map_right_iff]
  exact List.forall₂_same.mpr fun _ _ => ⟨rfl, rfl⟩

variable [LinearOrder κ]

/-- **Elimination of systems with the same left sides** stops with the same error on both, or
returns a net for both. -/
theorem alike_eliminate (hD : D.IsExact) (hS : D.IsComplete) (h : SameLeft s s') (ordering : List κ) :
    Alike (fun _ _ => True) (eliminate D s ordering) (eliminate D s' ordering) := by
  have hwidths : widths s = widths s' := by rw [widths, widths, h.blocks_eq]
  rw [eliminate, eliminate, ← hwidths]
  refine Alike.bind_eq rfl fun w hw => ?_
  have hfit := (widths_eq_ok (Outcome.wrap_ofExcept_eq_ok.mp hw)).1
  refine Alike.bind (alike_eliminateAll hD hS (fitted_prepared hfit) h.similar_prepared)
    fun a b _ hab => ?_
  have hkeys := mentioned_eq_of_similar hab
  rw [mentioned, mentioned] at hkeys
  simp only [hkeys]
  split
  · exact Alike.error _
  · exact Alike.ok trivial

/-! ### The homogeneous system -/

theorem keys_homogeneous (s : LinearSystem κ ℝ) : s.homogeneous.keys = s.keys := by
  have hmentioned : mentioned s.homogeneous.equations = mentioned s.equations :=
    (mentioned_eq_of_similar (sameLeft_homogeneous s).similar).symm
  exact congrArg (List.foldl (fun keys k => if k ∈ keys then keys else keys ++ [k]) []) hmentioned

theorem getD_zeros (n i : ℕ) : (List.replicate n (0 : ℝ)).getD i 0 = 0 := by
  rw [List.getD_eq_getElem?_getD, List.getElem?_getD_replicate_default_eq]

/-- Zero for every key. -/
def zeroSolution (s : LinearSystem κ ℝ) : Solution κ ℝ :=
  ⟨s.keys.map fun k => (k, List.replicate (s.dim k) 0)⟩

theorem fits_zeroSolution (s : LinearSystem κ ℝ) : s.Fits (zeroSolution s) := by
  intro k hk
  have hmem : k ∈ (zeroSolution s).keys := by
    rw [Assignment.keys, zeroSolution, List.map_map]
    exact List.mem_map.mpr ⟨k, hk, rfl⟩
  obtain ⟨v, hv⟩ := Option.isSome_iff_exists.mp (Assignment.get?_isSome_iff.mpr hmem)
  refine ⟨v, hv, ?_⟩
  obtain ⟨e, he, rfl⟩ := Option.map_eq_some_iff.mp hv
  obtain ⟨l, -, rfl⟩ := List.mem_map.mp (List.mem_of_find?_eq_some he)
  have hkey : l = k := by simpa using List.find?_some he
  rw [List.length_replicate, hkey]

theorem valuation_zeroSolution (s : LinearSystem κ ℝ) (k : κ) (j : ℕ) :
    valuation (zeroSolution s) k j = 0 := by
  rw [valuation]
  cases hv : (zeroSolution s).get? k with
  | none => rfl
  | some v =>
    obtain ⟨e, he, rfl⟩ := Option.map_eq_some_iff.mp hv
    obtain ⟨l, -, rfl⟩ := List.mem_map.mp (List.mem_of_find?_eq_some he)
    exact getD_zeros _ _

/-- Zero satisfies homogeneous hard equations. -/
theorem satisfiesHard_zeroSolution {w : Assignment κ ℕ} (hw : widths s.homogeneous = .ok w) :
    s.homogeneous.SatisfiesHard (zeroSolution s.homogeneous) := by
  rw [satisfiesHard_iff hw (fits_zeroSolution _), hardEnergy_prepared, totalEnergy_eq_zero_iff]
  intro r hr
  obtain ⟨r, -, rfl⟩ := List.mem_map.mp (List.mem_of_mem_filter hr)
  refine LinearEquation.energy_eq_zero_iff.mpr fun i _ => ?_
  have himage : ∀ b ∈ r.homogeneous.blocks,
      b.2.image (valuation (zeroSolution s.homogeneous) b.1) i = 0 := fun b _ =>
    sum_eq_zero fun j _ => by rw [valuation_zeroSolution, mul_zero]
  have hrhs : r.homogeneous.rhs.getD i 0 = 0 := getD_zeros _ _
  rw [LinearEquation.defect, List.map_congr_left himage, hrhs]
  simp

/-- **Elimination does not notice contradictions.** A system is rejected, by elimination or by
solving the net, exactly if its homogeneous system is, and elimination rejects both with the
same error. As soon as elimination returns a net the homogeneous hard equations have a common
solution. So whether hard equations with a solution or without one are eliminated, the outcome
is the same, and contradictory ones are rejected only where consistent ones are as well. -/
theorem solves_iff_homogeneous (hD : D.IsExact) (hS : D.IsComplete) (s : LinearSystem κ ℝ)
    (ordering : List κ) :
    (∀ e, eliminate D s ordering = .error e ↔ eliminate D s.homogeneous ordering = .error e) ∧
    ((∃ x, (eliminate D s ordering >>= BayesNet.solve) = .ok x) ↔
      ∃ x, (eliminate D s.homogeneous ordering >>= BayesNet.solve) = .ok x) ∧
    ∀ net, eliminate D s ordering = .ok net →
      ∃ x, s.homogeneous.Fits x ∧ s.homogeneous.SatisfiesHard x := by
  have halike := alike_eliminate hD hS (sameLeft_homogeneous s) ordering
  have hsolves : ∀ t : LinearSystem κ ℝ, (∃ x, (eliminate D t ordering >>= BayesNet.solve) = .ok x) ↔
      (∃ net, eliminate D t ordering = .ok net) ∧ ∀ k ∈ t.keys, k ∈ ordering := by
    intro t
    constructor
    · rintro ⟨x, hx⟩
      obtain ⟨net, hnet, hx⟩ := Outcome.bind_eq_ok.mp hx
      exact ⟨⟨net, hnet⟩, (exists_solve_iff hD.toIsTriangular hnet).mp ⟨x, hx⟩⟩
    · rintro ⟨⟨net, hnet⟩, hall⟩
      obtain ⟨x, hx⟩ := (exists_solve_iff hD.toIsTriangular hnet).mpr hall
      exact ⟨x, Outcome.bind_eq_ok.mpr ⟨net, hnet, hx⟩⟩
  refine ⟨fun e => halike.error_iff e, ?_, fun net hnet => ?_⟩
  · rw [hsolves, hsolves, halike.isOk_iff, keys_homogeneous]
  · obtain ⟨net', hnet'⟩ := halike.isOk_iff.mp ⟨net, hnet⟩
    obtain ⟨w, -, hw, -, -⟩ := eliminate_eq_ok_iff.mp hnet'
    exact ⟨zeroSolution s.homogeneous, fits_zeroSolution _, satisfiesHard_zeroSolution hw⟩

end Systems

/-- The hard equations `x₀ = 1` and `x₀ = 2`. -/
def hardPair {α : Type} [Scalar α] : LinearSystem ℕ α :=
  ⟨[sumEquation true [0] 1, sumEquation true [0] 2.0]⟩

/-- At the contradictory pair the outcome is that of `x₀ = 0` and `x₀ = 0`. -/
theorem solves_hardPair_iff :
    (∃ x, (eliminate .standard (hardPair (α := ℝ)) [0] >>= BayesNet.solve) = .ok x) ↔
      ∃ x, (eliminate .standard (hardPair (α := ℝ)).homogeneous [0] >>= BayesNet.solve) = .ok x :=
  (solves_iff_homogeneous Decompositions.standard_isExact Decompositions.standard_isComplete
    hardPair [0]).2.1

/-- **A contradiction that goes unnoticed.** -/
theorem hardPair_solved :
    (¬∃ x, (hardPair (α := ℝ)).Fits x ∧ (hardPair (α := ℝ)).SatisfiesHard x) ∧
      ∃ x, (eliminate .standard (hardPair (α := ℝ)) [0] >>= BayesNet.solve) = .ok x := by
  obtain ⟨w, hw⟩ : ∃ w, widths (hardPair (α := ℝ)) = .ok w := ⟨_, rfl⟩
  have hkeys : (hardPair (α := ℝ)).keys = [0] := rfl
  constructor
  · rintro ⟨x, hx, hsat⟩
    have hzero := (satisfiesHard_iff hw hx).mp hsat
    have hhard : (hardPair (α := ℝ)).equations.filter (fun r => r.isHard) =
        [sumEquation true [0] 1, sumEquation true [0] 2.0] := rfl
    rw [hardEnergy_prepared, hhard, totalEnergy_cons, totalEnergy_cons, totalEnergy_nil,
      energy_sumEquation, energy_sumEquation] at hzero
    norm_num at hzero
    nlinarith [sq_nonneg (valuation x 0 0 - 1), sq_nonneg (valuation x 0 0 - 2)]
  · have hlong : negligiblePivot ^ 2 <
        totalEnergy (pivotal (prepared (hardPair (α := ℝ))) 0) 0 (unitAt 0) := by
      have hpivotal : pivotal (prepared (hardPair (α := ℝ))) 0 =
          [sumEquation true [0] 1, sumEquation true [0] 2.0] := rfl
      rw [hpivotal, totalEnergy_cons, totalEnergy_cons, totalEnergy_nil, energy_sumEquation,
        energy_sumEquation, negligiblePivot]
      norm_num [unitAt]
    obtain ⟨net, hnet⟩ := exists_eliminate_alone hw rfl hlong fun k hk =>
      List.mem_singleton.mp (hkeys ▸ hk)
    obtain ⟨x, hx⟩ := (exists_solve_iff Decompositions.standard_isTriangular hnet).mpr
      fun k hk => hkeys ▸ hk
    exact ⟨x, Outcome.bind_eq_ok.mpr ⟨net, hnet, hx⟩⟩

/-- In binary64 numbers the answer is their mean. -/
example : (eliminate .standard (hardPair (α := Float)) [0] >>= BayesNet.solve).toOption.map
    Assignment.entries = some [(0, [1.5])] := by decide +kernel

end Elimination
end Kinodynamics
