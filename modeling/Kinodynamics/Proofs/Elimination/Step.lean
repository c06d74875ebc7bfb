/-
# What a step of elimination computes

Each operation of a step has one lemma that says all it does when it succeeds:
`requirePivots` (`requirePivots_eq_ok_iff`), `stepSoft` (`stepSoft_eq_ok_iff`), `stepHard`
(`isHardStep_of_stepHard`), the remainder equations (`isRemainder_of_remainder`),
and the step itself (`isStep_of_eliminateNext`). Nothing here depends on which
numbers the entries are or on what the decompositions return.

Key definitions: `Elimination.touching`, `Elimination.layoutOf`, `Elimination.IsHardStep`,
`Elimination.IsRemainder`, `Elimination.IsStep`.
Key theorems: `Elimination.stepHard_eq`, `Elimination.eliminateNext_eq`,
`Elimination.isStep_of_eliminateNext`.
-/
import Mathlib
import Kinodynamics.Gaussian.Elimination

namespace Kinodynamics

/-- A computation that succeeds goes through a success. -/
theorem Except.bind_eq_ok {ε α β : Type} {x : Except ε α} {f : α → Except ε β} {b : β} :
    x >>= f = .ok b ↔ ∃ a, x = .ok a ∧ f a = .ok b := by
  cases x <;> simp [bind, Except.bind]

theorem Except.toOption_eq_some {ε α : Type} {x : Except ε α} {a : α} :
    x.toOption = some a ↔ x = .ok a := by
  cases x <;> simp [Except.toOption]

theorem Outcome.bind_eq_ok {ε α β : Type} {x : Outcome ε α} {f : α → Outcome ε β} {b : β} :
    x >>= f = .ok b ↔ ∃ a, x = .ok a ∧ f a = .ok b :=
  Except.bind_eq_ok

theorem Outcome.ofOption_eq_ok {ε α : Type} {x : Option α} {a : α} :
    (Outcome.ofOption x : Outcome ε α) = .ok a ↔ x = some a := by
  cases x <;> simp [Outcome.ofOption, Outcome.sizes]

theorem Outcome.wrap_ofExcept_eq_ok {ε ε' α : Type} {f : ε → ε'} {x : Except ε α} {a : α} :
    (Outcome.ofExcept x).wrap f = .ok a ↔ x = .ok a := by
  cases x <;> simp [Outcome.ofExcept, Outcome.wrap, Outcome.fail]

namespace Elimination

variable {κ α : Type} [Scalar α]

/-! ### Pivots -/

theorem requirePivots_succ (key : κ) (r : Dense α) (n : ℕ) :
    requirePivots key r (n + 1) = requirePivots key r n >>= fun _ =>
      if n < r.nrows ∧ n < r.ncols then
        if Scalar.abs (r.entry n n) ≤ negligiblePivot then Outcome.fail (.singular key) else .ok ()
      else Outcome.sizes := by
  simp only [requirePivots, List.range_succ, List.foldlM_append, List.foldlM_cons, List.foldlM_nil,
    bind_pure]

theorem requirePivots_eq_ok_iff {key : κ} {r : Dense α} {n : ℕ} :
    requirePivots key r n = .ok () ↔
      ∀ i < n, i < r.nrows ∧ i < r.ncols ∧ ¬Scalar.abs (r.entry i i) ≤ negligiblePivot := by
  induction n with
  | zero =>
    simp only [Nat.not_lt_zero, false_imp_iff, implies_true, iff_true]
    rfl
  | succ n ih =>
    rw [requirePivots_succ, Outcome.bind_eq_ok]
    constructor
    · rintro ⟨_, hn, hlast⟩ i hi
      rcases Nat.lt_succ_iff_lt_or_eq.mp hi with hi | rfl
      · exact ih.mp hn i hi
      · split_ifs at hlast with h1 h2
        · cases hlast
        · exact ⟨h1.1, h1.2, h2⟩
        · cases hlast
    · intro h
      obtain ⟨h1, h2, h3⟩ := h n (Nat.lt_succ_self n)
      exact ⟨(), ih.mpr fun i hi => h i (Nat.lt_succ_of_lt hi), by rw [if_pos ⟨h1, h2⟩, if_neg h3]⟩

theorem le_nrows_of_requirePivots {key : κ} {r : Dense α} {n : ℕ}
    (h : requirePivots key r n = .ok ()) : n ≤ r.nrows := by
  rcases Nat.eq_zero_or_pos n with rfl | hpos
  · exact Nat.zero_le _
  · have := (requirePivots_eq_ok_iff.mp h (n - 1) (by omega)).1
    omega

theorem le_ncols_of_requirePivots {key : κ} {r : Dense α} {n : ℕ}
    (h : requirePivots key r n = .ok ()) : n ≤ r.ncols := by
  rcases Nat.eq_zero_or_pos n with rfl | hpos
  · exact Nat.zero_le _
  · have := (requirePivots_eq_ok_iff.mp h (n - 1) (by omega)).2.1
    omega

/-- The pivots pass, or one of them is reported; or the diagonal is too short. -/
theorem requirePivots_cases (key : κ) (r : Dense α) (n : ℕ) :
    requirePivots key r n = .ok () ∨ requirePivots key r n = Outcome.fail (.singular key) ∨
      requirePivots key r n = Outcome.sizes ∧ ¬(n ≤ r.nrows ∧ n ≤ r.ncols) := by
  induction n with
  | zero => exact Or.inl rfl
  | succ n ih =>
    rw [requirePivots_succ]
    rcases ih with h | h | ⟨h, hshort⟩ <;> rw [h]
    · show (if _ then _ else _) = _ ∨ (if _ then _ else _) = _ ∨ (if _ then _ else _) = _ ∧ _
      split_ifs with hrange
      · exact Or.inr (Or.inl rfl)
      · exact Or.inl rfl
      · exact Or.inr (Or.inr ⟨rfl, fun hle => hrange hle⟩)
    · exact Or.inr (Or.inl rfl)
    · exact Or.inr (Or.inr ⟨rfl, fun hle => hshort ⟨by omega, by omega⟩⟩)

/-! ### Soft rows -/

theorem stepSoft_eq_ok_iff {D : Decompositions α} {key : κ} {n : ℕ} {soft : Dense α}
    {out : StepRows α} :
    stepSoft D key n soft = .ok out ↔
      requirePivots key (upperFactor D soft) n = .ok () ∧
        out = ⟨(splitBelow (upperFactor D soft) n).1, Dense.zeros 0 (soft.ncols - n),
          (splitBelow (upperFactor D soft) n).2⟩ := by
  unfold stepSoft
  rw [Outcome.bind_eq_ok]
  constructor
  · rintro ⟨_, h, h'⟩
    exact ⟨h, by cases h'; rfl⟩
  · rintro ⟨h, rfl⟩
    exact ⟨(), h, rfl⟩

/-! ### Hard rows -/

section Hard

variable (D : Decompositions α) (n : ℕ) (hard soft : Dense α)

/-- The first `n` columns. -/
def frontalBlock (a : Dense α) : Dense α := a.view 0 0 a.nrows n

/-- The eigenpairs of the Gram matrix of the hard frontal block, by falling eigenvalue. -/
def frontalPairs : List (Eigenpair α) :=
  byEigenvalue (D.spectrum ((frontalBlock n hard).transpose.mul (frontalBlock n hard)))

/-- The eigenpairs that are counted into the range. -/
def rangePairs : List (Eigenpair α) := (splitRange (frontalPairs D n hard)).1

/-- The eigenpairs that are counted into the null space. -/
def kernelPairs : List (Eigenpair α) := (splitRange (frontalPairs D n hard)).2

/-- The counted rank. -/
def frontalRank : ℕ := (rangePairs D n hard).length

/-- The hard rows over the range and the tail. -/
def rangeStack : Dense α :=
  ((frontalBlock n hard).mul (basis n (rangePairs D n hard))).beside
    (hard.view 0 n hard.nrows (hard.ncols - n))

/-- The hard rows over the range and the tail, triangular. -/
def hardFactor : Dense α := upperFactor D (rangeStack D n hard)

/-- The hard rows that fix the range. -/
def hardTop : Dense α := (splitBelow (hardFactor D n hard) (frontalRank D n hard)).1

/-- Their columns over the range. -/
def rangeFactor : Dense α :=
  (hardTop D n hard).view 0 0 (frontalRank D n hard) (frontalRank D n hard)

/-- Their columns over the tail. -/
def rangeTail : Dense α :=
  (hardTop D n hard).view 0 (frontalRank D n hard) (frontalRank D n hard) (hard.ncols - n)

/-- The soft rows over the null space and the tail, with the range put in. -/
def softProjected (gain : Dense α) : Dense α :=
  ((frontalBlock n soft).mul (basis n (kernelPairs D n hard))).beside
    ((soft.view 0 n soft.nrows (hard.ncols - n)).sub
      (((frontalBlock n soft).mul (basis n (rangePairs D n hard))).mul gain))

/-- The rows that fix the range, over the frontal variable and the tail. -/
def rangeRows : Dense α :=
  ((rangeFactor D n hard).mul (basis n (rangePairs D n hard)).transpose).beside (rangeTail D n hard)

/-- The rows that fix the null space, over the frontal variable and the tail. -/
def kernelRows (softTop : Dense α) : Dense α :=
  ((softTop.view 0 0 (n - frontalRank D n hard) (n - frontalRank D n hard)).mul
    (basis n (kernelPairs D n hard)).transpose).beside
    (softTop.view 0 (n - frontalRank D n hard) (n - frontalRank D n hard) (hard.ncols - n))

/-- The former above the latter. -/
def recombined (softTop : Dense α) : Dense α :=
  (rangeRows D n hard).above (kernelRows D n hard softTop)

/-- The soft rows split into those that fix the null space, `free` of them, and the rest. -/
def splitSoft (key : κ) (free tail : ℕ) (projected : Dense α) :
    Outcome (EliminationError κ) (Dense α × Dense α) :=
  if projected.nrows = 0 then pure (Dense.zeros 0 (free + tail), Dense.zeros 0 tail)
  else do
    requirePivots key (upperFactor D projected) free
    pure (splitBelow (upperFactor D projected) free)

/-- The tail of the range, solved for the range. -/
def rangeGain (key : κ) : Outcome (EliminationError κ) (Dense α) :=
  match (rangeFactor D n hard).solveUpperColumns (rangeTail D n hard) with
  | some gain => .ok gain
  | none => Outcome.fail (.singular key)

theorem rangeGain_eq_ok_iff {D : Decompositions α} {n : ℕ} {hard : Dense α} {key : κ} {gain : Dense α} :
    rangeGain D n hard key = .ok gain ↔
      (rangeFactor D n hard).solveUpperColumns (rangeTail D n hard) = some gain := by
  unfold rangeGain
  cases (rangeFactor D n hard).solveUpperColumns (rangeTail D n hard) <;> simp [Outcome.fail]

/-- A step on hard rows, part by part. -/
theorem stepHard_eq (key : κ) : stepHard D key n hard soft =
    if n = 0 then Outcome.sizes
    else requirePivots key (hardFactor D n hard) (frontalRank D n hard) >>= fun _ =>
      rangeGain D n hard key >>= fun gain =>
      if soft.nrows < n - frontalRank D n hard then Outcome.fail (.underDetermined key)
      else splitSoft D key (n - frontalRank D n hard) (hard.ncols - n)
          (softProjected D n hard soft gain) >>= fun parts =>
        requirePivots key (upperFactor D (recombined D n hard parts.1)) n >>= fun _ =>
        .ok ⟨upperFactor D (recombined D n hard parts.1),
          (splitBelow (hardFactor D n hard) (frontalRank D n hard)).2, parts.2⟩ := by
  unfold stepHard
  by_cases hn : n = 0
  · simp only [if_pos hn]
    rfl
  simp only [if_neg hn]
  refine congrArg (requirePivots key (hardFactor D n hard) (frontalRank D n hard) >>= ·)
    (funext fun _ => ?_)
  have hjoin : ∀ (o : Option (Dense α)) (k : Dense α → Outcome (EliminationError κ) (StepRows α)),
      (match o with
        | some gain => pure gain >>= k
        | none => Outcome.fail (.singular key) >>= k) =
      (match o with
        | some gain => .ok gain
        | none => Outcome.fail (.singular key)) >>= k := fun o k => by cases o <;> rfl
  refine (hjoin _ _).trans (congrArg (rangeGain D n hard key >>= ·) (funext fun gain => ?_))
  by_cases hfree : soft.nrows < n - frontalRank D n hard
  · rw [if_pos hfree]
    exact if_pos hfree
  rw [if_neg hfree]
  refine (if_neg hfree).trans ?_
  unfold splitSoft
  by_cases h0 : soft.nrows = 0
  · rw [if_pos (show (softProjected D n hard soft gain).nrows = 0 from h0)]
    exact if_pos h0
  · rw [if_neg (show ¬(softProjected D n hard soft gain).nrows = 0 from h0)]
    refine (if_neg h0).trans ?_
    rw [bind_assoc]
    rfl

/-- All that a successful step on hard rows says. -/
structure IsHardStep (key : κ) (gain softTop : Dense α) (out : StepRows α) : Prop where
  width_ne : n ≠ 0
  rangePivots : requirePivots key (hardFactor D n hard) (frontalRank D n hard) = .ok ()
  gain_eq : (rangeFactor D n hard).solveUpperColumns (rangeTail D n hard) = some gain
  free_le : n - frontalRank D n hard ≤ soft.nrows
  soft_eq : splitSoft D key (n - frontalRank D n hard) (hard.ncols - n)
    (softProjected D n hard soft gain) = .ok (softTop, out.soft)
  pivots : requirePivots key out.conditional n = .ok ()
  conditional_eq : out.conditional = upperFactor D (recombined D n hard softTop)
  hard_eq : out.hard = (splitBelow (hardFactor D n hard) (frontalRank D n hard)).2

variable {D n hard soft}

theorem isHardStep_of_stepHard {key : κ} {out : StepRows α}
    (h : stepHard D key n hard soft = .ok out) :
    ∃ gain softTop, IsHardStep D n hard soft key gain softTop out := by
  rw [stepHard_eq] at h
  by_cases hn : n = 0
  · rw [if_pos hn] at h
    cases h
  rw [if_neg hn] at h
  obtain ⟨_, hpivots, h⟩ := Outcome.bind_eq_ok.mp h
  obtain ⟨gain, hgain, h⟩ := Outcome.bind_eq_ok.mp h
  by_cases hfree : soft.nrows < n - frontalRank D n hard
  · rw [if_pos hfree] at h
    cases h
  rw [if_neg hfree] at h
  obtain ⟨⟨softTop, softRest⟩, hsoft, h⟩ := Outcome.bind_eq_ok.mp h
  obtain ⟨_, hcond, h⟩ := Outcome.bind_eq_ok.mp h
  cases h
  exact ⟨gain, softTop, hn, hpivots, rangeGain_eq_ok_iff.mp hgain, not_lt.mp hfree, hsoft, hcond, rfl, rfl⟩

theorem splitSoft_eq_ok_iff {key : κ} {free tail : ℕ} {projected : Dense α}
    {parts : Dense α × Dense α} :
    splitSoft D key free tail projected = .ok parts ↔
      (projected.nrows = 0 ∧ parts = (Dense.zeros 0 (free + tail), Dense.zeros 0 tail)) ∨
        (projected.nrows ≠ 0 ∧ requirePivots key (upperFactor D projected) free = .ok () ∧
          parts = splitBelow (upperFactor D projected) free) := by
  unfold splitSoft
  by_cases h0 : projected.nrows = 0
  · rw [if_pos h0]
    simp only [h0, true_and, ne_eq, not_true_eq_false, false_and, or_false]
    exact ⟨fun h => by cases h; rfl, fun h => h ▸ rfl⟩
  · rw [if_neg h0, Outcome.bind_eq_ok]
    simp only [h0, false_and, ne_eq, not_false_eq_true, true_and, false_or]
    constructor
    · rintro ⟨_, h, h'⟩
      exact ⟨h, by cases h'; rfl⟩
    · rintro ⟨h, rfl⟩
      exact ⟨(), h, rfl⟩

end Hard

/-! ### Remainder equations -/

section Remainder

theorem map_fst_cut (a : Dense α) : ∀ (c : ℕ) (layout : Layout κ),
    (cut a c layout).map Prod.fst = layout.map Prod.fst
  | _, [] => rfl
  | c, (key, n) :: rest => by rw [cut, List.map_cons, map_fst_cut a (c + n) rest, List.map_cons]

/-- The columns of a variable have its width, and all the rows. -/
theorem shape_of_mem_cut {a : Dense α} {b : κ × Dense α} : ∀ {c : ℕ} {layout : Layout κ},
    b ∈ cut a c layout → b.2.nrows = a.nrows ∧ (b.1, b.2.ncols) ∈ layout
  | _, [], h => by cases h
  | c, (key, n) :: rest, h => by
    rcases List.mem_cons.mp h with rfl | h
    · exact ⟨rfl, List.mem_cons_self⟩
    · obtain ⟨h1, h2⟩ := shape_of_mem_cut h
      exact ⟨h1, List.mem_cons_of_mem _ h2⟩

/-- The equations that remainder rows form: none over no variables or if there are no
rows, else one that has the rows cut by variables. -/
def IsRemainder (layout : Layout κ) (rest : Dense α) (noise : ℕ → Noise α)
    (equations : List (LinearEquation κ α)) : Prop :=
  (equations = [] ∧ (layout = [] ∨ rest.nrows = 0)) ∨
    ∃ r, equations = [r] ∧ layout ≠ [] ∧ rest.nrows ≠ 0 ∧ r.blocks = cut rest 0 layout ∧
      r.rhs = rest.column (width layout) ∧ r.noise = noise rest.nrows

omit [Scalar α] in
/-- An equation is made just if nothing mismatches. -/
theorem make_eq_ok_iff [DecidableEq κ] {blocks : List (κ × Dense α)} {rhs : List α} {noise : Noise α}
    {r : LinearEquation κ α} :
    LinearEquation.make blocks rhs noise = .ok r ↔
      r.blocks = blocks ∧ r.rhs = rhs ∧ r.noise = noise := by
  unfold LinearEquation.make
  constructor
  · intro h
    split at h
    · split at h
      · cases h
      · cases h
        exact ⟨rfl, rfl, rfl⟩
    · cases h
  · rintro ⟨rfl, rfl, rfl⟩
    rw [dif_pos r.noise_dim]
    have hb : LinearEquation.firstMismatch r.rhs.length [] r.blocks = none :=
      LinearEquation.firstMismatch_eq_none.mpr ⟨r.block_nrows, r.keys_nodup, by simp⟩
    split
    · next m hm =>
      rw [hb] at hm
      cases hm
    · rfl

theorem isRemainder_of_remainder [DecidableEq κ] {layout : Layout κ} {rest : Dense α} {noise : ℕ → Noise α}
    {equations : List (LinearEquation κ α)} (hl : layout ≠ [])
    (h : remainder layout rest noise = .ok equations) :
    IsRemainder layout rest noise equations := by
  unfold remainder at h
  by_cases h0 : rest.nrows = 0
  · rw [if_pos h0] at h
    cases h
    exact Or.inl ⟨rfl, Or.inr h0⟩
  · rw [if_neg h0] at h
    obtain ⟨r, hr, h⟩ : ∃ r, LinearEquation.make (cut rest 0 layout) (rest.column (width layout))
        (noise rest.nrows) = .ok r ∧ (pure [r] : Except (Mismatch κ) _) = .ok equations := by
      cases hm : LinearEquation.make (cut rest 0 layout) (rest.column (width layout))
        (noise rest.nrows) with
      | error m => rw [hm] at h; cases h
      | ok r => rw [hm] at h; exact ⟨r, rfl, h⟩
    cases h
    exact Or.inr ⟨r, rfl, hl, h0, make_eq_ok_iff.mp hr⟩

/-- Over distinct variables remainder rows always form an equation. -/
theorem exists_remainder [DecidableEq κ] {layout : Layout κ} (hl : layout ≠ [])
    (hnodup : (layout.map Prod.fst).Nodup) (noise : ℕ → Noise α) (hnoise : ∀ n, (noise n).dim = n)
    (rest : Dense α) :
    ∃ equations, remainder layout rest noise = .ok equations ∧
      IsRemainder layout rest noise equations := by
  unfold remainder
  by_cases h0 : rest.nrows = 0
  · rw [if_pos h0]
    exact ⟨[], rfl, Or.inl ⟨rfl, Or.inr h0⟩⟩
  rw [if_neg h0]
  have hlen : (rest.column (width layout)).length = rest.nrows := Dense.length_column _ _
  obtain ⟨r, hr⟩ : ∃ r, LinearEquation.make (cut rest 0 layout) (rest.column (width layout))
      (noise rest.nrows) = .ok r := by
    refine ⟨⟨cut rest 0 layout, rest.column (width layout), noise rest.nrows, ?_, fun b hb => ?_, ?_⟩,
      make_eq_ok_iff.mpr ⟨rfl, rfl, rfl⟩⟩
    · rw [hnoise, hlen]
    · rw [hlen]
      exact (shape_of_mem_cut hb).1
    · rw [map_fst_cut]
      exact hnodup
  exact ⟨[r], by rw [hr]; rfl, Or.inr ⟨r, rfl, hl, h0, make_eq_ok_iff.mp hr⟩⟩

end Remainder

/-! ### The step -/

section Next

variable [DecidableEq κ] [LT κ] [DecidableLT κ]

/-- The equations on a variable. -/
def touching (remaining : List (LinearEquation κ α)) (frontal : κ) : List (LinearEquation κ α) :=
  remaining.filter fun r => r.mentions frontal

/-- The equations that do not involve a variable. -/
def untouched (remaining : List (LinearEquation κ α)) (frontal : κ) : List (LinearEquation κ α) :=
  remaining.filter fun r => !r.mentions frontal

/-- The width of a variable, zero if it has none. -/
def widthOf (widths : Assignment κ ℕ) (key : κ) : ℕ := (widths.get? key).getD 0

/-- The separator with its widths. -/
def separating (widths : Assignment κ ℕ) (remaining : List (LinearEquation κ α)) (frontal : κ) :
    Layout κ :=
  (separator frontal (touching remaining frontal)).map fun key => (key, widthOf widths key)

/-- The variables of a step with their widths, frontal variable first. -/
def layoutOf (widths : Assignment κ ℕ) (remaining : List (LinearEquation κ α)) (frontal : κ) :
    Layout κ :=
  (frontal, widthOf widths frontal) :: separating widths remaining frontal

/-- The hard equations on a variable. -/
def hardOn (remaining : List (LinearEquation κ α)) (frontal : κ) : List (LinearEquation κ α) :=
  (touching remaining frontal).filter fun r => r.isHard

/-- The soft equations on a variable. -/
def softOn (remaining : List (LinearEquation κ α)) (frontal : κ) : List (LinearEquation κ α) :=
  (touching remaining frontal).filter fun r => !r.isHard

/-- The stacked hard equations on a variable. -/
def hardStack (widths : Assignment κ ℕ) (remaining : List (LinearEquation κ α)) (frontal : κ) :
    Dense α :=
  stackRows (layoutOf widths remaining frontal) (hardOn remaining frontal)

/-- The stacked soft equations on a variable. -/
def softStack (widths : Assignment κ ℕ) (remaining : List (LinearEquation κ α)) (frontal : κ) :
    Dense α :=
  stackRows (layoutOf widths remaining frontal) (softOn remaining frontal)

/-- What the stacks of a step come to. -/
def reduced (D : Decompositions α) (widths : Assignment κ ℕ)
    (remaining : List (LinearEquation κ α)) (frontal : κ) :
    Outcome (EliminationError κ) (StepRows α) :=
  if (hardOn remaining frontal).isEmpty then
    stepSoft D frontal (widthOf widths frontal) (softStack widths remaining frontal)
  else
    stepHard D frontal (widthOf widths frontal) (hardStack widths remaining frontal)
      (softStack widths remaining frontal)

/-- The conditional that the rows of a step come to. -/
def conditionalOf (widths : Assignment κ ℕ) (remaining : List (LinearEquation κ α)) (frontal : κ)
    (rows : Dense α) : Conditional κ α :=
  let top := rows.view 0 0 (widthOf widths frontal) rows.ncols
  { frontal := frontal
    r := top.view 0 0 (widthOf widths frontal) (widthOf widths frontal)
    parents := cut top (widthOf widths frontal) (separating widths remaining frontal)
    d := top.column (width (layoutOf widths remaining frontal)) }

/-- The remainders of a step, hard and soft ones. -/
def remainders (widths : Assignment κ ℕ) (remaining : List (LinearEquation κ α)) (frontal : κ)
    (out : StepRows α) : Outcome (EliminationError κ) (List (LinearEquation κ α)) :=
  if (separating widths remaining frontal).isEmpty then .ok []
  else do
    let hard ← (Outcome.ofExcept
      (remainder (separating widths remaining frontal) out.hard .constrained)).wrap .mismatch
    let soft ← (Outcome.ofExcept
      (remainder (separating widths remaining frontal) out.soft .unit)).wrap .mismatch
    return hard ++ soft

/-- A step, part by part. -/
theorem eliminateNext_eq (D : Decompositions α) (widths : Assignment κ ℕ)
    (remaining : List (LinearEquation κ α)) (frontal : κ) :
    eliminateNext D widths remaining frontal =
      if (touching remaining frontal).isEmpty then Outcome.fail (.underDetermined frontal)
      else if totalRows (touching remaining frontal) < widthOf widths frontal then
        Outcome.fail (.underDetermined frontal)
      else reduced D widths remaining frontal >>= fun out =>
        remainders widths remaining frontal out >>= fun more =>
        .ok (conditionalOf widths remaining frontal out.conditional,
          untouched remaining frontal ++ more) := by
  unfold eliminateNext
  simp only [List.partition_eq_filter_filter]
  by_cases h1 : (touching remaining frontal).isEmpty = true
  · rw [if_pos h1]
    exact if_pos h1
  rw [if_neg h1]
  refine (if_neg h1).trans ?_
  by_cases h2 : totalRows (touching remaining frontal) < widthOf widths frontal
  · rw [if_pos h2]
    exact if_pos h2
  rw [if_neg h2]
  refine (if_neg h2).trans ?_
  have hjoin : ∀ k : StepRows α →
        Outcome (EliminationError κ) (Conditional κ α × List (LinearEquation κ α)),
      (if (hardOn remaining frontal).isEmpty then
          stepSoft D frontal (widthOf widths frontal) (softStack widths remaining frontal) >>= k
        else
          stepHard D frontal (widthOf widths frontal) (hardStack widths remaining frontal)
            (softStack widths remaining frontal) >>= k) =
        reduced D widths remaining frontal >>= k := fun k => by
    unfold reduced
    split <;> rfl
  refine (hjoin _).trans (congrArg (reduced D widths remaining frontal >>= ·)
    (funext fun out => ?_))
  unfold remainders
  by_cases h3 : (separating widths remaining frontal).isEmpty = true
  · rw [if_pos h3]
    refine (if_pos h3).trans ?_
    show _ = Except.ok (_, untouched remaining frontal ++ [])
    rw [List.append_nil]
    rfl
  · rw [if_neg h3]
    refine (if_neg h3).trans ?_
    simp only [bind_assoc, pure_bind, ← List.append_assoc]
    rfl

/-- All that a successful step says. -/
structure IsStep (D : Decompositions α) (widths : Assignment κ ℕ)
    (remaining : List (LinearEquation κ α)) (frontal : κ) (out : StepRows α)
    (hardRest softRest : List (LinearEquation κ α)) (c : Conditional κ α)
    (rest : List (LinearEquation κ α)) : Prop where
  touching_ne : touching remaining frontal ≠ []
  width_le : widthOf widths frontal ≤ totalRows (touching remaining frontal)
  reduced_eq : reduced D widths remaining frontal = .ok out
  conditional_eq : c = conditionalOf widths remaining frontal out.conditional
  rest_eq : rest = untouched remaining frontal ++ (hardRest ++ softRest)
  isHardRest : IsRemainder (separating widths remaining frontal) out.hard .constrained hardRest
  isSoftRest : IsRemainder (separating widths remaining frontal) out.soft .unit softRest

theorem isStep_of_eliminateNext {D : Decompositions α} {widths : Assignment κ ℕ}
    {remaining : List (LinearEquation κ α)} {frontal : κ} {c : Conditional κ α}
    {rest : List (LinearEquation κ α)}
    (h : eliminateNext D widths remaining frontal = .ok (c, rest)) :
    ∃ out hardRest softRest,
      IsStep D widths remaining frontal out hardRest softRest c rest := by
  rw [eliminateNext_eq] at h
  split_ifs at h with h1 h2
  · cases h
  · cases h
  obtain ⟨out, hout, h⟩ := Outcome.bind_eq_ok.mp h
  obtain ⟨more, hmore, h⟩ := Outcome.bind_eq_ok.mp h
  have hne : touching remaining frontal ≠ [] := fun h0 => h1 (by rw [h0]; rfl)
  unfold remainders at hmore
  split_ifs at hmore with h3
  · have h3 := List.isEmpty_iff.mp h3
    cases hmore
    cases h
    exact ⟨out, [], [], hne, not_lt.mp h2, hout, rfl, rfl, Or.inl ⟨rfl, Or.inl h3⟩,
      Or.inl ⟨rfl, Or.inl h3⟩⟩
  · have h3 : separating widths remaining frontal ≠ [] := fun h0 => h3 (by rw [h0]; rfl)
    obtain ⟨hardRest, hhard, hmore⟩ := Outcome.bind_eq_ok.mp hmore
    obtain ⟨softRest, hsoft, hmore⟩ := Outcome.bind_eq_ok.mp hmore
    cases hmore
    cases h
    exact ⟨out, hardRest, softRest, hne, not_lt.mp h2, hout, rfl, rfl,
      isRemainder_of_remainder h3 (Outcome.wrap_ofExcept_eq_ok.mp hhard),
      isRemainder_of_remainder h3 (Outcome.wrap_ofExcept_eq_ok.mp hsoft)⟩

end Next

end Elimination
end Kinodynamics
