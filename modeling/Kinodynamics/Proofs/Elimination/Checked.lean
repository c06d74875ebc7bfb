/-
# Elimination with every access checked

The operations that elimination is written with are total: a view past the shape of a matrix reads
zeros, a difference of counts stops at zero, a lookup that misses gives a width of zero. Here the
same run is written once more with a check at each of them, and stops at a fault of sizes where one
fails (`checkedEliminate`). No check ever fails: if the spectrum of a frontal block has one pair for
each of its columns, the checked run is the run, on every system and for every ordering
(`checkedEliminate_eq`). This uses shapes only, so it holds for every scalar, and for reflections and
rotations on binary64 numbers too (`checkedEliminate_standard`).

The pivots are not looked up here: `requirePivots` has its own check of the diagonal.

Key definitions: `Outcome.within`, `Elimination.checkedStepSoft`, `Elimination.checkedStepHard`,
`Elimination.checkedNext`, `checkedEliminate`.
Key theorems: `Elimination.checkedStepHard_eq`, `Elimination.checkedNext_eq`,
`checkedEliminate_eq`, `checkedEliminate_standard`.
-/
import Kinodynamics.Proofs.Dense.Triangular
import Kinodynamics.Proofs.Elimination.Run
import Kinodynamics.Proofs.Elimination.Shapes
import Kinodynamics.Proofs.Elimination.Spectrum

namespace Kinodynamics

/-! ### Checked operations -/

namespace Outcome

variable {ε β γ : Type}

/-- The answer if the operands fit, a fault of sizes otherwise. -/
def within (p : Prop) [Decidable p] (b : β) : Outcome ε β := if p then .ok b else sizes

theorem within_bind {p : Prop} [Decidable p] (h : p) (b : β) (f : β → Outcome ε γ) :
    (within p b >>= f) = f b := by
  rw [within, if_pos h]
  rfl

/-- Computations that go on alike after each answer are equal. -/
theorem bind_congr {x : Outcome ε β} {f g : β → Outcome ε γ} (h : ∀ b, x = .ok b → f b = g b) :
    x >>= f = x >>= g := by
  cases x with
  | ok b => exact h b rfl
  | error e => rfl

/-- What is left of `m` without `n`, which must not be more. -/
def leftover (m n : ℕ) : Outcome ε ℕ := within (n ≤ m) (m - n)

theorem leftover_bind {m n : ℕ} (h : n ≤ m) (f : ℕ → Outcome ε γ) : leftover m n >>= f = f (m - n) :=
  within_bind h _ f

end Outcome

namespace Dense

variable {ε α γ : Type} [Scalar α] {a b : Dense α}

/-- A view that lies within the matrix. -/
def checkedView (a : Dense α) (r c m n : ℕ) : Outcome ε (Dense α) :=
  .within (r + m ≤ a.nrows ∧ c + n ≤ a.ncols) (a.view r c m n)

theorem checkedView_bind {r c m n : ℕ} (hm : r + m ≤ a.nrows) (hn : c + n ≤ a.ncols)
    (f : Dense α → Outcome ε γ) : a.checkedView r c m n >>= f = f (a.view r c m n) :=
  Outcome.within_bind ⟨hm, hn⟩ _ f

/-- A column of the matrix. -/
def checkedColumn (a : Dense α) (j : ℕ) : Outcome ε (List α) := .within (j < a.ncols) (a.column j)

theorem checkedColumn_bind {j : ℕ} (h : j < a.ncols) (f : List α → Outcome ε γ) :
    a.checkedColumn j >>= f = f (a.column j) :=
  Outcome.within_bind h _ f

/-- A product where the columns of `a` meet the rows of `b`. -/
def checkedMul (a b : Dense α) : Outcome ε (Dense α) := .within (a.ncols = b.nrows) (a.mul b)

theorem checkedMul_bind (h : a.ncols = b.nrows) (f : Dense α → Outcome ε γ) :
    a.checkedMul b >>= f = f (a.mul b) :=
  Outcome.within_bind h _ f

/-- A difference of matrices of one shape. -/
def checkedSub (a b : Dense α) : Outcome ε (Dense α) :=
  .within (a.nrows = b.nrows ∧ a.ncols = b.ncols) (a.sub b)

theorem checkedSub_bind (hm : a.nrows = b.nrows) (hn : a.ncols = b.ncols) (f : Dense α → Outcome ε γ) :
    a.checkedSub b >>= f = f (a.sub b) :=
  Outcome.within_bind ⟨hm, hn⟩ _ f

/-- Matrices of one height beside each other. -/
def checkedBeside (a b : Dense α) : Outcome ε (Dense α) := .within (a.nrows = b.nrows) (a.beside b)

theorem checkedBeside_bind (h : a.nrows = b.nrows) (f : Dense α → Outcome ε γ) :
    a.checkedBeside b >>= f = f (a.beside b) :=
  Outcome.within_bind h _ f

/-- Matrices of one width above each other. -/
def checkedAbove (a b : Dense α) : Outcome ε (Dense α) := .within (a.ncols = b.ncols) (a.above b)

theorem checkedAbove_bind (h : a.ncols = b.ncols) (f : Dense α → Outcome ε γ) :
    a.checkedAbove b >>= f = f (a.above b) :=
  Outcome.within_bind h _ f

end Dense

namespace Elimination

open Outcome (leftover)

variable {κ ε α : Type} [Scalar α]

/-- The factor of a matrix that has a column for the right-hand side. -/
def checkedFactor (D : Decompositions α) (augmented : Dense α) : Outcome ε (Dense α) :=
  .within (0 < augmented.ncols) (upperFactor D augmented)

/-- The first `count` rows, and the rows below without their first `count` columns. -/
def checkedSplit (r : Dense α) (count : ℕ) : Outcome ε (Dense α × Dense α) := do
  let top ← r.checkedView 0 0 count r.ncols
  let rest ← r.checkedView count count (← leftover r.nrows count) (← leftover r.ncols count)
  return (top, rest)

/-- As many eigenvectors of length `n` as there are columns for them. -/
def checkedBasis (n count : ℕ) (pairs : List (Eigenpair α)) : Outcome ε (Dense α) :=
  .within (pairs.length = count ∧ ∀ p ∈ pairs, p.vector.length = n) (basis n pairs)

/-- The solution of a square triangular matrix for right-hand sides of its height. -/
def checkedGain (key : κ) (t b : Dense α) : Outcome (EliminationError κ) (Dense α) := do
  .within (t.nrows = t.ncols ∧ b.nrows = t.nrows) ()
  (t.solveUpperColumns b).elim (Outcome.fail (.singular key)) .ok

/-- The rows that fix the null space and the others. -/
def checkedSplitSoft (D : Decompositions α) (key : κ) (free tail : ℕ) (projected : Dense α) :
    Outcome (EliminationError κ) (Dense α × Dense α) :=
  if projected.nrows = 0 then .ok (Dense.zeros 0 (free + tail), Dense.zeros 0 tail)
  else do
    let factor ← checkedFactor D projected
    requirePivots key factor free
    checkedSplit factor free

/-! ### Checked steps -/

/-- A step on soft rows, checked. -/
def checkedStepSoft (D : Decompositions α) (key : κ) (n : ℕ) (soft : Dense α) :
    Outcome (EliminationError κ) (StepRows α) := do
  let tail ← leftover soft.ncols n
  let factor ← checkedFactor D soft
  requirePivots key factor n
  let parts ← checkedSplit factor n
  return ⟨parts.1, Dense.zeros 0 tail, parts.2⟩

/-- A step on hard rows, checked. -/
def checkedStepHard (D : Decompositions α) (key : κ) (n : ℕ) (hard soft : Dense α) :
    Outcome (EliminationError κ) (StepRows α) := do
  let tail ← leftover hard.ncols n
  let hardFrontal ← hard.checkedView 0 0 hard.nrows n
  let gram ← hardFrontal.transpose.checkedMul hardFrontal
  let parts := splitRange (byEigenvalue (← .within (0 < n) (D.spectrum gram)))
  let rank := parts.1.length
  let free ← leftover n rank
  let v1 ← checkedBasis n rank parts.1
  let v2 ← checkedBasis n free parts.2
  let stack ← (← hardFrontal.checkedMul v1).checkedBeside (← hard.checkedView 0 n hard.nrows tail)
  let factor ← checkedFactor D stack
  requirePivots key factor rank
  let hardParts ← checkedSplit factor rank
  let t1 ← hardParts.1.checkedView 0 0 rank rank
  let hardTail ← hardParts.1.checkedView 0 rank rank tail
  let gain ← checkedGain key t1 hardTail
  let softFrontal ← soft.checkedView 0 0 soft.nrows n
  let moved ← (← softFrontal.checkedMul v1).checkedMul gain
  let softTail ← (← soft.checkedView 0 n soft.nrows tail).checkedSub moved
  if soft.nrows < free then Outcome.fail (.underDetermined key)
  else do
    let projected ← (← softFrontal.checkedMul v2).checkedBeside softTail
    let softParts ← checkedSplitSoft D key free tail projected
    let t2 ← softParts.1.checkedView 0 0 free free
    let upper ← (← t1.checkedMul v1.transpose).checkedBeside hardTail
    let lower ← (← t2.checkedMul v2.transpose).checkedBeside
      (← softParts.1.checkedView 0 free free tail)
    let conditional ← checkedFactor D (← upper.checkedAbove lower)
    requirePivots key conditional n
    return ⟨conditional, hardParts.2, softParts.2⟩

/-! ### Checked stacks and remainders -/

/-- The first column of a variable in a layout. -/
def firstColumn? [DecidableEq κ] : Layout κ → κ → Option ℕ
  | [], _ => none
  | (k, n) :: layout, key => if k = key then some 0 else (firstColumn? layout key).map (n + ·)

/-- The columns of a block lie within the layout, and the block has the given height. -/
def fitsAt [DecidableEq κ] (layout : Layout κ) (rows : ℕ) (b : κ × Dense α) : Bool :=
  (firstColumn? layout b.1).any fun c => c + b.2.ncols ≤ width layout ∧ b.2.nrows = rows

/-- The stack of equations all of whose blocks find their place. -/
def checkedStack [DecidableEq κ] (layout : Layout κ) (equations : List (LinearEquation κ α)) :
    Outcome ε (Dense α) :=
  .within (equations.all fun r => r.blocks.all (fitsAt layout r.rows)) (stackRows layout equations)

/-- The columns of each variable cut out of rows from column `c` on. -/
def checkedCut (a : Dense α) : ℕ → Layout κ → Outcome ε (List (κ × Dense α))
  | _, [] => .ok []
  | c, (key, n) :: layout => do
    let block ← a.checkedView 0 c a.nrows n
    let blocks ← checkedCut a (c + n) layout
    return (key, block) :: blocks

/-- The equation that remainder rows form, which must not be rejected. -/
def checkedRemainder [DecidableEq κ] (layout : Layout κ) (rest : Dense α) (noise : ℕ → Noise α) :
    Outcome ε (List (LinearEquation κ α)) :=
  if rest.nrows = 0 then .ok []
  else do
    let blocks ← checkedCut rest 0 layout
    let rhs ← rest.checkedColumn (width layout)
    let equation ← Outcome.ofOption (LinearEquation.make blocks rhs (noise rest.nrows)).toOption
    return [equation]

/-- The widths of variables, all of them listed. -/
def checkedLayout [DecidableEq κ] (widths : Assignment κ ℕ) : List κ → Outcome ε (Layout κ)
  | [] => .ok []
  | key :: keys => do
    let n ← Outcome.ofOption (widths.get? key)
    let layout ← checkedLayout widths keys
    return (key, n) :: layout

/-! ### The checked run -/

section Run

variable [DecidableEq κ] [LT κ] [DecidableLT κ]

/-- The step on the stacks that the equations call for, checked. -/
def checkedReduced (D : Decompositions α) (remaining : List (LinearEquation κ α)) (frontal : κ) (n : ℕ)
    (hard soft : Dense α) : Outcome (EliminationError κ) (StepRows α) :=
  if (hardOn remaining frontal).isEmpty then checkedStepSoft D frontal n soft
  else checkedStepHard D frontal n hard soft

/-- The remainders of a step, checked. -/
def checkedRemainders (sep : Layout κ) (out : StepRows α) : Outcome ε (List (LinearEquation κ α)) :=
  if sep.isEmpty then .ok []
  else do
    let hard ← checkedRemainder sep out.hard .constrained
    let soft ← checkedRemainder sep out.soft .unit
    return hard ++ soft

/-- Take one variable out of the remaining equations, checked. -/
def checkedNext (D : Decompositions α) (widths : Assignment κ ℕ) (remaining : List (LinearEquation κ α))
    (frontal : κ) : Outcome (EliminationError κ) (Conditional κ α × List (LinearEquation κ α)) :=
  if (touching remaining frontal).isEmpty then Outcome.fail (.underDetermined frontal)
  else do
    let n ← (widths.get? frontal).elim (Outcome.fail (.underDetermined frontal)) .ok
    let sep ← checkedLayout widths (separator frontal (touching remaining frontal))
    if totalRows (touching remaining frontal) < n then Outcome.fail (.underDetermined frontal)
    else do
      let hard ← checkedStack ((frontal, n) :: sep) (hardOn remaining frontal)
      let soft ← checkedStack ((frontal, n) :: sep) (softOn remaining frontal)
      let out ← checkedReduced D remaining frontal n hard soft
      let top ← out.conditional.checkedView 0 0 n out.conditional.ncols
      let r ← top.checkedView 0 0 n n
      let parents ← checkedCut top n sep
      let d ← top.checkedColumn (width ((frontal, n) :: sep))
      let conditional : Conditional κ α := { frontal := frontal, r := r, parents := parents, d := d }
      let more ← checkedRemainders sep out
      return (conditional, untouched remaining frontal ++ more)

/-- Take the variables of the ordering out, first to last, checked. -/
def checkedAll (D : Decompositions α) (widths : Assignment κ ℕ) :
    List κ → List (LinearEquation κ α) →
      Outcome (EliminationError κ) (List (Conditional κ α) × List (LinearEquation κ α))
  | [], remaining => .ok ([], remaining)
  | frontal :: ordering, remaining => do
    let (conditional, remaining) ← checkedNext D widths remaining frontal
    let (conditionals, remaining) ← checkedAll D widths ordering remaining
    return (conditional :: conditionals, remaining)

end Run

/-! ### The checks of a step pass -/

section Steps

variable {D : Decompositions α} {key : κ} {n tail count : ℕ} {hard soft : Dense α}

theorem checkedFactor_bind {β : Type} {a : Dense α} (h : 0 < a.ncols) (f : Dense α → Outcome ε β) :
    checkedFactor D a >>= f = f (upperFactor D a) :=
  Outcome.within_bind h _ f

theorem checkedSplit_bind {β : Type} {r : Dense α} (hr : count ≤ r.nrows) (hc : count ≤ r.ncols)
    (f : Dense α × Dense α → Outcome ε β) : checkedSplit r count >>= f = f (splitBelow r count) := by
  rw [checkedSplit, bind_assoc, Dense.checkedView_bind (by omega) (by omega), bind_assoc,
    Outcome.leftover_bind hr, bind_assoc, Outcome.leftover_bind hc, bind_assoc,
    Dense.checkedView_bind (by omega) (by omega)]
  rfl

theorem checkedStepSoft_eq (hs : soft.ncols = n + (tail + 1)) :
    checkedStepSoft D key n soft = stepSoft D key n soft := by
  rw [checkedStepSoft, stepSoft, Outcome.leftover_bind (by omega), checkedFactor_bind (by omega)]
  refine Outcome.bind_congr fun _ hpivots => ?_
  rw [checkedSplit_bind (le_nrows_of_requirePivots hpivots) (le_ncols_of_requirePivots hpivots)]

theorem checkedBasis_bind {β : Type} {pairs : List (Eigenpair α)} (hcount : pairs.length = count)
    (hvectors : ∀ p ∈ pairs, p.vector.length = n) (f : Dense α → Outcome ε β) :
    checkedBasis n count pairs >>= f = f (basis n pairs) :=
  Outcome.within_bind ⟨hcount, hvectors⟩ _ f

theorem checkedGain_eq : checkedGain key (rangeFactor D n hard) (rangeTail D n hard) =
    rangeGain D n hard key := by
  rw [checkedGain, Outcome.within_bind ⟨rfl, rfl⟩, rangeGain]
  cases (rangeFactor D n hard).solveUpperColumns (rangeTail D n hard) <;> rfl

theorem checkedSplitSoft_eq {free : ℕ} {projected : Dense α} (h : 0 < projected.ncols) :
    checkedSplitSoft D key free tail projected = splitSoft D key free tail projected := by
  unfold checkedSplitSoft splitSoft
  split_ifs
  · rfl
  · rw [checkedFactor_bind h]
    refine Outcome.bind_congr fun _ hpivots => ?_
    rw [← bind_pure (checkedSplit _ _), checkedSplit_bind (le_nrows_of_requirePivots hpivots)
      (le_ncols_of_requirePivots hpivots)]

theorem length_vector_of_mem (hS : D.HasFullSpectrum) {p : Eigenpair α}
    (hp : p ∈ rangePairs D n hard ++ kernelPairs D n hard) : p.vector.length = n := by
  rw [rangePairs, kernelPairs, splitRange_append, frontalPairs, (byEigenvalue_perm _).mem_iff] at hp
  exact hS.length_vector n hard p hp

/-- **No check of a step on hard rows fails.** -/
theorem checkedStepHard_eq (hD : D.IsTriangular) (hS : D.HasFullSpectrum)
    (hc : hard.ncols = n + (tail + 1)) (hs : soft.ncols = n + (tail + 1)) :
    checkedStepHard D key n hard soft = stepHard D key n hard soft := by
  have hlength := (frontalRank_add_length D n hard).trans (hS.length_eq n hard)
  have hrange : ∀ p ∈ rangePairs D n hard, p.vector.length = n := fun p hp =>
    length_vector_of_mem hS (List.mem_append_left _ hp)
  have hkernel : ∀ p ∈ kernelPairs D n hard, p.vector.length = n := fun p hp =>
    length_vector_of_mem hS (List.mem_append_right _ hp)
  have hfactor : (hardFactor D n hard).ncols = frontalRank D n hard + (hard.ncols - n) :=
    ncols_upperFactor hD _
  rw [stepHard_eq, checkedStepHard, Outcome.leftover_bind (by omega),
    Dense.checkedView_bind (by omega) (by omega), Dense.checkedMul_bind rfl]
  by_cases hn : n = 0
  · rw [if_pos hn, Outcome.within, if_neg (by omega)]
    rfl
  rw [if_neg hn, Outcome.within_bind (Nat.pos_of_ne_zero hn)]
  refine (Outcome.leftover_bind (show frontalRank D n hard ≤ n by omega) _).trans ?_
  refine (checkedBasis_bind rfl hrange _).trans ?_
  refine (checkedBasis_bind (by omega) hkernel _).trans ?_
  refine (Dense.checkedMul_bind (by rfl) _).trans ?_
  refine (Dense.checkedView_bind (by omega) (by omega) _).trans ?_
  refine (Dense.checkedBeside_bind (by rfl) _).trans ?_
  refine (checkedFactor_bind (show 0 < frontalRank D n hard + (hard.ncols - n) by omega) _).trans ?_
  -- the rows that fix the range
  refine Outcome.bind_congr fun _ hpivots => ?_
  have hrows := le_nrows_of_requirePivots hpivots
  refine (checkedSplit_bind hrows (le_ncols_of_requirePivots hpivots) _).trans ?_
  have htop : (hardTop D n hard).ncols = frontalRank D n hard + (hard.ncols - n) := hfactor
  refine (Dense.checkedView_bind (show 0 + frontalRank D n hard ≤ frontalRank D n hard by omega)
    (show 0 + frontalRank D n hard ≤ (hardTop D n hard).ncols by omega) _).trans ?_
  refine (Dense.checkedView_bind (show 0 + frontalRank D n hard ≤ frontalRank D n hard by omega)
    (show frontalRank D n hard + (hard.ncols - n) ≤ (hardTop D n hard).ncols by omega) _).trans ?_
  refine (congrArg (· >>= _) checkedGain_eq).trans ?_
  -- the soft rows with the range put in
  refine Outcome.bind_congr fun gain hgain => ?_
  obtain ⟨hgainRows, hgainCols, -⟩ := Dense.solveUpperColumns_eq_some (rangeGain_eq_ok_iff.mp hgain)
  refine (Dense.checkedView_bind (by omega) (by omega) _).trans ?_
  refine (Dense.checkedMul_bind (by rfl) _).trans ?_
  refine (Dense.checkedMul_bind (by exact hgainRows.symm) _).trans ?_
  refine (Dense.checkedView_bind (by omega) (by omega) _).trans ?_
  refine (Dense.checkedSub_bind (by rfl) (by exact hgainCols.symm) _).trans ?_
  by_cases hfew : soft.nrows < n - frontalRank D n hard
  · rw [if_pos hfew, if_pos hfew]
  rw [if_neg hfew, if_neg hfew]
  refine (Dense.checkedMul_bind (by rfl) _).trans ?_
  refine (Dense.checkedBeside_bind (by rfl) _).trans ?_
  have hprojected : (softProjected D n hard soft gain).ncols =
      n - frontalRank D n hard + (hard.ncols - n) := by
    show (kernelPairs D n hard).length + (hard.ncols - n) = _
    omega
  have hsplit : checkedSplitSoft D key (n - frontalRank D n hard) (hard.ncols - n)
      (softProjected D n hard soft gain) = splitSoft D key (n - frontalRank D n hard) (hard.ncols - n)
        (softProjected D n hard soft gain) := checkedSplitSoft_eq (by omega)
  refine (congrArg (· >>= _) hsplit).trans ?_
  refine Outcome.bind_congr fun parts hparts => ?_
  obtain ⟨hpartsRows, hpartsCols, -⟩ := shape_of_splitSoft hD hprojected (not_lt.mp hfew) hparts
  -- both brought back to the variable
  refine (Dense.checkedView_bind (by omega) (by omega) _).trans ?_
  refine (Dense.checkedMul_bind (by rfl) _).trans ?_
  refine (Dense.checkedBeside_bind (by rfl) _).trans ?_
  refine (Dense.checkedMul_bind (show n - frontalRank D n hard = (kernelPairs D n hard).length by omega)
    _).trans ?_
  refine (Dense.checkedView_bind (by omega) (by omega) _).trans ?_
  refine (Dense.checkedBeside_bind (by rfl) _).trans ?_
  refine (Dense.checkedAbove_bind (by rfl) _).trans ?_
  exact checkedFactor_bind (show 0 < n + (hard.ncols - n) by omega) _

end Steps

/-! ### The checks of the run pass -/

section Run

variable [LinearOrder κ] {D : Decompositions α} {widths : Assignment κ ℕ}
  {remaining rest : List (LinearEquation κ α)} {frontal : κ} {out : StepRows α} {layout : Layout κ}

omit [LinearOrder κ] in
/-- A variable of a layout has its columns in it. -/
theorem exists_firstColumn [DecidableEq κ] {key : κ} {n : ℕ} : ∀ {layout : Layout κ},
    (layout.map Prod.fst).Nodup → (key, n) ∈ layout →
      ∃ c, firstColumn? layout key = some c ∧ c + n ≤ width layout
  | [], _, h => by cases h
  | (k, m) :: layout, hnodup, h => by
    obtain ⟨hnew, hnodup⟩ := List.nodup_cons.mp hnodup
    rcases List.mem_cons.mp h with heq | h
    · cases heq
      exact ⟨0, if_pos rfl, by rw [width]; omega⟩
    · have hne : k ≠ key := fun hk => hnew (hk ▸ List.mem_map.mpr ⟨(key, n), h, rfl⟩)
      obtain ⟨c, hc, hle⟩ := exists_firstColumn hnodup h
      exact ⟨m + c, by rw [firstColumn?, if_neg hne, hc]; rfl, by rw [width]; omega⟩

theorem checkedStack_bind {β : Type} {equations : List (LinearEquation κ α)}
    (hnodup : (layout.map Prod.fst).Nodup)
    (h : ∀ r ∈ equations, ∀ b ∈ r.blocks, (b.1, b.2.ncols) ∈ layout) (f : Dense α → Outcome ε β) :
    checkedStack layout equations >>= f = f (stackRows layout equations) := by
  refine Outcome.within_bind (List.all_eq_true.mpr fun r hr => List.all_eq_true.mpr fun b hb => ?_) _ f
  obtain ⟨c, hc, hle⟩ := exists_firstColumn hnodup (h r hr b hb)
  rw [fitsAt, hc]
  exact decide_eq_true ⟨hle, r.block_nrows b hb⟩

omit [LinearOrder κ] in
theorem checkedCut_eq (a : Dense α) : ∀ {c : ℕ} {layout : Layout κ}, c + width layout ≤ a.ncols →
    (checkedCut a c layout : Outcome ε _) = .ok (cut a c layout)
  | _, [], _ => rfl
  | c, (key, n) :: layout, h => by
    rw [width] at h
    rw [checkedCut, Dense.checkedView_bind (by omega) (by omega), checkedCut_eq a (by omega)]
    rfl

/-- Remainder rows over a separator are never rejected. -/
theorem checkedRemainder_eq (hl : layout ≠ []) (hnodup : (layout.map Prod.fst).Nodup)
    {noise : ℕ → Noise α} (hnoise : ∀ n, (noise n).dim = n) {rows : Dense α}
    (hwidth : width layout < rows.ncols) :
    checkedRemainder layout rows noise =
      (Outcome.ofExcept (remainder layout rows noise)).wrap EliminationError.mismatch := by
  obtain ⟨equations, hequations, -⟩ := exists_remainder hl hnodup noise hnoise rows
  rw [hequations]
  unfold remainder at hequations
  unfold checkedRemainder
  by_cases h0 : rows.nrows = 0
  · rw [if_pos h0] at hequations ⊢
    cases hequations
    rfl
  · rw [if_neg h0] at hequations ⊢
    obtain ⟨r, hr, hequations⟩ := Except.bind_eq_ok.mp hequations
    cases hequations
    rw [checkedCut_eq rows (by omega)]
    refine (Dense.checkedColumn_bind hwidth _).trans ?_
    rw [hr]
    rfl

theorem checkedLayout_eq : ∀ {keys : List κ}, (∀ k ∈ keys, widths.get? k = some (widthOf widths k)) →
    (checkedLayout widths keys : Outcome ε _) = .ok (keys.map fun k => (k, widthOf widths k))
  | [], _ => rfl
  | key :: keys, h => by
    obtain ⟨hkey, hkeys⟩ := List.forall_mem_cons.mp h
    rw [checkedLayout, checkedLayout_eq hkeys, hkey]
    rfl

theorem fitsStep_of_reduced (hD : D.IsTriangular) (hS : D.HasFullSpectrum)
    (h : reduced D widths remaining frontal = .ok out) :
    FitsStep (widthOf widths frontal) (width (separating widths remaining frontal) + 1) out := by
  unfold reduced at h
  split_ifs at h
  · exact fitsStep_of_stepSoft hD (Nat.add_assoc _ _ _) h
  · refine fitsStep_of_stepHard hD ?_ (Nat.add_assoc _ _ _) h
    exact (frontalRank_add_length D _ _).trans (hS.length_eq _ _)

theorem checkedReduced_eq (hD : D.IsTriangular) (hS : D.HasFullSpectrum) :
    checkedReduced D remaining frontal (widthOf widths frontal) (hardStack widths remaining frontal)
      (softStack widths remaining frontal) = reduced D widths remaining frontal :=
  if_congr Iff.rfl (checkedStepSoft_eq (Nat.add_assoc _ _ _))
    (checkedStepHard_eq hD hS (Nat.add_assoc _ _ _) (Nat.add_assoc _ _ _))

theorem checkedRemainders_eq (hhard : out.hard.ncols = width (separating widths remaining frontal) + 1)
    (hsoft : out.soft.ncols = width (separating widths remaining frontal) + 1) :
    checkedRemainders (separating widths remaining frontal) out =
      remainders widths remaining frontal out := by
  unfold checkedRemainders remainders
  split_ifs with hempty
  · rfl
  have hl : separating widths remaining frontal ≠ [] := fun h => hempty (List.isEmpty_iff.mpr h)
  have hnodup : ((separating widths remaining frontal).map Prod.fst).Nodup :=
    pairwise_separating.imp fun h => h.ne
  rw [checkedRemainder_eq hl hnodup (fun _ => rfl) (by omega),
    checkedRemainder_eq hl hnodup (fun _ => rfl) (by omega)]

/-- **No check of a step fails.** -/
theorem checkedNext_eq (hD : D.IsTriangular) (hS : D.HasFullSpectrum) (hfit : Fitted widths remaining) :
    checkedNext D widths remaining frontal = eliminateNext D widths remaining frontal := by
  rw [eliminateNext_eq, checkedNext]
  by_cases hempty : (touching remaining frontal).isEmpty = true
  · rw [if_pos hempty, if_pos hempty]
  rw [if_neg hempty, if_neg hempty]
  -- the variable and its separator are listed
  have hfrontal := hfit.get?_eq_widthOf (frontal_mem_mentioned fun h => hempty (List.isEmpty_iff.mpr h))
  have hseparator : ∀ k ∈ separator frontal (touching remaining frontal),
      widths.get? k = some (widthOf widths k) := fun k hk => by
    have hk : k ∈ (separating widths remaining frontal).map Prod.fst := by
      rwa [map_fst_separating]
    exact hfit.get?_eq_widthOf (mentioned_of_touching (mem_separating.mp hk).2)
  rw [hfrontal, checkedLayout_eq hseparator]
  refine if_congr Iff.rfl rfl ?_
  -- the stacks
  have hblocks : ∀ p : LinearEquation κ α → Bool, ∀ r ∈ (touching remaining frontal).filter p,
      ∀ b ∈ r.blocks, (b.1, b.2.ncols) ∈ layoutOf widths remaining frontal := fun p r hr b hb =>
    hfit.mem_layoutOf (List.mem_of_mem_filter hr) hb
  refine (checkedStack_bind nodup_layoutOf (hblocks fun r => r.isHard) _).trans ?_
  refine (checkedStack_bind nodup_layoutOf (hblocks fun r => !r.isHard) _).trans ?_
  refine (congrArg (· >>= _) (checkedReduced_eq hD hS)).trans ?_
  -- the conditional and the remainders
  refine Outcome.bind_congr fun out hout => ?_
  obtain ⟨hrows, hcols, hhard, hsoft⟩ := fitsStep_of_reduced hD hS hout
  set top := out.conditional.view 0 0 (widthOf widths frontal) out.conditional.ncols
  have htopRows : top.nrows = widthOf widths frontal := rfl
  have htopCols : top.ncols = out.conditional.ncols := rfl
  refine (Dense.checkedView_bind (by omega) (by omega) _).trans ?_
  refine (Dense.checkedView_bind (a := top) (by omega) (by omega) _).trans ?_
  have hlayout : widthOf widths frontal + width (separating widths remaining frontal) < top.ncols := by
    omega
  refine (congrArg (· >>= _) (checkedCut_eq top hlayout.le)).trans ?_
  refine (Dense.checkedColumn_bind (a := top) hlayout _).trans ?_
  exact congrArg (· >>= _) (checkedRemainders_eq hhard hsoft)

/-- **No check of a run fails.** -/
theorem checkedAll_eq (hD : D.IsTriangular) (hS : D.HasFullSpectrum) : ∀ {ordering : List κ}
    {remaining : List (LinearEquation κ α)}, Fitted widths remaining →
      checkedAll D widths ordering remaining = eliminateAll D widths ordering remaining
  | [], _, _ => rfl
  | frontal :: ordering, remaining, hfit => by
    rw [checkedAll, eliminateAll, checkedNext_eq hD hS hfit]
    refine Outcome.bind_congr fun next hnext => ?_
    obtain ⟨c, rest⟩ := next
    obtain ⟨out, hardRest, softRest, hstep⟩ := isStep_of_eliminateNext hnext
    exact congrArg (· >>= _) (checkedAll_eq hD hS (hstep.fitted hfit))

end Run

end Elimination

open Elimination in
/-- The net that a system comes to, with every access checked. -/
def checkedEliminate {κ α : Type} [Scalar α] [DecidableEq κ] [LT κ] [DecidableLT κ]
    (D : Decompositions α) (s : LinearSystem κ α) (ordering : List κ) :
    Outcome (EliminationError κ) (BayesNet κ α) := do
  let widths ← (Outcome.ofExcept (widths s)).wrap .mismatch
  let (conditionals, remaining) ← checkedAll D widths ordering (prepared s)
  match remaining.flatMap LinearEquation.keys with
  | key :: _ => Outcome.fail (.notInOrdering key)
  | [] => return ⟨conditionals⟩

open Elimination in
/-- **No check of elimination fails**: on every system and for every ordering the checked run is the
run. -/
theorem checkedEliminate_eq {κ α : Type} [Scalar α] [LinearOrder κ] {D : Decompositions α}
    (hD : D.IsTriangular) (hS : D.HasFullSpectrum) (s : LinearSystem κ α) (ordering : List κ) :
    checkedEliminate D s ordering = eliminate D s ordering := by
  rw [checkedEliminate, eliminate]
  refine Outcome.bind_congr fun w hw => ?_
  have hfit := (widths_eq_ok (Outcome.wrap_ofExcept_eq_ok.mp hw)).1
  exact congrArg (· >>= _) (checkedAll_eq hD hS (fitted_prepared hfit))

/-- So it is for reflections and rotations, at every scalar. -/
theorem checkedEliminate_standard {κ α : Type} [Scalar α] [LinearOrder κ] (s : LinearSystem κ α)
    (ordering : List κ) : checkedEliminate .standard s ordering = eliminate .standard s ordering :=
  checkedEliminate_eq Decompositions.standard_isTriangular Decompositions.standard_hasFullSpectrum s
    ordering

end Kinodynamics
