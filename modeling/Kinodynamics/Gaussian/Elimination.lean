/-
# Sequential elimination

`eliminate` takes the variables of a linear system out one at a time, in the
order given. A step gathers the equations on the variable, stacks them as
`[A_frontal | A_separator | b]` with the separator in key order, and splits the
stack in two by a triangular factor: its upper rows give the variable in terms
of the separator, its lower rows are equations on the separator alone and go
back among the rest.

Soft equations are weighted first. Hard equations are never weighted. What they
reach of the variable, the range of their frontal block, they fix exactly; soft
equations settle only what is left in its null space. Rows of the hard equations
in which the variable no longer occurs remain hard.

The two matrix decompositions used are parameters, so that what elimination needs
of them can be stated.

Key definitions: `Decompositions`, `stackRows`, `stepSoft`, `stepHard`,
`eliminateNext`, `eliminate`.
-/
import Kinodynamics.Dense.Spectrum
import Kinodynamics.Gaussian.BayesNet

namespace Kinodynamics

/-- The decompositions that elimination uses. -/
structure Decompositions (α : Type) where
  /-- An upper triangular `R` with `Rᵀ R = Mᵀ M`, as many rows as the shorter
  side of `M`. -/
  triangular : Dense α → Dense α
  /-- Eigenvalues and an orthonormal basis of eigenvectors of a symmetric matrix. -/
  spectrum : Dense α → List (Eigenpair α)

/-- Reflections for the triangular factor, shifted rotations for the spectrum. -/
def Decompositions.standard {α : Type} [Scalar α] : Decompositions α where
  triangular := Dense.triangularFactor
  spectrum := Dense.spectrum

namespace Elimination

variable {κ α : Type} [Scalar α]

/-- Pivots of at most this size count as zero. -/
def negligiblePivot : α := 1e-12

/-- Singular values below this fraction of the largest span the null space. -/
def negligibleRatio : α := 1e-9

/-! ### Stacking -/

/-- The variables of a stack with their widths, frontal variable first. -/
abbrev Layout (κ : Type) := List (κ × Nat)

/-- The number of coefficient columns. -/
def width : Layout κ → Nat
  | [] => 0
  | (_, n) :: layout => n + width layout

/-- Row `i` of an equation laid out over the variables, right-hand side last. A
variable that the equation does not involve has zeros. -/
def rowOver [DecidableEq κ] (layout : Layout κ) (r : LinearEquation κ α) (i : Nat) : List α :=
  (layout.flatMap fun (key, n) => (List.range n).map fun j =>
    match r.coefficient? key with
    | some block => block.entry i j
    | none => 0) ++ [r.rhs.getD i 0]

/-- The rows of the equations, one equation below the other. -/
def stackRows [DecidableEq κ] (layout : Layout κ) (equations : List (LinearEquation κ α)) :
    Dense α :=
  Dense.ofRows (width layout + 1)
    (equations.flatMap fun r => (List.range r.rows).map (rowOver layout r))

/-- The columns of each variable cut out of rows laid out from column `c` on. -/
def cut (a : Dense α) : Nat → Layout κ → List (κ × Dense α)
  | _, [] => []
  | c, (key, n) :: rest => (key, a.view 0 c a.nrows n) :: cut a (c + n) rest

/-! ### One variable -/

/-- The triangular factor of an augmented matrix, with a nonnegative diagonal in
its coefficient columns. -/
def upperFactor (D : Decompositions α) (augmented : Dense α) : Dense α :=
  let r := D.triangular augmented
  Dense.ofFn r.nrows r.ncols fun i j =>
    if i < augmented.ncols - 1 ∧ r.entry i i < 0 then -r.entry i j else r.entry i j

/-- The first `count` pivots are all of some size. A zero pivot before the end of
the diagonal is reported; a diagonal that is too short is a fault of sizes. -/
def requirePivots (key : κ) (r : Dense α) (count : Nat) : Outcome (EliminationError κ) Unit :=
  (List.range count).foldlM (fun _ i =>
    if i < r.nrows ∧ i < r.ncols then
      if Scalar.abs (r.entry i i) ≤ negligiblePivot then Outcome.fail (.singular key)
      else .ok ()
    else Outcome.sizes) ()

/-- The first `count` rows, and the rows below without their first `count`
columns. -/
def splitBelow (r : Dense α) (count : Nat) : Dense α × Dense α :=
  (r.view 0 0 count r.ncols, r.view count count (r.nrows - count) (r.ncols - count))

/-- What a step leaves: a conditional over `[frontal | separator | b]`, and hard
and soft rows over `[separator | b]`. -/
structure StepRows (α : Type) where
  conditional : Dense α
  hard : Dense α
  soft : Dense α

/-- Eliminate `n` columns of soft rows. -/
def stepSoft (D : Decompositions α) (key : κ) (n : Nat) (soft : Dense α) :
    Outcome (EliminationError κ) (StepRows α) := do
  let r := upperFactor D soft
  requirePivots key r n
  let (conditional, rest) := splitBelow r n
  return ⟨conditional, Dense.zeros 0 (soft.ncols - n), rest⟩

/-- The eigenpairs by falling eigenvalue; equal ones keep their order. -/
def byEigenvalue (pairs : List (Eigenpair α)) : List (Eigenpair α) :=
  pairs.mergeSort fun p q => decide (q.value ≤ p.value)

/-- The singular value that belongs to an eigenvalue of the Gram matrix. -/
def singularValue (p : Eigenpair α) : α := Scalar.sqrt (Scalar.positivePart p.value)

/-- Singular values at or below this size span the null space. -/
def rankThreshold (pairs : List (Eigenpair α)) : α :=
  match pairs with
  | [] => negligiblePivot
  | p :: _ => Scalar.larger (negligibleRatio * singularValue p) negligiblePivot

/-- The eigenpairs of the range and those of the null space, from eigenpairs in
falling order. -/
def splitRange (pairs : List (Eigenpair α)) : List (Eigenpair α) × List (Eigenpair α) :=
  pairs.span fun p => decide (rankThreshold pairs < singularValue p)

/-- The matrix with the eigenvectors as columns, each of length `n`. -/
def basis (n : Nat) (pairs : List (Eigenpair α)) : Dense α :=
  Dense.ofFn n pairs.length fun i j =>
    match pairs[j]? with
    | some p => p.vector.getD i 0
    | none => 0

/-- Eliminate `n` columns touched by hard rows. With `V₁` a basis of the range of
the hard frontal block and `V₂` one of its null space, the hard rows fix `V₁ᵀ x`;
with that put in, the soft rows fix `V₂ᵀ x`; both are brought back to `x`. -/
def stepHard (D : Decompositions α) (key : κ) (n : Nat) (hard soft : Dense α) :
    Outcome (EliminationError κ) (StepRows α) := do
  if n = 0 then Outcome.sizes
  let tail := hard.ncols - n
  let hardFrontal := hard.view 0 0 hard.nrows n
  let pairs := byEigenvalue (D.spectrum (hardFrontal.transpose.mul hardFrontal))
  let (range, kernel) := splitRange pairs
  let v1 := basis n range
  let v2 := basis n kernel
  let rank := range.length
  let free := n - rank
  let hardFactor := upperFactor D
    ((hardFrontal.mul v1).beside (hard.view 0 n hard.nrows tail))
  requirePivots key hardFactor rank
  let (hardTop, hardRest) := splitBelow hardFactor rank
  let t1 := hardTop.view 0 0 rank rank
  let hardTail := hardTop.view 0 rank rank tail
  let gain ← match t1.solveUpperColumns hardTail with
    | some gain => pure gain
    | none => Outcome.fail (.singular key)
  let softFrontal := soft.view 0 0 soft.nrows n
  let softTail := (soft.view 0 n soft.nrows tail).sub ((softFrontal.mul v1).mul gain)
  if soft.nrows < free then Outcome.fail (.underDetermined key)
  let (softTop, softRest) ←
    if soft.nrows = 0 then pure (Dense.zeros 0 (free + tail), Dense.zeros 0 tail)
    else do
      let softFactor := upperFactor D ((softFrontal.mul v2).beside softTail)
      requirePivots key softFactor free
      pure (splitBelow softFactor free)
  let t2 := softTop.view 0 0 free free
  let conditional := upperFactor D
    (((t1.mul v1.transpose).beside hardTail).above
      ((t2.mul v2.transpose).beside (softTop.view 0 free free tail)))
  requirePivots key conditional n
  return ⟨conditional, hardRest, softRest⟩

/-! ### The whole run -/

variable [DecidableEq κ] [LT κ] [DecidableLT κ]

/-- The width of each variable, from its first block. All its blocks have to agree. -/
def widths (s : LinearSystem κ α) : Except (Mismatch κ) (Assignment κ Nat) :=
  (s.equations.flatMap LinearEquation.blocks).foldlM (fun widths (key, block) =>
    match widths.get? key with
    | none => .ok (widths.insert key block.ncols)
    | some n => if n = block.ncols then .ok widths else .error (.width key n block.ncols))
    Assignment.empty

/-- The equation over the separator that remainder rows form; none if there are
no rows. -/
def remainder (layout : Layout κ) (rest : Dense α) (noise : Nat → Noise α) :
    Except (Mismatch κ) (List (LinearEquation κ α)) :=
  if rest.nrows = 0 then .ok []
  else do
    let equation ← LinearEquation.make (cut rest 0 layout) (rest.column (width layout))
      (noise rest.nrows)
    return [equation]

/-- The number of rows of all equations together. -/
def totalRows : List (LinearEquation κ α) → Nat
  | [] => 0
  | r :: equations => r.rows + totalRows equations

/-- The keys other than `frontal` in the equations, in order. -/
def separator (frontal : κ) (equations : List (LinearEquation κ α)) : List κ :=
  sortedKeys ((equations.flatMap LinearEquation.keys).filter fun key => key ≠ frontal)

/-- Take one variable out of the remaining equations. -/
def eliminateNext (D : Decompositions α) (widths : Assignment κ Nat)
    (remaining : List (LinearEquation κ α)) (frontal : κ) :
    Outcome (EliminationError κ) (Conditional κ α × List (LinearEquation κ α)) := do
  let (touching, rest) := remaining.partition fun r => r.mentions frontal
  if touching.isEmpty then Outcome.fail (.underDetermined frontal)
  let n := (widths.get? frontal).getD 0
  let separating : Layout κ := (separator frontal touching).map fun key =>
    (key, (widths.get? key).getD 0)
  let layout := (frontal, n) :: separating
  if totalRows touching < n then Outcome.fail (.underDetermined frontal)
  let (hard, soft) := touching.partition LinearEquation.isHard
  let reduced ←
    if hard.isEmpty then stepSoft D frontal n (stackRows layout soft)
    else stepHard D frontal n (stackRows layout hard) (stackRows layout soft)
  let top := reduced.conditional.view 0 0 n reduced.conditional.ncols
  let conditional : Conditional κ α :=
    { frontal := frontal
      r := top.view 0 0 n n
      parents := cut top n separating
      d := top.column (width layout) }
  if separating.isEmpty then return (conditional, rest)
  let hardRest ← (Outcome.ofExcept (remainder separating reduced.hard .constrained)).wrap .mismatch
  let softRest ← (Outcome.ofExcept (remainder separating reduced.soft .unit)).wrap .mismatch
  return (conditional, rest ++ hardRest ++ softRest)

/-- Take the variables of the ordering out, first to last. -/
def eliminateAll (D : Decompositions α) (widths : Assignment κ Nat) :
    List κ → List (LinearEquation κ α) →
      Outcome (EliminationError κ) (List (Conditional κ α) × List (LinearEquation κ α))
  | [], remaining => .ok ([], remaining)
  | frontal :: ordering, remaining => do
    let (conditional, remaining) ← eliminateNext D widths remaining frontal
    let (conditionals, remaining) ← eliminateAll D widths ordering remaining
    return (conditional :: conditionals, remaining)

/-- The equations that elimination starts from: soft ones weighted, hard ones as
they are. -/
def prepared (s : LinearSystem κ α) : List (LinearEquation κ α) :=
  s.equations.map fun r => if r.isHard then r else r.weighted

end Elimination

open Elimination in
/-- The net that the system comes to when its variables are eliminated strictly in
the given order. -/
def eliminate {κ α : Type} [Scalar α] [DecidableEq κ] [LT κ] [DecidableLT κ]
    (D : Decompositions α) (s : LinearSystem κ α) (ordering : List κ) :
    Outcome (EliminationError κ) (BayesNet κ α) := do
  let widths ← (Outcome.ofExcept (widths s)).wrap .mismatch
  let (conditionals, remaining) ← eliminateAll D widths ordering (prepared s)
  match remaining.flatMap LinearEquation.keys with
  | key :: _ => Outcome.fail (.notInOrdering key)
  | [] => return ⟨conditionals⟩

end Kinodynamics
