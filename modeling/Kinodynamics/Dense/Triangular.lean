/-
# Upper triangular equations

`solveUpper r b` solves `r x = b` from the last row to the first. It reads the
upper triangle of `r` only, and has no answer if a diagonal entry is zero.

Key definitions: `Dense.solveUpperFrom`, `Dense.solveUpper`, `Dense.solveUpperColumns`.
Key theorems: `Dense.length_of_solveUpper`.
-/
import Kinodynamics.Dense

namespace Kinodynamics

namespace Dense

variable {α : Type} [Scalar α]

/-- What is left of the right-hand side `b` of row `k` once the unknowns after
`k`, listed in `later`, are moved over, last one first. -/
def carried (r : Dense α) (k : Nat) (b : α) (later : List α) : α :=
  later.zipIdx.foldr (fun (x, j) s => s - x * r.entry k (k + 1 + j)) b

/-- Solve rows `0, …, k - 1` when the unknowns from `k` on are `later`. -/
def solveUpperFrom (r : Dense α) (b : List α) : Nat → List α → Option (List α)
  | 0, later => some later
  | k + 1, later =>
    if Scalar.IsZero (r.entry k k) then none
    else solveUpperFrom r b k ((carried r k (b.getD k 0) later / r.entry k k) :: later)

/-- The solution of `r x = b`, read from the upper triangle of `r`. -/
def solveUpper (r : Dense α) (b : List α) : Option (List α) :=
  solveUpperFrom r b r.nrows []

/-- The solution of `r x = b` for every column of `b`. -/
def solveUpperColumns (r b : Dense α) : Option (Dense α) := do
  let columns ← (List.range b.ncols).mapM fun j => solveUpper r (b.column j)
  return ofFn r.nrows b.ncols fun i j => (columns.getD j []).getD i 0

theorem length_of_solveUpperFrom {r : Dense α} {b : List α} :
    ∀ {k : Nat} {later x : List α}, solveUpperFrom r b k later = some x →
      x.length = k + later.length
  | 0, later, x, h => by
    simp only [solveUpperFrom, Option.some.injEq] at h
    simp [h]
  | k + 1, later, x, h => by
    unfold solveUpperFrom at h
    split at h
    · simp at h
    · have := length_of_solveUpperFrom h
      simp only [List.length_cons] at this
      omega

/-- A solution has one entry for each row. -/
theorem length_of_solveUpper {r : Dense α} {b x : List α} (h : r.solveUpper b = some x) :
    x.length = r.nrows := by
  simpa using length_of_solveUpperFrom h

end Dense

end Kinodynamics
