/-
# Triangular factors by reflections

A reflection in a hyperplane keeps every sum of squares. Reflecting the rows of
a matrix so that one column after another is cleared below the diagonal gives an
upper triangular factor `R` with `Rᵀ R = Mᵀ M`. Each reflection is combined with
the sign that makes the diagonal entry it leaves nonnegative.

Key definitions: `Reflection`, `Reflection.ofColumn`, `Dense.clearColumn`,
`Dense.triangularFactor`.
-/
import Kinodynamics.Dense

namespace Kinodynamics

/-- A reflection that sends a vector to a multiple of the first basis vector. -/
structure Reflection (α : Type) where
  /-- Normal of the hyperplane; meaningless if `proper` fails. -/
  axis : List α
  /-- The first entry of the reflected vector. -/
  head : α
  /-- The vector was not already zero. -/
  proper : Bool

namespace Reflection

variable {α : Type} [Scalar α]

/-- The reflection that clears `x` below its first entry. The normal is `x` with
its length added to the first entry away from zero, scaled to length one. -/
def ofColumn (x : List α) : Reflection α :=
  let lengthSq := Scalar.normSq x
  let length := Scalar.sqrt lengthSq
  let first := x.headD 0
  let signed := Scalar.sign first * length
  let scale := (lengthSq + (Scalar.sign first * first) * length) * 2.0
  if Scalar.IsZero scale then ⟨x, signed, false⟩
  else
    let shifted := (first + signed) :: x.drop 1
    let scaled := shifted.map (· / Scalar.sqrt scale)
    ⟨scaled.map (· / Scalar.norm scaled), -signed, true⟩

/-- The vector reflected and multiplied by `s`. -/
def apply (axis : List α) (s : α) (x : List α) : List α :=
  let factor := Scalar.dot axis x * (s * (-2.0))
  List.zipWith (fun a b => a * factor + s * b) axis x

end Reflection

namespace Dense

variable {α : Type} [Scalar α]

/-- The column `j` from row `i` down. -/
def columnFrom (a : Dense α) (i j : Nat) : List α :=
  (List.range (a.nrows - i)).map fun k => a.entry (i + k) j

/-- One step of the factorisation: column `i` is cleared below the diagonal, its
diagonal entry becomes nonnegative, and the columns to its right follow. -/
def clearColumn (a : Dense α) (i : Nat) : Dense α :=
  let r := Reflection.ofColumn (a.columnFrom i i)
  let right : List (List α) := (List.range (a.ncols - (i + 1))).map fun k =>
    let x := a.columnFrom i (i + 1 + k)
    if r.proper then Reflection.apply r.axis (Scalar.sign r.head) x else x
  ofFn a.nrows a.ncols fun p q =>
    if p < i ∨ q < i then a.entry p q
    else if q = i then if p = i then Scalar.abs r.head else 0
    else (right.getD (q - (i + 1)) []).getD (p - i) 0

/-- The upper triangular factor: as many rows as the shorter side, zeros below
the diagonal. -/
def triangularFactor (a : Dense α) : Dense α :=
  let size := min a.nrows a.ncols
  let r := (List.range size).foldl clearColumn a
  ofFn size a.ncols fun i j => if j < i then 0 else r.entry i j

theorem nrows_triangularFactor (a : Dense α) :
    a.triangularFactor.nrows = min a.nrows a.ncols := rfl

theorem ncols_triangularFactor (a : Dense α) : a.triangularFactor.ncols = a.ncols := rfl

/-- The factor is upper triangular. -/
theorem entry_triangularFactor_of_lt (a : Dense α) {i j : Nat} (h : j < i) :
    a.triangularFactor.entry i j = 0 := by
  unfold triangularFactor
  rw [entry_ofFn]
  split <;> rfl

end Dense

end Kinodynamics
