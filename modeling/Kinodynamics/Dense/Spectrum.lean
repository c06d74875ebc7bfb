/-
# Eigenvalues of a symmetric matrix

A symmetric matrix is scaled to entries of size at most one, brought to
tridiagonal form by reflections, and then rotated towards diagonal form one
off-diagonal entry after another, with the shift that the last two diagonal
entries suggest. Entries that are negligible beside their neighbours on the
diagonal split the matrix. The number of rotations is bounded, so the procedure
ends on every input.

Key definitions: `Eigenpair`, `Dense.tridiagonal`, `Tridiagonal.diagonalize`,
`Dense.spectrum`.
-/
import Kinodynamics.Dense.Householder

namespace Kinodynamics

/-- An eigenvalue with an eigenvector of length one. -/
structure Eigenpair (α : Type) where
  value : α
  vector : List α

/-- A tridiagonal matrix in a rotated basis. -/
structure Tridiagonal (α : Type) where
  /-- Diagonal entries. -/
  diag : Array α
  /-- Entries beside the diagonal; entry `i` joins `i` and `i + 1`. -/
  off : Array α
  /-- The basis, by columns. -/
  basis : Dense α

namespace Tridiagonal

variable {α : Type} [Scalar α]

/-- Relative size below which an off-diagonal entry counts as zero. -/
def negligible : α := 2.220446049250313e-16

/-- The entry that joins `i` and `i + 1` is not negligible beside its neighbours
on the diagonal. -/
def Joined (t : Tridiagonal α) (i : Nat) : Prop :=
  negligible * (Scalar.abs (t.diag.getD (i + 1) 0) + Scalar.abs (t.diag.getD i 0)) <
    Scalar.abs (t.off.getD i 0)

instance decJoined (t : Tridiagonal α) (i : Nat) : Decidable (Joined t i) :=
  inferInstanceAs (Decidable (_ < _))

/-- The last index at or below `n` that is joined to its predecessor, zero if
none is. -/
def lastJoined (t : Tridiagonal α) : Nat → Nat
  | 0 => 0
  | n + 1 => if t.Joined n then n + 1 else lastJoined t n

/-- Walk down from `start` while indices are joined. The entry at which the walk
stops is cleared. -/
def blockStart (t : Tridiagonal α) : Nat → Nat × Tridiagonal α
  | 0 => (0, t)
  | s + 1 =>
    if t.Joined s then blockStart t s
    else (s + 1, { t with off := t.off.setIfInBounds s 0 })

/-- The last block at or below `n` that is not diagonal yet: its first and last
index, equal if there is none. -/
def lastBlock (t : Tridiagonal α) (n : Nat) : (Nat × Nat) × Tridiagonal α :=
  match lastJoined t n with
  | 0 => ((0, 0), t)
  | e + 1 =>
    let (s, t) := blockStart t e
    ((s, e + 1), t)

/-- Columns `i` and `i + 1` of the basis turned by the rotation with cosine `c`
and sine `s`. -/
def turnBasis (basis : Dense α) (i : Nat) (c s : α) : Dense α :=
  Dense.ofFn basis.nrows basis.ncols fun p q =>
    let a := basis.entry p i
    let b := basis.entry p (i + 1)
    if q = i then a * c + s * b
    else if q = i + 1 then -s * a + b * c
    else basis.entry p q

/-- The eigenvalue of the trailing `2 × 2` block nearer to its last entry, which
is `dn`; its first entry is `dm` and the entry that joins them is `o`. -/
def shift (dm dn o : α) : α :=
  let oSq := o * o
  if Scalar.IsZero oSq then dn
  else
    let d := (dm - dn) * 0.5
    dn - oSq / (d + Scalar.sign d * Scalar.sqrt (d * d + oSq))

/-- Chase the bulge from index `i` to the end `n` of the block, given the vector
that the next rotation has to turn onto its first axis. -/
def chase (start n : Nat) : Nat → Nat → α → α → Tridiagonal α → Tridiagonal α
  | 0, _, _, _, t => t
  | fuel + 1, i, x, y, t =>
    if Scalar.IsZero y then t
    else
      let size := Scalar.sign x * x
      let length := Scalar.sqrt (size * size + y * y)
      let c := size / length
      let s := -Scalar.sign x * y / length
      let off := if start < i then t.off.setIfInBounds (i - 1) (Scalar.sign x * length) else t.off
      let mii := t.diag.getD i 0
      let mjj := t.diag.getD (i + 1) 0
      let mij := off.getD i 0
      let cc := c * c
      let ss := s * s
      let cs := c * s
      let b := cs * 2.0 * mij
      let diag := (t.diag.setIfInBounds i (cc * mii + ss * mjj - b)).setIfInBounds (i + 1)
        (ss * mii + cc * mjj + b)
      let joint := cs * (mii - mjj) + mij * (cc - ss)
      let off := off.setIfInBounds i joint
      let basis := turnBasis t.basis i c (-s)
      if i + 1 < n then
        let next := off.getD (i + 1) 0
        chase start n fuel (i + 1) joint (-s * next)
          ⟨diag, off.setIfInBounds (i + 1) (next * c), basis⟩
      else ⟨diag, off, basis⟩

/-- One sweep over a block of three or more indices. -/
def sweep (t : Tridiagonal α) (start n : Nat) : Tridiagonal α :=
  let mu := shift (t.diag.getD (n - 1) 0) (t.diag.getD n 0) (t.off.getD (n - 1) 0)
  chase start n (n - start) start (t.diag.getD start 0 - mu) (t.off.getD start 0) t

/-- Diagonalise the block of the two indices `i` and `i + 1` in closed form. -/
def splitPair (t : Tridiagonal α) (i : Nat) : Tridiagonal α :=
  let d0 := t.diag.getD i 0
  let d1 := t.diag.getD (i + 1) 0
  let o := t.off.getD i 0
  let half := (d0 - d1) * 0.5
  let root := Scalar.sqrt (o * o + half * half)
  let mean := (d0 + d1) * 0.5
  let x := mean + root - d1
  let length := Scalar.sqrt (x * x + o * o)
  let basis :=
    if negligible < length then
      turnBasis t.basis i (Scalar.sign x * x / length) (o / (Scalar.sign x * length))
    else t.basis
  ⟨(t.diag.setIfInBounds i (mean + root)).setIfInBounds (i + 1) (mean - root), t.off, basis⟩

/-- Sweep until no block is left, at most `fuel` times. -/
def diagonalize : Nat → (Nat × Nat) → Tridiagonal α → Tridiagonal α
  | 0, _, t => t
  | fuel + 1, (start, n), t =>
    if n = start then t
    else
      let (t, n) :=
        if start + 1 < n then
          let t := t.sweep start n
          if Scalar.abs (t.off.getD (n - 1) 0) ≤
              negligible * (Scalar.abs (t.diag.getD (n - 1) 0) + Scalar.abs (t.diag.getD n 0))
          then (t, n - 1) else (t, n)
        else (t.splitPair start, n - 1)
      let (block, t) := t.lastBlock n
      diagonalize fuel block t

end Tridiagonal

namespace Dense

variable {α : Type} [Scalar α]

/-- The largest absolute value of an entry, zero if there is none. -/
def maxAbs (a : Dense α) : α :=
  a.toRows.flatten.foldl (fun m x => Scalar.larger m (Scalar.abs x)) 0

/-- The product of the symmetric matrix in the lower triangle of `a`, from row and
column `i` on, with twice the vector `x`. -/
def doubledProduct (a : Dense α) (i : Nat) (x : List α) : List α :=
  let low := fun p q => a.entry (i + p) (i + q)
  let coordinate := fun k => x.getD k 0
  (List.range x.length).map fun p =>
    let first := max p 1
    let before := (List.range p).foldl
      (fun s q => if q = 0 then s else s + 2.0 * coordinate q * low p q)
      (2.0 * coordinate 0 * low p 0)
    before + 2.0 * Scalar.dot
      ((List.range (x.length - first)).map fun k => low (first + k) p) (x.drop first)

/-- One step towards tridiagonal form: column `i` is cleared two places below the
diagonal. Only the lower triangle is read and written. -/
def clearSymmetric (a : Dense α) (i : Nat) (r : Reflection α) : Dense α :=
  let p := a.doubledProduct (i + 1) r.axis
  let d := Scalar.dot r.axis p * 2.0
  let axis := fun k => r.axis.getD k 0
  let product := fun k => p.getD k 0
  ofFn a.nrows a.ncols fun m n =>
    if m ≤ i ∨ n ≤ i then a.entry m n
    else
      let m := m - (i + 1)
      let n := n - (i + 1)
      let x := -axis n * product m + a.entry (i + 1 + m) (i + 1 + n)
      let x := -product n * axis m + x
      d * axis n * axis m + x

/-- Tridiagonal form of a symmetric matrix with the basis it is taken in. -/
def tridiagonal (a : Dense α) : Tridiagonal α :=
  let size := a.nrows
  let (a, steps) := (List.range (size - 1)).foldl (fun (a, steps) i =>
    let r := Reflection.ofColumn (a.columnFrom (i + 1) i)
    (if r.proper then a.clearSymmetric i r else a, r :: steps)) (a, ([] : List (Reflection α)))
  let basis := (steps.zip (List.range (size - 1)).reverse).foldl (fun (basis : Dense α) (r, i) =>
    let right := (List.range (size - i)).map fun k =>
      Reflection.apply r.axis (Scalar.sign r.head) (basis.columnFrom (i + 1) (i + k))
    ofFn size size fun m n =>
      if m ≤ i ∨ n < i then basis.entry m n
      else (right.getD (n - i) []).getD (m - (i + 1)) 0) (identity size)
  { diag := ((List.range size).map fun i => a.entry i i).toArray
    off := (steps.reverse.map fun r => Scalar.abs r.head).toArray
    basis := basis }

/-- Eigenvalues and eigenvectors of a symmetric matrix, read from its lower
triangle. -/
def spectrum (a : Dense α) : List (Eigenpair α) :=
  let size := a.nrows
  let scale := a.maxAbs
  let scaled := if Scalar.IsZero scale then a else ofFn size size fun i j => a.entry i j / scale
  let t := scaled.tridiagonal
  let (block, t) := t.lastBlock (size - 1)
  let t := Tridiagonal.diagonalize (100 * size) block t
  (List.range size).map fun i => ⟨t.diag.getD i 0 * scale, t.basis.column i⟩

end Dense

end Kinodynamics
