/-
# Dense matrices

A matrix of any shape, stored by rows. There is one view of it, `entry`, which
reads zero outside the shape, and one way to make it, `ofFn`; `entry_ofFn` ties
the two. Each operation is a table of entries, so its lemma on `entry` says all
about it.

Key definitions: `Dense`, `Dense.ofFn`, `Dense.entry`, `Dense.view`, `Dense.mul`.
Key theorems: `Dense.entry_ofFn`, `Dense.ext_entry`, `Dense.entry_mul`.
-/
import Kinodynamics.Scalar

namespace Kinodynamics

/-- A matrix with `nrows` rows of `ncols` entries each. -/
structure Dense (α : Type) where
  nrows : Nat
  ncols : Nat
  rows : Vector (Vector α ncols) nrows

namespace Dense

variable {α : Type}

/-- The `m × n` matrix with entry `f i j` in row `i` and column `j`. -/
def ofFn (m n : Nat) (f : Nat → Nat → α) : Dense α where
  nrows := m
  ncols := n
  rows := Vector.ofFn fun i => Vector.ofFn fun j => f i j

/-- The entry in row `i` and column `j`, zero outside the shape. -/
def entry [Zero α] (a : Dense α) (i j : Nat) : α :=
  if h : i < a.nrows then
    if h' : j < a.ncols then a.rows[i][j] else 0
  else 0

/-- The rows as lists. -/
def toRows (a : Dense α) : List (List α) := a.rows.toList.map Vector.toList

/-! ### The entry view -/

@[simp] theorem nrows_ofFn (m n : Nat) (f : Nat → Nat → α) : (ofFn m n f).nrows = m := rfl

@[simp] theorem ncols_ofFn (m n : Nat) (f : Nat → Nat → α) : (ofFn m n f).ncols = n := rfl

theorem entry_ofFn [Zero α] (m n : Nat) (f : Nat → Nat → α) (i j : Nat) :
    (ofFn m n f).entry i j = if i < m ∧ j < n then f i j else 0 := by
  unfold entry
  by_cases hi : i < m <;> by_cases hj : j < n <;> simp [ofFn, hi, hj]

theorem entry_ofFn_of_lt [Zero α] {m n : Nat} (f : Nat → Nat → α) {i j : Nat} (hi : i < m)
    (hj : j < n) : (ofFn m n f).entry i j = f i j := by
  rw [entry_ofFn, if_pos ⟨hi, hj⟩]

theorem entry_of_nrows_le [Zero α] (a : Dense α) {i : Nat} (h : a.nrows ≤ i) (j : Nat) :
    a.entry i j = 0 := by
  unfold entry
  rw [dif_neg (Nat.not_lt.mpr h)]

theorem entry_of_ncols_le [Zero α] (a : Dense α) (i : Nat) {j : Nat} (h : a.ncols ≤ j) :
    a.entry i j = 0 := by
  unfold entry
  split
  · rw [dif_neg (Nat.not_lt.mpr h)]
  · rfl

/-- A matrix is the table of its entries. -/
theorem ofFn_entry [Zero α] (a : Dense α) : ofFn a.nrows a.ncols a.entry = a := by
  obtain ⟨m, n, rows⟩ := a
  simp only [ofFn, mk.injEq, heq_eq_eq, true_and]
  ext i hi j hj
  simp [entry]

/-- Matrices of one shape with the same entries are equal. -/
theorem ext_entry [Zero α] {a b : Dense α} (hm : a.nrows = b.nrows) (hn : a.ncols = b.ncols)
    (h : ∀ i j, i < a.nrows → j < a.ncols → a.entry i j = b.entry i j) : a = b := by
  rw [← ofFn_entry a, ← ofFn_entry b, ← hm, ← hn]
  simp only [ofFn, mk.injEq, heq_eq_eq, true_and]
  ext i hi j hj
  simpa using h i j hi hj

/-! ### Making and cutting -/

/-- The matrix with the given rows, each read to the width `n`. -/
def ofRows [Zero α] (n : Nat) (rows : List (List α)) : Dense α :=
  ofFn rows.length n fun i j => (rows.getD i []).getD j 0

/-- The matrix of zeros. -/
def zeros [Zero α] (m n : Nat) : Dense α := ofFn m n fun _ _ => 0

/-- The identity matrix. -/
def identity [Zero α] [One α] (n : Nat) : Dense α := ofFn n n fun i j => if i = j then 1 else 0

/-- The square matrix with `d` on its diagonal and zeros elsewhere. -/
def diagonal [Zero α] (d : List α) : Dense α :=
  ofFn d.length d.length fun i j => if i = j then d.getD i 0 else 0

/-- The `m × n` part whose upper left corner is in row `r` and column `c`. -/
def view [Zero α] (a : Dense α) (r c m n : Nat) : Dense α :=
  ofFn m n fun i j => a.entry (r + i) (c + j)

/-- Column `j` as a vector. -/
def column [Zero α] (a : Dense α) (j : Nat) : List α :=
  (List.range a.nrows).map fun i => a.entry i j

/-- Row `i` as a vector. -/
def row [Zero α] (a : Dense α) (i : Nat) : List α :=
  (List.range a.ncols).map fun j => a.entry i j

/-- Rows and columns exchanged. -/
def transpose [Zero α] (a : Dense α) : Dense α := ofFn a.ncols a.nrows fun i j => a.entry j i

/-- `a` to the left of `b`, as many rows as `a` has. -/
def beside [Zero α] (a b : Dense α) : Dense α :=
  ofFn a.nrows (a.ncols + b.ncols) fun i j =>
    if j < a.ncols then a.entry i j else b.entry i (j - a.ncols)

/-- `a` above `b`, as many columns as `a` has. -/
def above [Zero α] (a b : Dense α) : Dense α :=
  ofFn (a.nrows + b.nrows) a.ncols fun i j =>
    if i < a.nrows then a.entry i j else b.entry (i - a.nrows) j

@[simp] theorem length_column [Zero α] (a : Dense α) (j : Nat) : (a.column j).length = a.nrows := by
  simp [column]

@[simp] theorem length_row [Zero α] (a : Dense α) (i : Nat) : (a.row i).length = a.ncols := by
  simp [row]

@[simp] theorem nrows_view [Zero α] (a : Dense α) (r c m n : Nat) :
    (a.view r c m n).nrows = m := rfl

@[simp] theorem ncols_view [Zero α] (a : Dense α) (r c m n : Nat) :
    (a.view r c m n).ncols = n := rfl

theorem entry_view [Zero α] (a : Dense α) {r c m n i j : Nat} (hi : i < m) (hj : j < n) :
    (a.view r c m n).entry i j = a.entry (r + i) (c + j) :=
  entry_ofFn_of_lt _ hi hj

theorem entry_transpose [Zero α] (a : Dense α) (i j : Nat) :
    a.transpose.entry i j = a.entry j i := by
  unfold transpose
  rw [entry_ofFn]
  split
  · rfl
  · next h =>
    by_cases hi : i < a.ncols
    · exact (entry_of_nrows_le a (Nat.not_lt.mp fun hj => h ⟨hi, hj⟩) i).symm
    · exact (entry_of_ncols_le a j (Nat.not_lt.mp hi)).symm

theorem entry_identity [Zero α] [One α] {n i j : Nat} (hi : i < n) (hj : j < n) :
    (identity n : Dense α).entry i j = if i = j then 1 else 0 :=
  entry_ofFn_of_lt _ hi hj

/-! ### Arithmetic -/

variable [Scalar α]

/-- Each entry negated. -/
def neg (a : Dense α) : Dense α := ofFn a.nrows a.ncols fun i j => -a.entry i j

/-- Entrywise difference, in the shape of `a`. -/
def sub (a b : Dense α) : Dense α := ofFn a.nrows a.ncols fun i j => a.entry i j - b.entry i j

/-- No side of the product `a b` is short. -/
def IsLargeProduct (a b : Dense α) : Prop := 5 < a.nrows ∧ 5 < a.ncols ∧ 5 < b.ncols

instance decIsLargeProduct (a b : Dense α) : Decidable (IsLargeProduct a b) :=
  inferInstanceAs (Decidable (_ ∧ _ ∧ _))

/-- The product. The columns of `a` meet the rows of `b`. A large product rounds once
for each term, any other also rounds the terms. -/
def mul (a b : Dense α) : Dense α :=
  ofFn a.nrows b.ncols fun i j =>
    if IsLargeProduct a b then Scalar.fusedRange a.ncols (a.entry i) (b.entry · j)
    else Scalar.sumRange a.ncols fun k => a.entry i k * b.entry k j

/-- The product with a vector. -/
def mulVec (a : Dense α) (v : List α) : List α :=
  (List.range a.nrows).map fun i => Scalar.sumRange a.ncols fun j => a.entry i j * v.getD j 0

theorem entry_neg (a : Dense α) {i j : Nat} (hi : i < a.nrows) (hj : j < a.ncols) :
    a.neg.entry i j = -a.entry i j :=
  entry_ofFn_of_lt _ hi hj

theorem entry_sub (a b : Dense α) {i j : Nat} (hi : i < a.nrows) (hj : j < a.ncols) :
    (a.sub b).entry i j = a.entry i j - b.entry i j :=
  entry_ofFn_of_lt _ hi hj

theorem entry_mul (a b : Dense α) {i j : Nat} (hi : i < a.nrows) (hj : j < b.ncols) :
    (a.mul b).entry i j =
      if IsLargeProduct a b then Scalar.fusedRange a.ncols (a.entry i) (b.entry · j)
      else Scalar.sumRange a.ncols fun k => a.entry i k * b.entry k j :=
  entry_ofFn_of_lt _ hi hj

@[simp] theorem length_mulVec (a : Dense α) (v : List α) : (a.mulVec v).length = a.nrows := by
  simp [mulVec]

end Dense

end Kinodynamics
