/-
# Scalars

One class names the arithmetic that the kinematics and the elimination use, so
that a definition is written once. The instance at `Float` runs. An instance at
the reals turns the same definitions into exact ones, about which theorems are
stated.

Literals are decimal fractions (`0.5`, `24.0`, `1e-4`): the class carries
`OfScientific`, so a literal means the same number for every scalar. Zero and
one have their own fields.

Key definitions: `Scalar`, `Scalar.IsZero`, `Scalar.sumRange`, `Scalar.dot`.
-/
import Kinodynamics.Binary

namespace Kinodynamics

/-- The arithmetic of coordinates, angles and weights. -/
class Scalar (α : Type) extends Zero α, One α, Add α, Sub α, Mul α, Div α, Neg α,
    OfScientific α, LT α, LE α where
  /-- Strict comparison can be tested. -/
  decLt : DecidableLT α
  /-- Comparison can be tested. -/
  decLe : DecidableLE α
  /-- `mulAdd a b c` is `a * b + c`, rounded once where numbers are rounded. -/
  mulAdd : α → α → α → α
  /-- Square root. -/
  sqrt : α → α
  /-- Sine of an angle in radians. -/
  sin : α → α
  /-- Cosine of an angle in radians. -/
  cos : α → α
  /-- Angle of the point with the given ordinate and abscissa. -/
  atan2 : α → α → α
  /-- Absolute value. -/
  abs : α → α
  /-- Half a turn, in radians. -/
  pi : α

attribute [reducible, instance] Scalar.decLt Scalar.decLe

/-- Binary64 numbers. -/
instance : Scalar Float where
  zero := 0.0
  one := 1.0
  decLt := fun a b => inferInstanceAs (Decidable (a < b))
  decLe := fun a b => inferInstanceAs (Decidable (a ≤ b))
  mulAdd := Binary.mulAdd
  sqrt := Float.sqrt
  sin := Float.sin
  cos := Float.cos
  atan2 := Float.atan2
  abs := Float.abs
  pi := 3.141592653589793

namespace Scalar

variable {α : Type} [Scalar α]

/-- Neither above nor below zero. Both signed zeros are zero, no undefined
number is. -/
def IsZero (x : α) : Prop := x ≤ 0 ∧ 0 ≤ x

instance decIsZero (x : α) : Decidable (IsZero x) :=
  inferInstanceAs (Decidable (x ≤ 0 ∧ 0 ≤ x))

/-- One with the sign of `x`; one at zero. -/
def sign (x : α) : α := if 0 ≤ x then 1 else -1

/-- The number itself if it is above zero, else zero. -/
def positivePart (x : α) : α := if 0 < x then x else 0

/-- The larger of two numbers, the second if they cannot be compared. -/
def larger (x y : α) : α := if y ≤ x then x else y

/-- `f 0 + … + f (n - 1)`, from the left. -/
def sumRange : Nat → (Nat → α) → α
  | 0, _ => 0
  | n + 1, f => sumRange n f + f n

@[simp] theorem sumRange_zero (f : Nat → α) : sumRange 0 f = 0 := rfl

theorem sumRange_succ (n : Nat) (f : Nat → α) : sumRange (n + 1) f = sumRange n f + f n := rfl

/-- A sum reads its terms below the bound only. -/
theorem sumRange_congr {n : Nat} {f g : Nat → α} (h : ∀ i, i < n → f i = g i) :
    sumRange n f = sumRange n g := by
  induction n with
  | zero => rfl
  | succ n ih =>
    rw [sumRange_succ, sumRange_succ, ih fun i hi => h i (Nat.lt_succ_of_lt hi),
      h n (Nat.lt_succ_self n)]

/-- `f 0 * g 0 + … + f (n - 1) * g (n - 1)`, from the left, one rounding for each
term. -/
def fusedRange : Nat → (Nat → α) → (Nat → α) → α
  | 0, _, _ => 0
  | n + 1, f, g => mulAdd (f n) (g n) (fusedRange n f g)

/-- Sum of a list in eight interleaved partial sums as long as eight entries are
left, and the rest one by one. The partial sums so far are the first arguments. -/
def sumInLanes (a b c d e f g h : α) : List α → α
  | s :: t :: u :: v :: w :: x :: y :: z :: rest =>
    sumInLanes (a + s) (b + t) (c + u) (d + v) (e + w) (f + x) (g + y) (h + z) rest
  | rest => rest.foldl (· + ·) (0 + (a + e) + (b + f) + (c + g) + (d + h))

/-- Sum of a list. -/
def sum (xs : List α) : α := sumInLanes 0 0 0 0 0 0 0 0 xs

/-- Sum of the products of entries at the same place. -/
def dot (xs ys : List α) : α := sum (List.zipWith (· * ·) xs ys)

/-- Squared length of a vector. -/
def normSq (xs : List α) : α := dot xs xs

/-- Length of a vector. -/
def norm (xs : List α) : α := sqrt (normSq xs)

end Scalar

end Kinodynamics
