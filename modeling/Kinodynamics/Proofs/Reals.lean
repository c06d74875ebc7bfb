/-
# Real numbers as scalars

The definitions of the library run on binary64 numbers. At the reals the same
definitions are exact, and the sums, lengths and comparisons they are written
with are the usual ones. One difference has to be kept in mind: a quotient by
zero is zero here.

Key definitions: `Scalar.real`.
Key theorems: `Scalar.sumRange_eq_sum`, `Scalar.sum_eq_sum`, `Scalar.normSq_eq_sum`,
`Scalar.isZero_iff`.
-/
import Mathlib
import Kinodynamics.Scalar

namespace Kinodynamics
namespace Scalar

/-- Exact arithmetic. -/
noncomputable instance real : Scalar ℝ where
  decLt := fun a b => Real.decidableLT a b
  decLe := fun a b => Real.decidableLE a b
  mulAdd := fun a b c => a * b + c
  sqrt := Real.sqrt
  sin := Real.sin
  cos := Real.cos
  atan2 := fun y x => Complex.arg ⟨x, y⟩
  abs := fun x => |x|
  pi := Real.pi

/-- A decimal literal is the number that it spells. -/
theorem two_eq : (2.0 : ℝ) = 2 := by norm_num

/-! ### Comparisons -/

theorem isZero_iff {x : ℝ} : IsZero x ↔ x = 0 :=
  ⟨fun h => le_antisymm h.1 h.2, fun h => ⟨h.le, h.ge⟩⟩

theorem sign_mul_self (x : ℝ) : sign x * sign x = 1 := by
  unfold sign
  split_ifs <;> norm_num

theorem sign_mul (x : ℝ) : sign x * x = |x| := by
  unfold sign
  split_ifs with h
  · rw [one_mul, abs_of_nonneg h]
  · rw [neg_one_mul, abs_of_neg (not_le.mp h)]

theorem positivePart_eq (x : ℝ) : positivePart x = max x 0 := by
  unfold positivePart
  split_ifs with h
  · exact (max_eq_left h.le).symm
  · exact (max_eq_right (not_lt.mp h)).symm

/-! ### Sums -/

theorem sumRange_eq_sum (n : ℕ) (f : ℕ → ℝ) : sumRange n f = ∑ i ∈ Finset.range n, f i := by
  induction n with
  | zero => simp
  | succ n ih => rw [sumRange_succ, ih, Finset.sum_range_succ]

theorem fusedRange_eq_sum (n : ℕ) (f g : ℕ → ℝ) :
    fusedRange n f g = ∑ i ∈ Finset.range n, f i * g i := by
  induction n with
  | zero => rfl
  | succ n ih =>
    rw [fusedRange, ih, Finset.sum_range_succ, add_comm]
    rfl

/-- Where each entry of a list is added to does not show in the sum. -/
theorem sumInLanes_eq : ∀ (xs : List ℝ) (a b c d e f g h : ℝ),
    sumInLanes a b c d e f g h xs = a + b + c + d + e + f + g + h + xs.sum
  | s :: t :: u :: v :: w :: x :: y :: z :: rest, a, b, c, d, e, f, g, h => by
    rw [sumInLanes, sumInLanes_eq rest]
    simp only [List.sum_cons]
    ring
  | [], a, b, c, d, e, f, g, h => by simp [sumInLanes]; ring
  | [_], a, b, c, d, e, f, g, h => by simp [sumInLanes]; ring
  | [_, _], a, b, c, d, e, f, g, h => by simp [sumInLanes]; ring
  | [_, _, _], a, b, c, d, e, f, g, h => by simp [sumInLanes]; ring
  | [_, _, _, _], a, b, c, d, e, f, g, h => by simp [sumInLanes]; ring
  | [_, _, _, _, _], a, b, c, d, e, f, g, h => by simp [sumInLanes]; ring
  | [_, _, _, _, _, _], a, b, c, d, e, f, g, h => by simp [sumInLanes]; ring
  | [_, _, _, _, _, _, _], a, b, c, d, e, f, g, h => by simp [sumInLanes]; ring

theorem sum_eq_sum (xs : List ℝ) : sum xs = xs.sum := by
  rw [sum, sumInLanes_eq]
  simp

/-- A sum over a list by place. -/
theorem list_sum_eq_sum_getD (xs : List ℝ) :
    xs.sum = ∑ i ∈ Finset.range xs.length, xs.getD i 0 := by
  induction xs with
  | nil => simp
  | cons x xs ih =>
    rw [List.sum_cons, ih, List.length_cons, Finset.sum_range_succ']
    simp [add_comm]

theorem getD_zipWith (f : ℝ → ℝ → ℝ) {xs ys : List ℝ} {i : ℕ} (hx : i < xs.length)
    (hy : i < ys.length) : (List.zipWith f xs ys).getD i 0 = f (xs.getD i 0) (ys.getD i 0) := by
  rw [List.getD_eq_getElem?_getD, List.getElem?_zipWith, List.getElem?_eq_getElem hx,
    List.getElem?_eq_getElem hy, List.getD_eq_getElem _ _ hx, List.getD_eq_getElem _ _ hy]
  rfl

theorem dot_eq_sum {xs ys : List ℝ} (h : xs.length = ys.length) :
    dot xs ys = ∑ i ∈ Finset.range xs.length, xs.getD i 0 * ys.getD i 0 := by
  rw [dot, sum_eq_sum, list_sum_eq_sum_getD, List.length_zipWith, h, Nat.min_self]
  refine Finset.sum_congr rfl fun i hi => ?_
  have hy : i < ys.length := Finset.mem_range.mp hi
  exact getD_zipWith _ (h ▸ hy) hy

theorem normSq_eq_sum (xs : List ℝ) :
    normSq xs = ∑ i ∈ Finset.range xs.length, xs.getD i 0 ^ 2 := by
  rw [normSq, dot_eq_sum rfl]
  exact Finset.sum_congr rfl fun i _ => (sq _).symm

theorem normSq_nonneg (xs : List ℝ) : 0 ≤ normSq xs := by
  rw [normSq_eq_sum]
  exact Finset.sum_nonneg fun i _ => sq_nonneg _

end Scalar
end Kinodynamics
