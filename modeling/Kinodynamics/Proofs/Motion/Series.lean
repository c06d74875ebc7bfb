/-
# Where the series meet the closed forms

Near the angle zero the coefficients of the Jacobians are two terms of their series, elsewhere they
are closed forms whose numerators cancel. The sums of the first terms of the series of cosine and
sine are above and below them by turns (`Series.alternates`): each remainder has the other one as
its rate, so a sign of one is the next sign of the other. A closed form is therefore as near to its
first two terms as the third one is large, for angles up to one (`RotationVector.abs_bend_sub_le`
and those after it). At the angles below which the program takes the series, the third terms are
below the last digits that count (`RotationVector.coefficients_seam`).

Key definitions: `Series.cosSum`, `Series.sinSum`.
Key theorems: `Series.alternates`, `RotationVector.abs_inverseLag_sub_le`,
`RotationVector.coefficients_seam`.
-/
import Kinodynamics.Proofs.Motion.Jacobians

namespace Kinodynamics

/-! ### Sums of first terms -/

namespace Series

open Finset Nat

/-- The first `n` terms of the series of the cosine. -/
noncomputable def cosSum (n : ℕ) (x : ℝ) : ℝ := ∑ k ∈ range n, (-1) ^ k * (x ^ (2 * k) / (2 * k)!)

/-- The first `n` terms of the series of the sine. -/
noncomputable def sinSum (n : ℕ) (x : ℝ) : ℝ :=
  ∑ k ∈ range n, (-1) ^ k * (x ^ (2 * k + 1) / (2 * k + 1)!)

theorem cosSum_zero (n : ℕ) : cosSum (n + 1) 0 = 1 := by
  simp [cosSum, sum_range_succ']

theorem sinSum_zero (n : ℕ) : sinSum n 0 = 0 := by
  simp [sinSum]

/-- The rate of a power divided by its factorial is the power before. -/
theorem hasDerivAt_term (m : ℕ) (x : ℝ) :
    HasDerivAt (fun x : ℝ => x ^ (m + 1) / (m + 1)!) (x ^ m / m !) x := by
  refine ((hasDerivAt_pow (m + 1) x).div_const _).congr_deriv ?_
  rw [Nat.factorial_succ, Nat.add_sub_cancel, Nat.cast_mul]
  exact mul_div_mul_left _ _ (Nat.cast_ne_zero.mpr m.succ_ne_zero)

theorem hasDerivAt_sinSum (n : ℕ) (x : ℝ) : HasDerivAt (sinSum n) (cosSum n x) x :=
  HasDerivAt.fun_sum fun k _ => (hasDerivAt_term (2 * k) x).const_mul _

/-- The constant term of the cosine drops out. -/
theorem hasDerivAt_cosSum (n : ℕ) (x : ℝ) : HasDerivAt (cosSum (n + 1)) (-sinSum n x) x := by
  have hsplit : cosSum (n + 1) =
      fun x => ∑ k ∈ range n, (-1 : ℝ) ^ (k + 1) * (x ^ (2 * k + 1 + 1) / (2 * k + 1 + 1)!) + 1 := by
    funext x
    rw [cosSum, sum_range_succ']
    simp [mul_add]
  rw [hsplit, sinSum, ← sum_neg_distrib]
  refine (HasDerivAt.fun_sum fun k _ => (hasDerivAt_term (2 * k + 1) x).const_mul _).add_const _
    |>.congr_deriv ?_
  exact sum_congr rfl fun k _ => by ring

/-- A function that starts at zero and does not fall is not negative. -/
theorem nonneg_of_hasDerivAt {f f' : ℝ → ℝ} (hzero : f 0 = 0) (hf : ∀ x, HasDerivAt f (f' x) x)
    (hrate : ∀ x, 0 ≤ x → 0 ≤ f' x) {x : ℝ} (hx : 0 ≤ x) : 0 ≤ f x := by
  have hmono : MonotoneOn f (Set.Ici 0) := by
    refine monotoneOn_of_deriv_nonneg (convex_Ici 0)
      (fun y _ => (hf y).continuousAt.continuousWithinAt)
      (fun y _ => (hf y).differentiableAt.differentiableWithinAt) fun y hy => ?_
    rw [(hf y).deriv]
    exact hrate y (interior_subset hy)
  simpa only [hzero] using hmono Set.self_mem_Ici hx hx

/-- **Cosine and sine are above and below their sums by turns.** -/
theorem alternates (n : ℕ) : ∀ x, 0 ≤ x →
    0 ≤ (-1) ^ (n + 1) * (Real.cos x - cosSum (n + 1) x) ∧
      0 ≤ (-1) ^ (n + 1) * (Real.sin x - sinSum (n + 1) x) := by
  -- the sine has the remainder of the cosine as its rate
  have hsin : ∀ n : ℕ, (∀ x, 0 ≤ x → 0 ≤ (-1) ^ (n + 1) * (Real.cos x - cosSum (n + 1) x)) →
      ∀ x, 0 ≤ x → 0 ≤ (-1) ^ (n + 1) * (Real.sin x - sinSum (n + 1) x) := fun n hcos x hx =>
    nonneg_of_hasDerivAt (by rw [Real.sin_zero, sinSum_zero, sub_zero, mul_zero])
      (fun y => ((Real.hasDerivAt_sin y).fun_sub (hasDerivAt_sinSum (n + 1) y)).const_mul _) hcos hx
  induction n with
  | zero =>
    have hcos : ∀ x : ℝ, 0 ≤ x → 0 ≤ (-1) ^ (0 + 1) * (Real.cos x - cosSum (0 + 1) x) := fun x _ => by
      have hle := Real.cos_le_one x
      simp [cosSum, hle]
    exact fun x hx => ⟨hcos x hx, hsin 0 hcos x hx⟩
  | succ n ih =>
    have hcos : ∀ x, 0 ≤ x → 0 ≤ (-1) ^ (n + 1 + 1) * (Real.cos x - cosSum (n + 1 + 1) x) := fun x hx =>
      nonneg_of_hasDerivAt (by rw [Real.cos_zero, cosSum_zero, sub_self, mul_zero])
        (fun y => ((Real.hasDerivAt_cos y).fun_sub (hasDerivAt_cosSum (n + 1) y)).const_mul _)
        (fun y hy => (ih y hy).2.trans_eq (by ring)) hx
    exact fun x hx => ⟨hcos x hx, hsin (n + 1) hcos x hx⟩

/-- The cosine between four and five terms. -/
theorem cos_mem {x : ℝ} (hx : 0 ≤ x) : Real.cos x ∈ Set.Icc (1 - x ^ 2 / 2 + x ^ 4 / 24 - x ^ 6 / 720)
    (1 - x ^ 2 / 2 + x ^ 4 / 24 - x ^ 6 / 720 + x ^ 8 / 40320) := by
  have hfour := (alternates 3 x hx).1
  have hfive := (alternates 4 x hx).1
  norm_num [cosSum, sum_range_succ, Nat.factorial] at hfour hfive
  constructor <;> linarith

/-- The sine between four and five terms. -/
theorem sin_mem {x : ℝ} (hx : 0 ≤ x) : Real.sin x ∈ Set.Icc (x - x ^ 3 / 6 + x ^ 5 / 120 - x ^ 7 / 5040)
    (x - x ^ 3 / 6 + x ^ 5 / 120 - x ^ 7 / 5040 + x ^ 9 / 362880) := by
  have hfour := (alternates 3 x hx).2
  have hfive := (alternates 4 x hx).2
  norm_num [sinSum, sum_range_succ, Nat.factorial] at hfour hfive
  constructor <;> linarith

end Series

/-! ### Third terms -/

/-- A quotient is near a number if its numerator is between multiples of the denominator. -/
theorem abs_div_sub_le {a b c e : ℝ} (hb : 0 < b) (hlow : (c - e) * b ≤ a) (hhigh : a ≤ (c + e) * b) :
    |a / b - c| ≤ e := by
  rw [abs_sub_le_iff, sub_le_iff_le_add', div_le_iff₀ hb, sub_le_comm, le_div_iff₀ hb]
  exact ⟨hhigh, hlow⟩

namespace RotationVector

variable {angle : ℝ}

theorem abs_bend_sub_le (hpos : 0 < angle) (hle : angle ≤ 1) :
    |bend angle - (1 / 2 - angle ^ 2 / 24)| ≤ angle ^ 4 / 720 := by
  obtain ⟨hlow, hhigh⟩ := Series.cos_mem hpos.le
  have height : angle ^ 8 ≤ angle ^ 6 := pow_le_pow_of_le_one hpos.le hle (by norm_num)
  refine abs_div_sub_le (pow_pos hpos 2) ?_ ?_ <;> linarith [pow_pos hpos 6]

theorem abs_lag_sub_le (hpos : 0 < angle) (hle : angle ≤ 1) :
    |lag angle - (1 / 6 - angle ^ 2 / 120)| ≤ angle ^ 4 / 5040 := by
  obtain ⟨hlow, hhigh⟩ := Series.sin_mem hpos.le
  have hnine : angle ^ 9 ≤ angle ^ 7 := pow_le_pow_of_le_one hpos.le hle (by norm_num)
  refine abs_div_sub_le (pow_pos hpos 3) ?_ ?_ <;> linarith [pow_pos hpos 7]

/-- Here the numerator cancels up to the seventh power, and a sine divides it. -/
theorem abs_inverseLag_sub_le (hpos : 0 < angle) (hle : angle ≤ 1) :
    |inverseLag angle - (1 / 12 + angle ^ 2 / 720)| ≤ angle ^ 4 / 10000 := by
  obtain ⟨hsinLow, hsinHigh⟩ := Series.sin_mem hpos.le
  obtain ⟨hcosLow, hcosHigh⟩ := Series.cos_mem hpos.le
  have hsin := Real.sin_pos_of_pos_of_le_one hpos hle
  have hquotient : inverseLag angle = (2 * Real.sin angle - angle * (1 + Real.cos angle)) /
      (2 * angle ^ 2 * Real.sin angle) := by
    rw [inverseLag, Scalar.two_eq]
    field_simp
  have hpow : ∀ n, 0 < angle ^ n ∧ angle ^ n ≤ 1 := fun n =>
    ⟨pow_pos hpos n, pow_le_one₀ hpos.le hle⟩
  have hnine : angle ^ 9 ≤ angle ^ 7 := pow_le_pow_of_le_one hpos.le hle (by norm_num)
  have hthirteen : angle ^ 13 ≤ angle ^ 7 := pow_le_pow_of_le_one hpos.le hle (by norm_num)
  rw [hquotient]
  refine abs_div_sub_le (by positivity) ?_ ?_
  · have hfactor : 0 ≤ 2 - 2 * angle ^ 2 * (1 / 12 + angle ^ 2 / 720 - angle ^ 4 / 10000) := by
      linarith [hpow 2, hpow 4, hpow 6]
    have hsines := mul_le_mul_of_nonneg_left hsinLow hfactor
    have hcosines := mul_le_mul_of_nonneg_left hcosHigh hpos.le
    linarith [hpow 7, hpow 11]
  · have hfactor : 0 ≤ 2 - 2 * angle ^ 2 * (1 / 12 + angle ^ 2 / 720 + angle ^ 4 / 10000) := by
      linarith [hpow 2, hpow 4, hpow 6]
    have hsines := mul_le_mul_of_nonneg_left hsinHigh hfactor
    have hcosines := mul_le_mul_of_nonneg_left hcosLow hpos.le
    linarith [hpow 7, hpow 11, hpow 15]

end RotationVector

namespace PoseTangent

open RotationVector

variable {angle : ℝ}

theorem abs_second_sub_le (hpos : 0 < angle) :
    |(closedCoefficients angle).2.1 - (1 / 24 - angle ^ 2 / 720)| ≤ angle ^ 4 / 40320 := by
  obtain ⟨hlow, hhigh⟩ := Series.cos_mem hpos.le
  rw [closedCoefficients, Scalar.two_eq]
  refine abs_div_sub_le (by positivity) ?_ ?_ <;> linarith [pow_pos hpos 8]

theorem abs_third_sub_le (hpos : 0 < angle) :
    |(closedCoefficients angle).2.2 - (1 / 120 - angle ^ 2 / 2520)| ≤ angle ^ 4 / 80640 := by
  obtain ⟨hsinLow, hsinHigh⟩ := Series.sin_mem hpos.le
  obtain ⟨hcosLow, hcosHigh⟩ := Series.cos_mem hpos.le
  have hlow := mul_le_mul_of_nonneg_left hcosLow hpos.le
  have hhigh := mul_le_mul_of_nonneg_left hcosHigh hpos.le
  have hthree : (3.0 : ℝ) = 3 := by norm_num
  rw [closedCoefficients, Scalar.two_eq, hthree]
  refine abs_div_sub_le (by positivity) ?_ ?_ <;> linarith [pow_pos hpos 9]

end PoseTangent

/-! ### The seam -/

namespace RotationVector

/-- Below the seam a third term is at most what it is at the seam. -/
theorem abs_sub_le_of_lt {x c angle seam e k : ℝ} (hpos : 0 < angle) (hlt : angle < seam)
    (h : |x - c| ≤ angle ^ 4 / k) (hk : 0 < k) (hseam : seam ^ 4 / k ≤ e) : |c - x| ≤ e := by
  rw [abs_sub_comm]
  refine h.trans (le_trans ?_ hseam)
  exact div_le_div_of_nonneg_right (pow_le_pow_left₀ hpos.le hlt.le 4) hk.le

variable {v : Vec3 ℝ}

/-- Below `smallAngle` the coefficients are the first two terms. -/
theorem leftCoefficients_of_lt (h : v.norm < smallAngle) :
    leftCoefficients v = (1 / 2 - v.norm ^ 2 / 24, 1 / 6 - v.norm ^ 2 / 120) := by
  have hcoefficients : leftCoefficients v = (0.5 - v.normSq / 24.0, 1 / 6.0 - v.normSq / 120.0) := if_pos h
  rw [hcoefficients, ← Vec3.norm_sq]
  norm_num

theorem inverseCoefficient_of_lt (h : v.norm < smallAngle) :
    inverseCoefficient v = 1 / 12 + v.norm ^ 2 / 720 := by
  have hcoefficient : inverseCoefficient v = 1 / 12.0 + v.normSq / 720.0 := if_pos h
  rw [hcoefficient, ← Vec3.norm_sq]
  norm_num

/-- **The three coefficients of the Jacobians of rotations at the seam.** -/
theorem abs_coefficients_le (hpos : 0 < v.norm) (h : v.norm < smallAngle) :
    |(leftCoefficients v).1 - bend v.norm| ≤ 2e-19 ∧ |(leftCoefficients v).2 - lag v.norm| ≤ 2e-19 ∧
      |inverseCoefficient v - inverseLag v.norm| ≤ 2e-19 := by
  have hle : v.norm ≤ 1 := h.le.trans (by norm_num [smallAngle])
  rw [leftCoefficients_of_lt h, inverseCoefficient_of_lt h]
  exact ⟨abs_sub_le_of_lt hpos h (abs_bend_sub_le hpos hle) (by norm_num) (by norm_num [smallAngle]),
    abs_sub_le_of_lt hpos h (abs_lag_sub_le hpos hle) (by norm_num) (by norm_num [smallAngle]),
    abs_sub_le_of_lt hpos h (abs_inverseLag_sub_le hpos hle) (by norm_num) (by norm_num [smallAngle])⟩

end RotationVector

namespace PoseTangent

open RotationVector

variable {w : Vec3 ℝ}

theorem couplingCoefficients_of_lt (h : w.norm < couplingSmallAngle) : couplingCoefficients w =
    (1 / 6 - w.norm ^ 2 / 120, 1 / 24 - w.norm ^ 2 / 720, 1 / 120 - w.norm ^ 2 / 2520) := by
  have hcoefficients : couplingCoefficients w =
      (1 / 6.0 - w.normSq / 120.0, 1 / 24.0 - w.normSq / 720.0, 1 / 120.0 - w.normSq / 2520.0) := if_pos h
  rw [hcoefficients, ← Vec3.norm_sq]
  norm_num

/-- **The three coefficients of the coupling block at the seam.** -/
theorem abs_couplingCoefficients_le (hpos : 0 < w.norm) (h : w.norm < couplingSmallAngle) :
    |(couplingCoefficients w).1 - (closedCoefficients w.norm).1| ≤ 2e-12 ∧
      |(couplingCoefficients w).2.1 - (closedCoefficients w.norm).2.1| ≤ 2e-12 ∧
      |(couplingCoefficients w).2.2 - (closedCoefficients w.norm).2.2| ≤ 2e-12 := by
  have hle : w.norm ≤ 1 := h.le.trans (by norm_num [couplingSmallAngle])
  rw [couplingCoefficients_of_lt h]
  exact ⟨abs_sub_le_of_lt hpos h (abs_lag_sub_le hpos hle) (by norm_num) (by norm_num [couplingSmallAngle]),
    abs_sub_le_of_lt hpos h (abs_second_sub_le hpos) (by norm_num) (by norm_num [couplingSmallAngle]),
    abs_sub_le_of_lt hpos h (abs_third_sub_le hpos) (by norm_num) (by norm_num [couplingSmallAngle])⟩

end PoseTangent

namespace RotationVector

/-- **Series and closed forms meet at the seam.** From `smallAngle` on the coefficients of the
Jacobians of rotations are the closed forms, and below it they are at most `2e-19` off; those of the
coupling block are the closed forms from `couplingSmallAngle` on, and below it at most `2e-12` off. -/
theorem coefficients_seam (v : Vec3 ℝ) (hv : 0 < v.norm) :
    (smallAngle ≤ v.norm →
      leftCoefficients v = (bend v.norm, lag v.norm) ∧ inverseCoefficient v = inverseLag v.norm) ∧
    (v.norm < smallAngle →
      |(leftCoefficients v).1 - bend v.norm| ≤ 2e-19 ∧ |(leftCoefficients v).2 - lag v.norm| ≤ 2e-19 ∧
        |inverseCoefficient v - inverseLag v.norm| ≤ 2e-19) ∧
    (PoseTangent.couplingSmallAngle ≤ v.norm →
      PoseTangent.couplingCoefficients v = PoseTangent.closedCoefficients v.norm) ∧
    (v.norm < PoseTangent.couplingSmallAngle →
      |(PoseTangent.couplingCoefficients v).1 - (PoseTangent.closedCoefficients v.norm).1| ≤ 2e-12 ∧
        |(PoseTangent.couplingCoefficients v).2.1 - (PoseTangent.closedCoefficients v.norm).2.1| ≤ 2e-12 ∧
        |(PoseTangent.couplingCoefficients v).2.2 - (PoseTangent.closedCoefficients v.norm).2.2| ≤ 2e-12) :=
  ⟨fun hlarge => ⟨leftCoefficients_eq hlarge, inverseCoefficient_eq hlarge⟩, abs_coefficients_le hv,
    PoseTangent.couplingCoefficients_eq_closed, PoseTangent.abs_couplingCoefficients_le hv⟩

theorem norm_along_x {x : ℝ} (hx : 0 ≤ x) : (Vec3.mk x 0 0).norm = x := by
  show Real.sqrt (x * x + 0 * 0 + 0 * 0) = x
  rw [mul_zero, add_zero, add_zero, Real.sqrt_mul_self hx]

/-- An angle below both seams. -/
theorem coefficients_seam_small : 0 < (Vec3.mk (5e-5 : ℝ) 0 0).norm ∧
    (Vec3.mk (5e-5 : ℝ) 0 0).norm < smallAngle ∧
    |inverseCoefficient (Vec3.mk (5e-5 : ℝ) 0 0) - inverseLag 5e-5| ≤ 2e-19 ∧
    |(PoseTangent.couplingCoefficients (Vec3.mk (5e-5 : ℝ) 0 0)).2.2 -
      (PoseTangent.closedCoefficients 5e-5).2.2| ≤ 2e-12 := by
  have hnorm : (Vec3.mk (5e-5 : ℝ) 0 0).norm = 5e-5 := norm_along_x (by norm_num)
  have hpos : 0 < (Vec3.mk (5e-5 : ℝ) 0 0).norm := by rw [hnorm]; norm_num
  have hsmall : (Vec3.mk (5e-5 : ℝ) 0 0).norm < smallAngle := by
    rw [hnorm, smallAngle]
    norm_num
  obtain ⟨-, hrotation, -, hcoupling⟩ := coefficients_seam _ hpos
  have hthird := (hcoupling (hsmall.trans PoseTangent.smallAngle_lt_couplingSmallAngle)).2.2
  have hinverse := (hrotation hsmall).2.2
  rw [hnorm] at hthird hinverse
  exact ⟨hpos, hsmall, hinverse, hthird⟩

end RotationVector

end Kinodynamics
