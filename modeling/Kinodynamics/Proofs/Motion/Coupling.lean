/-
# The coupling block is a rate of change

The matrices that come with a rotation vector are polynomials in the matrix of its vector
product: the third power is a multiple of the first, so degree two suffices. The rotation and
its left Jacobian are such polynomials, with coefficients that depend on the angle alone.

The coupling block is computed from triple and quadruple products of two such matrices. It
is the rate at which the left Jacobian changes when the rotation vector moves along the linear
part (`PoseTangent.hasRate_leftJacobian`), so equations between Jacobians of rotations have
equations between coupling blocks as their derivatives. The left Jacobian itself says at which
rate the rotation changes (`PoseTangent.hasRate_matrix_exp`).

Key definitions: `RotationVector.swing`, `RotationVector.bend`, `RotationVector.lag`,
`RotationVector.polynomial`, `PoseTangent.closedCoefficients`.
Key theorems: `RotationVector.polynomial_mul`, `PoseTangent.coupling_eq`,
`PoseTangent.hasRate_leftJacobian`, `PoseTangent.hasRate_matrix_exp`.
-/
import Kinodynamics.Proofs.Algebra.Rates
import Kinodynamics.Proofs.Motion.Group

namespace Kinodynamics

/-- The twofold vector product with one vector. -/
theorem Vec3.cross_cross_self (w v : Vec3 ℝ) :
    w.cross (w.cross v) = w.scale (w.dot v) + -v.scale w.normSq := by
  ext <;> simp only [cross, dot, normSq, scale, add_def, neg_def] <;> ring

namespace RotationVector

/-! ### Coefficients -/

/-- Coefficient of the vector product in the rotation by an angle. -/
noncomputable def swing (angle : ℝ) : ℝ := Real.sin angle / angle

/-- Coefficient of the twofold product in the rotation, and of the product in its left Jacobian. -/
noncomputable def bend (angle : ℝ) : ℝ := (1 - Real.cos angle) / angle ^ 2

/-- Coefficient of the twofold product in the left Jacobian. -/
noncomputable def lag (angle : ℝ) : ℝ := (angle - Real.sin angle) / angle ^ 3

section
variable {angle : ℝ}

theorem swing_add (h : angle ≠ 0) : swing angle + angle ^ 2 * lag angle = 1 := by
  rw [swing, lag]
  field_simp
  ring

theorem swing_sq_add (h : angle ≠ 0) :
    swing angle ^ 2 + angle ^ 2 * bend angle ^ 2 = 2 * bend angle := by
  rw [swing, bend]
  field_simp
  rw [Real.sin_sq]
  ring

theorem hasDerivAt_swing (h : angle ≠ 0) :
    HasDerivAt swing (angle * (lag angle - bend angle)) angle := by
  refine ((Real.hasDerivAt_sin angle).div (hasDerivAt_id angle) h).congr_deriv ?_
  rw [lag, bend, id]
  field_simp
  ring

theorem hasDerivAt_bend (h : angle ≠ 0) :
    HasDerivAt bend ((swing angle - 2 * bend angle) / angle) angle := by
  refine (((Real.hasDerivAt_cos angle).const_sub 1).div (hasDerivAt_pow 2 angle)
    (pow_ne_zero 2 h)).congr_deriv ?_
  rw [swing, bend]
  field_simp
  ring

theorem hasDerivAt_lag (h : angle ≠ 0) :
    HasDerivAt lag ((bend angle - 3 * lag angle) / angle) angle := by
  refine (((hasDerivAt_id angle).sub (Real.hasDerivAt_sin angle)).div (hasDerivAt_pow 3 angle)
    (pow_ne_zero 3 h)).congr_deriv ?_
  rw [bend, lag]
  field_simp
  simp only [Pi.sub_apply, id_eq, Nat.cast_ofNat, Nat.add_one_sub_one]
  ring

end

/-! ### Polynomials in the matrix of a vector product -/

/-- The polynomial of degree two with constant term one. -/
noncomputable def polynomial (w : Vec3 ℝ) (b c : ℝ) : Mat3 ℝ :=
  1 + w.skew.scale b + (w.skew * w.skew).scale c

theorem polynomial_zero (w : Vec3 ℝ) : polynomial w 0 0 = 1 := by
  rw [polynomial, Mat3.scale_zero, Mat3.scale_zero, add_zero, add_zero]

theorem skew_cube (w : Vec3 ℝ) : w.skew * w.skew * w.skew = -w.skew.scale w.normSq := by
  rw [mul_assoc, Mat3.skew_mul_skew_mul_skew]

/-- **The product of two polynomials**, reduced by the cube of the matrix. -/
theorem polynomial_mul (w : Vec3 ℝ) (b c b' c' : ℝ) : polynomial w b c * polynomial w b' c' =
    polynomial w (b + b' - w.normSq * (b * c' + c * b')) (c + c' + b * b' - w.normSq * (c * c')) := by
  have hthree := skew_cube w
  have hfour : w.skew * w.skew * w.skew * w.skew = -(w.skew * w.skew).scale w.normSq := by
    rw [hthree, neg_mul, Mat3.scale_mul]
  simp only [polynomial, Mat3.scale_eq_smul, add_mul, mul_add, one_mul, mul_one, smul_mul_assoc,
    mul_smul_comm, ← mul_assoc] at *
  rw [hfour, hthree]
  module

theorem polynomial_mul_comm (w : Vec3 ℝ) (b c b' c' : ℝ) :
    polynomial w b c * polynomial w b' c' = polynomial w b' c' * polynomial w b c := by
  rw [polynomial_mul, polynomial_mul]
  congr 1 <;> ring

/-- Two matrices of vector products, the one on either side of the other. -/
theorem skew_mul_mul_skew (v w : Vec3 ℝ) :
    w.skew * v.skew * w.skew = -w.skew.scale (w.dot v) := by
  ext <;> simp only [Vec3.skew, Mat3.mul_def, Mat3.neg_def, Mat3.scale, Vec3.dot] <;> ring

/-- The matrix of one vector product twice on the left or on the right of that of another. -/
theorem skew_sq_mul_add (v w : Vec3 ℝ) : w.skew * w.skew * v.skew + v.skew * w.skew * w.skew =
    -v.skew.scale w.normSq + -w.skew.scale (w.dot v) := by
  ext <;>
    simp only [Vec3.skew, Mat3.mul_def, Mat3.neg_def, Mat3.add_def, Mat3.scale, Vec3.dot, Vec3.normSq] <;>
    ring

/-- A polynomial of a vector along its axis is the vector. -/
theorem polynomial_apply_self (w : Vec3 ℝ) (b c : ℝ) : (polynomial w b c).apply w = w := by
  rw [polynomial, Mat3.add_apply, Mat3.add_apply, Mat3.scale_apply, Mat3.scale_apply, Mat3.mul_apply,
    Mat3.skew_apply, Vec3.cross_self, Mat3.apply_zero, Vec3.zero_scale, Vec3.zero_scale, add_zero,
    add_zero, Mat3.one_apply]

/-- What a polynomial makes of a vector, as a matrix. -/
theorem skew_polynomial_apply (v w : Vec3 ℝ) (b c : ℝ) : ((polynomial w b c).apply v).skew =
    v.skew.scale (1 - w.normSq * c) + (w.skew * v.skew - v.skew * w.skew).scale b +
      w.skew.scale (c * w.dot v) := by
  rw [polynomial, Mat3.add_apply, Mat3.add_apply, Mat3.one_apply, Mat3.scale_apply, Mat3.scale_apply,
    Mat3.mul_apply, Mat3.skew_apply, Mat3.skew_apply, Vec3.cross_cross_self, Mat3.skew_add, Mat3.skew_add,
    Mat3.skew_scale, Mat3.skew_scale, Mat3.skew_add, Mat3.skew_neg, Mat3.skew_scale, Mat3.skew_scale,
    Mat3.skew_cross]
  simp only [Mat3.scale_eq_smul]
  module

/-- A polynomial turned about what another makes of a vector, where the coefficients of the two
are related as those of a rotation and its left Jacobian. -/
theorem skew_polynomial_apply_mul (v w : Vec3 ℝ) {a b c : ℝ} (hadd : a + w.normSq * c = 1)
    (hsq : a ^ 2 + w.normSq * b ^ 2 = 2 * b) :
    ((polynomial w b c).apply v).skew * polynomial w a b =
      v.skew.scale a + w.skew.scale (w.dot v * (c - b)) +
        ((v.skew * w.skew + w.skew * v.skew).scale b +
          (w.skew * w.skew).scale (w.dot v * (a * c - b ^ 2))) := by
  have hbetween := skew_mul_mul_skew v w
  have hthree := skew_cube w
  have hfour : v.skew * w.skew * w.skew * w.skew = -(v.skew * w.skew).scale w.normSq := by
    rw [mul_assoc v.skew, mul_assoc v.skew, hthree, mul_neg, Mat3.mul_scale]
  have hfirst : 1 - w.normSq * c = a := by linear_combination -hadd
  have hsecond : (v.skew * w.skew + w.skew * v.skew).scale b =
      (v.skew * w.skew).scale (a ^ 2 + w.normSq * b ^ 2 - b) + (w.skew * v.skew).scale b := by
    rw [hsq, two_mul, add_sub_cancel_right, Mat3.add_scale]
  have hlast : w.dot v * (c - b) = w.dot v * (c - b * (a + w.normSq * c)) := by rw [hadd, mul_one]
  rw [skew_polynomial_apply, polynomial, hfirst, hsecond, hlast]
  simp only [Mat3.scale_eq_smul, add_mul, mul_add, sub_mul, mul_one, smul_mul_assoc, mul_smul_comm,
    ← mul_assoc] at *
  rw [hfour, hthree, hbetween]
  simp only [neg_mul, smul_mul_assoc]
  module

/-- The vector product of two vectors that a polynomial is applied to. -/
theorem polynomial_apply_cross (u v w : Vec3 ℝ) (b c : ℝ) :
    ((polynomial w b c).apply u).cross ((polynomial w b c).apply v) =
      (u.cross v).scale ((1 - w.normSq * c) ^ 2 + w.normSq * b ^ 2) +
        (w.cross (u.cross v)).scale b +
        (w.cross (w.cross (u.cross v))).scale (b ^ 2 + w.normSq * c ^ 2 - c) := by
  ext <;>
    simp only [polynomial, Vec3.skew, Mat3.apply, Mat3.mul_def, Mat3.add_def, Mat3.one_def, Mat3.scale,
      Vec3.dot, Vec3.normSq, Vec3.cross, Vec3.scale, Vec3.add_def] <;>
    ring

/-! ### Closed forms -/

variable {w : Vec3 ℝ}

theorem swing_norm_add (hw : w.norm ≠ 0) : swing w.norm + w.normSq * lag w.norm = 1 :=
  Vec3.norm_sq w ▸ swing_add hw

theorem swing_norm_sq_add (hw : w.norm ≠ 0) :
    swing w.norm ^ 2 + w.normSq * bend w.norm ^ 2 = 2 * bend w.norm :=
  Vec3.norm_sq w ▸ swing_sq_add hw

theorem matrix_exp_eq_polynomial (hw : smallAngle ≤ w.norm) :
    (exp w).matrix = polynomial w (swing w.norm) (bend w.norm) := matrix_exp hw

theorem leftJacobian_eq_polynomial (hw : smallAngle ≤ w.norm) :
    leftJacobian w = polynomial w (bend w.norm) (lag w.norm) := leftJacobian_eq hw

/-! ### Rates -/

open Filter Topology

theorem line_zero (w v : Vec3 ℝ) : w + v.scale 0 = w := by rw [Vec3.scale_zero, add_zero]

/-- The rate of the length of a vector that moves. -/
theorem hasDerivAt_norm_line (hw : w.norm ≠ 0) (v : Vec3 ℝ) :
    HasDerivAt (fun s => (w + v.scale s).norm) (w.dot v / w.norm) 0 := by
  have hnormSq : ∀ s, (w + v.scale s).normSq = w.normSq + s * (2 * w.dot v) + s ^ 2 * v.normSq := by
    intro s
    simp only [Vec3.normSq, Vec3.dot, Vec3.add_def, Vec3.scale]
    ring
  have hrate : HasDerivAt (fun s => (w + v.scale s).normSq) (2 * w.dot v) 0 := by
    simp only [hnormSq]
    refine (((hasDerivAt_mul_const _).const_add _).add ((hasDerivAt_pow 2 0).mul_const _)).congr_deriv ?_
    ring
  have hpos : (w + v.scale 0).normSq ≠ 0 := by
    rw [line_zero, ← Vec3.norm_sq]
    exact pow_ne_zero 2 hw
  refine (hrate.sqrt hpos).congr_deriv ?_
  rw [line_zero]
  exact mul_div_mul_left _ _ two_ne_zero

/-- A function of the angle, when the rotation vector moves. -/
theorem hasDerivAt_comp_norm_line {f : ℝ → ℝ} {f' : ℝ} (hf : HasDerivAt f f' w.norm) (hw : w.norm ≠ 0)
    (v : Vec3 ℝ) : HasDerivAt (fun s => f (w + v.scale s).norm) (f' * (w.dot v / w.norm)) 0 := by
  refine HasDerivAt.comp_of_eq 0 hf (hasDerivAt_norm_line hw v) ?_
  rw [line_zero]

/-- The rate of a polynomial whose vector moves and whose coefficients change. -/
theorem hasRate_polynomial {b c : ℝ → ℝ} {b' c' : ℝ} (hb : HasDerivAt b b' 0) (hc : HasDerivAt c c' 0)
    (w v : Vec3 ℝ) : Mat3.HasRate (fun s => polynomial (w + v.scale s) (b s) (c s))
      (v.skew.scale (b 0) + w.skew.scale b' +
        ((v.skew * w.skew + w.skew * v.skew).scale (c 0) + (w.skew * w.skew).scale c')) 0 := by
  have hskew := (Vec3.HasRate.line w v 0).skew
  have hrate := ((Mat3.HasRate.const 1).add (hskew.scale hb)).add ((hskew.mul hskew).scale hc)
  rwa [line_zero, zero_add] at hrate

end RotationVector

namespace PoseTangent

open RotationVector Filter Topology

variable {w : Vec3 ℝ}

theorem couplingSmallAngle_pos : (0 : ℝ) < couplingSmallAngle := by norm_num [couplingSmallAngle]

theorem smallAngle_lt_couplingSmallAngle : (smallAngle : ℝ) < couplingSmallAngle := by
  norm_num [smallAngle, couplingSmallAngle]

theorem norm_ne_zero (hw : couplingSmallAngle ≤ w.norm) : w.norm ≠ 0 :=
  (couplingSmallAngle_pos.trans_le hw).ne'

theorem smallAngle_le (hw : couplingSmallAngle ≤ w.norm) : smallAngle ≤ w.norm :=
  smallAngle_lt_couplingSmallAngle.le.trans hw

/-- Closed forms are computed for vectors nearby, too. -/
theorem eventually_smallAngle_le (hw : couplingSmallAngle ≤ w.norm) (v : Vec3 ℝ) :
    ∀ᶠ s in 𝓝 (0 : ℝ), smallAngle ≤ (w + v.scale s).norm := by
  have hcontinuous := (hasDerivAt_norm_line (norm_ne_zero hw) v).continuousAt
  have hlt : smallAngle < (w + v.scale 0).norm := by
    rw [line_zero]
    exact smallAngle_lt_couplingSmallAngle.trans_le hw
  exact (hcontinuous.eventually (lt_mem_nhds hlt)).mono fun _ => le_of_lt

/-! ### The coupling block -/

/-- The closed forms of the coefficients, with a power of the angle below each. -/
noncomputable def closedCoefficients (angle : ℝ) : ℝ × ℝ × ℝ :=
  (lag angle, (angle ^ 2 + 2.0 * Real.cos angle - 2.0) / (2.0 * angle ^ 4),
    (2.0 * angle - 3.0 * Real.sin angle + angle * Real.cos angle) / (2.0 * angle ^ 5))

theorem couplingCoefficients_eq_closed (hw : couplingSmallAngle ≤ w.norm) :
    couplingCoefficients w = closedCoefficients w.norm := by
  have hcoefficients : couplingCoefficients w =
      ((w.norm - Real.sin w.norm) / (w.normSq * w.norm),
        (w.normSq + 2.0 * Real.cos w.norm - 2.0) / (2.0 * (w.normSq * w.normSq)),
        (2.0 * w.norm - 3.0 * Real.sin w.norm + w.norm * Real.cos w.norm) /
          (2.0 * (w.normSq * w.normSq) * w.norm)) :=
    if_neg (not_lt.mpr hw)
  rw [hcoefficients, ← Vec3.norm_sq, closedCoefficients, lag, mul_assoc 2.0 _ w.norm, ← pow_add, ← pow_succ,
    ← pow_succ]

theorem couplingCoefficients_eq (hw : couplingSmallAngle ≤ w.norm) : couplingCoefficients w =
    (lag w.norm, (1 - 2 * bend w.norm) / (2 * w.norm ^ 2),
      (3 * lag w.norm - bend w.norm) / (2 * w.norm ^ 2)) := by
  have hnorm := norm_ne_zero hw
  have hthree : (3.0 : ℝ) = 3 := by norm_num
  rw [couplingCoefficients_eq_closed hw, closedCoefficients, Scalar.two_eq, hthree, lag, bend]
  refine Prod.ext rfl (Prod.ext ?_ ?_)
  · show (w.norm ^ 2 + 2 * Real.cos w.norm - 2) / _ = _ / _
    field_simp
    ring
  · show (2 * w.norm - 3 * Real.sin w.norm + w.norm * Real.cos w.norm) / _ = _ / _
    field_simp
    ring

/-- The triple and quadruple products are multiples of the others. -/
theorem reduce_products (v w : Vec3 ℝ) (b c d : ℝ) :
    v.skew.scale 0.5 + (w.skew * v.skew + v.skew * w.skew + w.skew * v.skew * w.skew).scale b +
        (w.skew * w.skew * v.skew + v.skew * w.skew * w.skew - (w.skew * v.skew * w.skew).scale 3.0).scale c +
        (w.skew * v.skew * w.skew * w.skew + w.skew * w.skew * v.skew * w.skew).scale d =
      v.skew.scale (1 / 2 - w.normSq * c) + w.skew.scale (w.dot v * (2 * c - b)) +
        ((v.skew * w.skew + w.skew * v.skew).scale b + (w.skew * w.skew).scale (-(2 * w.dot v * d))) := by
  have hbetween := skew_mul_mul_skew v w
  have hinner : w.skew * w.skew * v.skew * w.skew = -(w.skew * w.skew).scale (w.dot v) := by
    rw [mul_assoc w.skew, mul_assoc w.skew, hbetween, mul_neg, Mat3.mul_scale]
  have hhalf : (0.5 : ℝ) = 1 / 2 := by norm_num
  have hthree : (3.0 : ℝ) = 3 := by norm_num
  rw [hinner, hbetween, skew_sq_mul_add, neg_mul, Mat3.scale_mul, hhalf, hthree]
  simp only [Mat3.scale_eq_smul]
  module

/-- **The coupling block by the matrices of the rotation vector and its move.** -/
theorem coupling_eq (hw : couplingSmallAngle ≤ w.norm) (v : Vec3 ℝ) : coupling v w =
    v.skew.scale (bend w.norm) +
      w.skew.scale ((swing w.norm - 2 * bend w.norm) / w.norm * (w.dot v / w.norm)) +
      ((v.skew * w.skew + w.skew * v.skew).scale (lag w.norm) +
        (w.skew * w.skew).scale ((bend w.norm - 3 * lag w.norm) / w.norm * (w.dot v / w.norm))) := by
  have hnorm := norm_ne_zero hw
  have hfirst : 1 / 2 - w.norm ^ 2 * ((1 - 2 * bend w.norm) / (2 * w.norm ^ 2)) = bend w.norm := by
    field_simp
    ring
  have hsecond : w.dot v * (2 * ((1 - 2 * bend w.norm) / (2 * w.norm ^ 2)) - lag w.norm) =
      (swing w.norm - 2 * bend w.norm) / w.norm * (w.dot v / w.norm) := by
    rw [← swing_add hnorm]
    field_simp
    ring
  have hlast : -(2 * w.dot v * ((3 * lag w.norm - bend w.norm) / (2 * w.norm ^ 2))) =
      (bend w.norm - 3 * lag w.norm) / w.norm * (w.dot v / w.norm) := by
    field_simp
    ring
  rw [coupling, couplingCoefficients_eq hw]
  refine (reduce_products v w _ _ _).trans ?_
  rw [← Vec3.norm_sq, hfirst, hsecond, hlast]

/-- **The coupling block is the rate of the left Jacobian** when the rotation vector moves. -/
theorem hasRate_leftJacobian (hw : couplingSmallAngle ≤ w.norm) (v : Vec3 ℝ) :
    Mat3.HasRate (fun s => RotationVector.leftJacobian (w + v.scale s)) (coupling v w) 0 := by
  have hnorm := norm_ne_zero hw
  have hrate := hasRate_polynomial (hasDerivAt_comp_norm_line (hasDerivAt_bend hnorm) hnorm v)
    (hasDerivAt_comp_norm_line (hasDerivAt_lag hnorm) hnorm v) w v
  rw [line_zero, ← coupling_eq hw] at hrate
  exact hrate.congr ((eventually_smallAngle_le hw v).mono fun _ => leftJacobian_eq_polynomial)

/-- **The rate of the rotation** is a turn about what the left Jacobian makes of the move. -/
theorem hasRate_matrix_exp (hw : couplingSmallAngle ≤ w.norm) (v : Vec3 ℝ) :
    Mat3.HasRate (fun s => (RotationVector.exp (w + v.scale s)).matrix)
      (((RotationVector.leftJacobian w).apply v).skew * (RotationVector.exp w).matrix) 0 := by
  have hnorm := norm_ne_zero hw
  have hrate := hasRate_polynomial (hasDerivAt_comp_norm_line (hasDerivAt_swing hnorm) hnorm v)
    (hasDerivAt_comp_norm_line (hasDerivAt_bend hnorm) hnorm v) w v
  have hswing : w.norm * (lag w.norm - bend w.norm) * (w.dot v / w.norm) =
      w.dot v * (lag w.norm - bend w.norm) := by
    field_simp
  have hbend : (swing w.norm - 2 * bend w.norm) / w.norm * (w.dot v / w.norm) =
      w.dot v * (swing w.norm * lag w.norm - bend w.norm ^ 2) := by
    have hadd := swing_add hnorm
    have hsq := swing_sq_add hnorm
    field_simp
    linear_combination w.dot v * hsq - w.dot v * swing w.norm * hadd
  rw [leftJacobian_eq_polynomial (smallAngle_le hw), matrix_exp_eq_polynomial (smallAngle_le hw),
    skew_polynomial_apply_mul v w (swing_norm_add hnorm) (swing_norm_sq_add hnorm), ← hswing, ← hbend]
  rw [line_zero] at hrate
  exact hrate.congr ((eventually_smallAngle_le hw v).mono fun _ => matrix_exp_eq_polynomial)

end PoseTangent
end Kinodynamics
