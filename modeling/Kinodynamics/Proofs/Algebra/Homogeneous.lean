/-
# Homogeneous matrices at the reals

Over the reals the homogeneous matrices are an algebra. The matrices of rigid motions are
multiplied as the motions are composed, and the adjoint of a motion says how generators go
past its matrix.

Key definitions: the instances `Ring (Homogeneous ℝ)` and `Algebra ℝ (Homogeneous ℝ)`.
Key theorems: `Pose.IsUnit.matrix_compose`, `Pose.IsUnit.matrix_mul_hat`.
-/
import Kinodynamics.Proofs.Motion.Adjoint

namespace Kinodynamics

/-! ### The algebra -/

namespace Homogeneous

noncomputable instance : Neg (Homogeneous ℝ) := ⟨fun a => ⟨-a.block, -a.column, -a.corner⟩⟩

noncomputable instance : SMul ℝ (Homogeneous ℝ) :=
  ⟨fun s a => ⟨a.block.scale s, a.column.scale s, a.corner * s⟩⟩

theorem zero_def : (0 : Homogeneous ℝ) = ⟨0, 0, 0⟩ := rfl

theorem one_def : (1 : Homogeneous ℝ) = ⟨1, 0, 1⟩ := rfl

theorem add_def (a b : Homogeneous ℝ) :
    a + b = ⟨a.block + b.block, a.column + b.column, a.corner + b.corner⟩ := rfl

theorem mul_def (a b : Homogeneous ℝ) : a * b =
    ⟨a.block * b.block, a.block.apply b.column + a.column.scale b.corner, a.corner * b.corner⟩ := rfl

theorem smul_def (s : ℝ) (a : Homogeneous ℝ) :
    s • a = ⟨a.block.scale s, a.column.scale s, a.corner * s⟩ := rfl

noncomputable instance : Ring (Homogeneous ℝ) where
  add_assoc a b c := by ext1 <;> exact add_assoc _ _ _
  zero_add a := by ext1 <;> exact zero_add _
  add_zero a := by ext1 <;> exact add_zero _
  add_comm a b := by ext1 <;> exact add_comm _ _
  neg_add_cancel a := by ext1 <;> exact neg_add_cancel _
  sub_eq_add_neg a b := by ext1 <;> exact sub_eq_add_neg _ _
  mul_assoc a b c := by
    ext1
    · exact mul_assoc _ _ _
    · simp only [mul_def, Mat3.apply_add, Mat3.mul_apply, Mat3.apply_scale, Vec3.add_scale,
        Vec3.scale_scale, add_assoc]
    · exact mul_assoc _ _ _
  one_mul a := by ext1 <;> simp only [mul_def, one_def, one_mul, Mat3.one_apply, Vec3.zero_scale, add_zero]
  mul_one a := by ext1 <;> simp only [mul_def, one_def, mul_one, Mat3.apply_zero, Vec3.scale_one, zero_add]
  left_distrib a b c := by
    ext1
    · exact mul_add _ _ _
    · simp only [mul_def, add_def, Mat3.apply_add, Vec3.scale_add]
      abel
    · exact mul_add _ _ _
  right_distrib a b c := by
    ext1
    · exact add_mul _ _ _
    · simp only [mul_def, add_def, Mat3.add_apply, Vec3.add_scale]
      abel
    · exact add_mul _ _ _
  zero_mul a := by ext1 <;> simp only [mul_def, zero_def, zero_mul, Mat3.zero_apply, Vec3.zero_scale, add_zero]
  mul_zero a := by ext1 <;> simp only [mul_def, zero_def, mul_zero, Mat3.apply_zero, Vec3.scale_zero, add_zero]
  nsmul := nsmulRec
  zsmul := zsmulRec

noncomputable instance : Module ℝ (Homogeneous ℝ) where
  one_smul a := by ext1 <;> simp only [smul_def, Mat3.scale_one, Vec3.scale_one, mul_one]
  mul_smul s t a := by
    ext1 <;> simp only [smul_def, Mat3.scale_scale, Vec3.scale_scale, mul_comm s, mul_assoc]
  smul_zero s := by ext1 <;> simp only [smul_def, zero_def, Mat3.zero_scale, Vec3.zero_scale, zero_mul]
  smul_add s a b := by
    ext1 <;> simp only [smul_def, add_def, Mat3.add_scale, Vec3.add_scale, add_mul]
  add_smul s t a := by
    ext1 <;> simp only [smul_def, add_def, Mat3.scale_add, Vec3.scale_add, mul_add]
  zero_smul a := by ext1 <;> simp only [smul_def, zero_def, Mat3.scale_zero, Vec3.scale_zero, mul_zero]

noncomputable instance : Algebra ℝ (Homogeneous ℝ) := Algebra.ofModule
  (fun s a b => by
    ext1
    · exact Mat3.scale_mul _ _ _
    · simp only [smul_def, mul_def, Mat3.scale_apply, Vec3.add_scale, Vec3.scale_scale, mul_comm s]
    · show a.corner * s * b.corner = a.corner * b.corner * s
      ring)
  (fun s a b => by
    ext1
    · exact Mat3.mul_scale _ _ _
    · simp only [smul_def, mul_def, Mat3.apply_scale, Vec3.add_scale, Vec3.scale_scale]
    · exact (mul_assoc _ _ _).symm)

end Homogeneous

/-! ### Rigid motions -/

namespace Pose

variable {p : Pose ℝ}

theorem matrix_identity : (identity : Pose ℝ).matrix = 1 := by
  rw [matrix, identity, Rotation.matrix_identity, Homogeneous.one_def]

/-- **Rigid motions are composed as their matrices are multiplied.** -/
theorem IsUnit.matrix_compose (h : p.IsUnit) (q : Pose ℝ) :
    (p.compose q).matrix = p.matrix * q.matrix := by
  have hrotation : p.rotation.IsUnit := h
  show (⟨(p.rotation.compose q.rotation).matrix, p.rotation.act q.position + p.position, 1⟩ :
    Homogeneous ℝ) = _
  rw [Rotation.matrix_compose, hrotation.act_eq, Homogeneous.mul_def, matrix, matrix, Vec3.scale_one,
    mul_one]

theorem IsUnit.matrix_mul_inverse (h : p.IsUnit) : p.matrix * p.inverse.matrix = 1 := by
  rw [← h.matrix_compose, h.compose_inverse, matrix_identity]

theorem IsUnit.inverse_mul_matrix (h : p.IsUnit) : p.inverse.matrix * p.matrix = 1 := by
  rw [← h.inverse.matrix_compose, h.inverse_compose, matrix_identity]

/-- **A generator goes past the matrix of a motion as the adjoint says.** -/
theorem IsUnit.matrix_mul_hat (h : p.IsUnit) (v : Spatial ℝ) :
    p.matrix * PoseTangent.hat v = PoseTangent.hat (p.adjoint.apply v) * p.matrix := by
  have hrotation : p.rotation.IsUnit := h
  rw [adjoint_apply, PoseTangent.hat, PoseTangent.hat, matrix, Homogeneous.mul_def,
    Homogeneous.mul_def]
  ext1
  · exact (hrotation.skew_apply_mul _).symm
  · show p.rotation.matrix.apply v.linear + p.position.scale 0 =
      (p.rotation.matrix.apply v.angular).skew.apply p.position +
        (p.position.cross (p.rotation.matrix.apply v.angular) + p.rotation.matrix.apply v.linear).scale 1
    rw [Vec3.scale_zero, Vec3.scale_one, Mat3.skew_apply, Vec3.cross_swap p.position, add_zero,
      add_neg_cancel_left]
  · exact mul_comm _ _

end Pose

/-! ### Generators -/

namespace PoseTangent

variable (v : Spatial ℝ) (s : ℝ)

theorem hat_neg : hat (-v) = -hat v := by
  ext1
  · exact Mat3.skew_neg _
  · rfl
  · exact neg_zero.symm

theorem hat_sq :
    hat v ^ 2 = ⟨v.angular.skew * v.angular.skew, v.angular.skew.apply v.linear, 0⟩ := by
  rw [sq, hat, Homogeneous.mul_def, Vec3.scale_zero, add_zero, mul_zero]

theorem hat_pow_three : hat v ^ 3 = ⟨v.angular.skew * (v.angular.skew * v.angular.skew),
    (v.angular.skew * v.angular.skew).apply v.linear, 0⟩ := by
  rw [pow_succ', hat_sq, hat, Homogeneous.mul_def, Vec3.scale_zero, add_zero, mul_zero,
    Mat3.mul_apply]

/-- The fourth power of a generator is a multiple of the second. -/
theorem hat_pow_four : hat v ^ 4 = -(v.angular.norm ^ 2) • hat v ^ 2 := by
  have hturn := Mat3.skew_mul_skew_mul_skew v.angular
  rw [pow_succ', hat_pow_three, hat_sq, hat, Homogeneous.mul_def, Homogeneous.smul_def, hturn,
    ← Mat3.mul_apply, hturn, Vec3.norm_sq]
  ext1
  · show v.angular.skew * -v.angular.skew.scale v.angular.normSq =
      (v.angular.skew * v.angular.skew).scale (-v.angular.normSq)
    rw [mul_neg, Mat3.mul_scale, Mat3.scale_neg]
  · show (-v.angular.skew.scale v.angular.normSq).apply v.linear + v.linear.scale 0 =
      (v.angular.skew.apply v.linear).scale (-v.angular.normSq)
    rw [Mat3.neg_apply, Mat3.scale_apply, Vec3.scale_zero, Vec3.scale_neg, add_zero]
  · show (0 : ℝ) * 0 = 0 * -v.angular.normSq
    rw [zero_mul, zero_mul]

end PoseTangent
end Kinodynamics
