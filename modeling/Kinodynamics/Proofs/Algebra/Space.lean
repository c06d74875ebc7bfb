/-
# Vectors and matrices of space at the reals

Over the reals the vectors are a module and the matrices an algebra. The lemmas here say how
the operations go together; each of them is an identity between numbers for each coordinate.
Sums that are accumulated (`Mat3.applyOnto`, `Mat3.mulOnto`) are sums, since nothing is
rounded.

Key definitions: the instances `AddCommGroup (Vec3 ℝ)`, `Module ℝ (Vec3 ℝ)`, `Ring (Mat3 ℝ)` and
`Algebra ℝ (Mat3 ℝ)`.
Key theorems: `Vec3.norm_eq_zero_iff`, `Mat3.mul_apply`, `Mat3.transpose_apply_dot`,
`Mat3.skew_apply`, `Mat3.skew_mul_skew_mul_skew`.
-/
import Mathlib
import Kinodynamics.Algebra.Vec3
import Kinodynamics.Proofs.Reals

namespace Kinodynamics

/-! ### Vectors -/

namespace Vec3

theorem zero_def : (0 : Vec3 ℝ) = ⟨0, 0, 0⟩ := rfl

theorem add_def (u v : Vec3 ℝ) : u + v = ⟨u.x + v.x, u.y + v.y, u.z + v.z⟩ := rfl

theorem neg_def (u : Vec3 ℝ) : -u = ⟨-u.x, -u.y, -u.z⟩ := rfl

noncomputable instance : AddCommGroup (Vec3 ℝ) where
  add_assoc u v w := by ext <;> exact add_assoc _ _ _
  zero_add u := by ext <;> exact zero_add _
  add_zero u := by ext <;> exact add_zero _
  add_comm u v := by ext <;> exact add_comm _ _
  neg_add_cancel u := by ext <;> exact neg_add_cancel _
  sub_eq_add_neg u v := by ext <;> exact sub_eq_add_neg _ _
  nsmul := nsmulRec
  zsmul := zsmulRec

variable (u v w : Vec3 ℝ) (s t : ℝ)

@[simp] theorem zero_scale : (0 : Vec3 ℝ).scale s = 0 := by ext <;> exact zero_mul _

theorem add_scale : (u + v).scale s = u.scale s + v.scale s := by ext <;> exact add_mul _ _ _

theorem neg_scale : (-u).scale s = -u.scale s := by ext <;> exact neg_mul _ _

@[simp] theorem scale_zero : u.scale 0 = 0 := by ext <;> exact mul_zero _

@[simp] theorem scale_one : u.scale 1 = u := by ext <;> exact mul_one _

theorem scale_add : u.scale (s + t) = u.scale s + u.scale t := by ext <;> exact mul_add _ _ _

theorem scale_neg : u.scale (-s) = -u.scale s := by ext <;> exact mul_neg _ _

theorem scale_scale : (u.scale s).scale t = u.scale (s * t) := by ext <;> exact mul_assoc _ _ _

theorem divBy_eq : u.divBy s = u.scale (1 / s) := by ext <;> exact div_eq_mul_one_div _ _

noncomputable instance : SMul ℝ (Vec3 ℝ) := ⟨fun s u => u.scale s⟩

theorem scale_eq_smul : u.scale s = s • u := rfl

noncomputable instance : Module ℝ (Vec3 ℝ) where
  one_smul := scale_one
  mul_smul s t u := by rw [← scale_eq_smul, ← scale_eq_smul, ← scale_eq_smul, scale_scale, mul_comm]
  smul_zero := zero_scale
  smul_add s u v := add_scale u v s
  add_smul s t u := scale_add u s t
  zero_smul := scale_zero

/-! Products of vectors. -/

theorem dot_comm : u.dot v = v.dot u := by
  simp only [dot]
  ring

theorem add_dot : (u + v).dot w = u.dot w + v.dot w := by
  simp only [dot, add_def]
  ring

theorem dot_add : u.dot (v + w) = u.dot v + u.dot w := by
  simp only [dot, add_def]
  ring

theorem neg_dot : (-u).dot v = -u.dot v := by
  simp only [dot, neg_def]
  ring

theorem scale_dot : (u.scale s).dot v = u.dot v * s := by
  simp only [dot, scale]
  ring

@[simp] theorem cross_self : u.cross u = 0 := by
  ext <;> simp only [cross, zero_def] <;> ring

theorem cross_swap : u.cross v = -v.cross u := by
  ext <;> simp only [cross, neg_def] <;> ring

theorem add_cross : (u + v).cross w = u.cross w + v.cross w := by
  ext <;> simp only [cross, add_def] <;> ring

theorem cross_add : u.cross (v + w) = u.cross v + u.cross w := by
  ext <;> simp only [cross, add_def] <;> ring

/-- Jacobi's identity. -/
theorem cross_cross : u.cross (v.cross w) = (u.cross v).cross w + v.cross (u.cross w) := by
  ext <;> simp only [cross, add_def] <;> ring

theorem scale_cross : (u.scale s).cross v = (u.cross v).scale s := by
  ext <;> simp only [cross, scale] <;> ring

/-! Lengths. -/

theorem normSq_eq : u.normSq = u.x ^ 2 + u.y ^ 2 + u.z ^ 2 := by
  simp only [normSq, dot]
  ring

theorem normSq_nonneg : 0 ≤ u.normSq := by
  rw [normSq_eq]
  positivity

theorem norm_nonneg : 0 ≤ u.norm := Real.sqrt_nonneg _

theorem norm_sq : u.norm ^ 2 = u.normSq := Real.sq_sqrt u.normSq_nonneg

theorem norm_scale : (u.scale s).norm = u.norm * |s| := by
  have hnormSq : (u.scale s).normSq = u.normSq * s ^ 2 := by
    simp only [normSq_eq, scale]
    ring
  show Real.sqrt (u.scale s).normSq = _
  rw [hnormSq, Real.sqrt_mul' _ (sq_nonneg s), Real.sqrt_sq_eq_abs]
  rfl

theorem norm_neg : (-u).norm = u.norm := by
  show Real.sqrt (-u).normSq = Real.sqrt u.normSq
  rw [normSq_eq, normSq_eq, neg_def, neg_sq, neg_sq, neg_sq]

variable {u}

theorem norm_eq_zero_iff : u.norm = 0 ↔ u = 0 := by
  rw [← sq_eq_zero_iff, norm_sq, normSq_eq]
  constructor
  · intro h
    have hx := sq_nonneg u.x
    have hy := sq_nonneg u.y
    have hz := sq_nonneg u.z
    ext
    · exact sq_eq_zero_iff.mp (by linarith : u.x ^ 2 = 0)
    · exact sq_eq_zero_iff.mp (by linarith : u.y ^ 2 = 0)
    · exact sq_eq_zero_iff.mp (by linarith : u.z ^ 2 = 0)
  · rintro rfl
    simp [zero_def]

theorem scale_eq_zero_iff {s : ℝ} : u.scale s = 0 ↔ u = 0 ∨ s = 0 := by
  rw [← norm_eq_zero_iff, norm_scale, mul_eq_zero, norm_eq_zero_iff, abs_eq_zero]

end Vec3

/-! ### Matrices -/

namespace Mat3

theorem zero_def : (0 : Mat3 ℝ) = ⟨0, 0, 0, 0, 0, 0, 0, 0, 0⟩ := rfl

theorem one_def : (1 : Mat3 ℝ) = ⟨1, 0, 0, 0, 1, 0, 0, 0, 1⟩ := rfl

theorem add_def (a b : Mat3 ℝ) : a + b =
    ⟨a.m00 + b.m00, a.m01 + b.m01, a.m02 + b.m02,
     a.m10 + b.m10, a.m11 + b.m11, a.m12 + b.m12,
     a.m20 + b.m20, a.m21 + b.m21, a.m22 + b.m22⟩ := rfl

theorem neg_def (a : Mat3 ℝ) : -a =
    ⟨-a.m00, -a.m01, -a.m02, -a.m10, -a.m11, -a.m12, -a.m20, -a.m21, -a.m22⟩ := rfl

theorem mul_def (a b : Mat3 ℝ) : a * b =
    ⟨a.m00 * b.m00 + a.m01 * b.m10 + a.m02 * b.m20,
     a.m00 * b.m01 + a.m01 * b.m11 + a.m02 * b.m21,
     a.m00 * b.m02 + a.m01 * b.m12 + a.m02 * b.m22,
     a.m10 * b.m00 + a.m11 * b.m10 + a.m12 * b.m20,
     a.m10 * b.m01 + a.m11 * b.m11 + a.m12 * b.m21,
     a.m10 * b.m02 + a.m11 * b.m12 + a.m12 * b.m22,
     a.m20 * b.m00 + a.m21 * b.m10 + a.m22 * b.m20,
     a.m20 * b.m01 + a.m21 * b.m11 + a.m22 * b.m21,
     a.m20 * b.m02 + a.m21 * b.m12 + a.m22 * b.m22⟩ := rfl

noncomputable instance : Ring (Mat3 ℝ) where
  add_assoc a b c := by ext <;> exact add_assoc _ _ _
  zero_add a := by ext <;> exact zero_add _
  add_zero a := by ext <;> exact add_zero _
  add_comm a b := by ext <;> exact add_comm _ _
  neg_add_cancel a := by ext <;> exact neg_add_cancel _
  sub_eq_add_neg a b := by ext <;> exact sub_eq_add_neg _ _
  mul_assoc a b c := by ext <;> simp only [mul_def] <;> ring
  one_mul a := by ext <;> simp only [mul_def, one_def] <;> ring
  mul_one a := by ext <;> simp only [mul_def, one_def] <;> ring
  left_distrib a b c := by ext <;> simp only [mul_def, add_def] <;> ring
  right_distrib a b c := by ext <;> simp only [mul_def, add_def] <;> ring
  zero_mul a := by ext <;> simp only [mul_def, zero_def] <;> ring
  mul_zero a := by ext <;> simp only [mul_def, zero_def] <;> ring
  nsmul := nsmulRec
  zsmul := zsmulRec

variable (a b : Mat3 ℝ) (u v : Vec3 ℝ) (s t : ℝ)

theorem scale_sub : a.scale (s - t) = a.scale s - a.scale t := by ext <;> exact mul_sub _ _ _

theorem neg_scale : (-a).scale s = -a.scale s := by ext <;> exact neg_mul _ _

@[simp] theorem zero_scale : (0 : Mat3 ℝ).scale s = 0 := by ext <;> exact zero_mul _

@[simp] theorem scale_zero : a.scale 0 = 0 := by ext <;> exact mul_zero _

@[simp] theorem scale_one : a.scale 1 = a := by ext <;> exact mul_one _

theorem add_scale : (a + b).scale s = a.scale s + b.scale s := by ext <;> exact add_mul _ _ _

theorem scale_add : a.scale (s + t) = a.scale s + a.scale t := by ext <;> exact mul_add _ _ _

theorem scale_neg : a.scale (-s) = -a.scale s := by ext <;> exact mul_neg _ _

theorem scale_scale : (a.scale s).scale t = a.scale (s * t) := by ext <;> exact mul_assoc _ _ _

theorem mul_scale : a * b.scale s = (a * b).scale s := by
  ext <;> simp only [mul_def, scale] <;> ring

theorem scale_mul : a.scale s * b = (a * b).scale s := by
  ext <;> simp only [mul_def, scale] <;> ring

noncomputable instance : SMul ℝ (Mat3 ℝ) := ⟨fun s a => a.scale s⟩

theorem scale_eq_smul : a.scale s = s • a := rfl

noncomputable instance : Module ℝ (Mat3 ℝ) where
  one_smul := scale_one
  mul_smul s t a := by rw [← scale_eq_smul, ← scale_eq_smul, ← scale_eq_smul, scale_scale, mul_comm]
  smul_zero := zero_scale
  smul_add s a b := add_scale a b s
  add_smul s t a := scale_add a s t
  zero_smul := scale_zero

noncomputable instance : Algebra ℝ (Mat3 ℝ) :=
  Algebra.ofModule (fun _ _ _ => scale_mul _ _ _) (fun _ _ _ => mul_scale _ _ _)

/-! Matrices on vectors. -/

@[simp] theorem one_apply : (1 : Mat3 ℝ).apply v = v := by
  ext <;> simp only [apply, one_def] <;> ring

@[simp] theorem zero_apply : (0 : Mat3 ℝ).apply v = 0 := by
  ext <;> simp only [apply, zero_def, Vec3.zero_def] <;> ring

@[simp] theorem apply_zero : a.apply 0 = 0 := by
  ext <;> simp only [apply, Vec3.zero_def] <;> ring

theorem scale_apply : (a.scale s).apply v = (a.apply v).scale s := by
  ext <;> simp only [apply, scale, Vec3.scale] <;> ring

theorem add_apply : (a + b).apply v = a.apply v + b.apply v := by
  ext <;> simp only [apply, add_def, Vec3.add_def] <;> ring

theorem neg_apply : (-a).apply v = -a.apply v := by
  ext <;> simp only [apply, neg_def, Vec3.neg_def] <;> ring

theorem mul_apply : (a * b).apply v = a.apply (b.apply v) := by
  ext <;> simp only [apply, mul_def] <;> ring

theorem apply_add : a.apply (u + v) = a.apply u + a.apply v := by
  ext <;> simp only [apply, Vec3.add_def] <;> ring

theorem apply_neg : a.apply (-v) = -a.apply v := by
  ext <;> simp only [apply, Vec3.neg_def] <;> ring

theorem apply_scale : a.apply (v.scale s) = (a.apply v).scale s := by
  ext <;> simp only [apply, Vec3.scale] <;> ring

/-- A transposed matrix acts on the other side of a scalar product. -/
theorem transpose_apply_dot : (a.transpose.apply u).dot v = u.dot (a.apply v) := by
  simp only [transpose, apply, Vec3.dot]
  ring

theorem applyOnto_eq : applyOnto u a v = u + a.apply v := by
  ext <;> simp only [applyOnto, apply, Vec3.add_def] <;> ring

theorem mulOnto_eq (c : Mat3 ℝ) : mulOnto c a b = c + a * b := by
  ext <;> simp only [mulOnto, mul_def, add_def] <;> ring

/-! The matrix of the vector product. -/

@[simp] theorem skew_zero : (0 : Vec3 ℝ).skew = 0 := by
  ext <;> simp only [Vec3.skew, Vec3.zero_def, zero_def, neg_zero]

@[simp] theorem skew_apply : u.skew.apply v = u.cross v := by
  ext <;> simp only [Vec3.skew, apply, Vec3.cross] <;> ring

theorem skew_add : (u + v).skew = u.skew + v.skew := by
  ext <;> simp only [Vec3.skew, Vec3.add_def, add_def] <;> ring

theorem skew_neg : (-u).skew = -u.skew := by
  ext <;> simp only [Vec3.skew, Vec3.neg_def, neg_def, neg_zero]

theorem skew_scale : (u.scale s).skew = u.skew.scale s := by
  ext <;> simp only [Vec3.skew, Vec3.scale, scale] <;> ring

/-- The third power of the matrix of a vector product is a multiple of the first. -/
theorem skew_mul_skew_mul_skew : u.skew * (u.skew * u.skew) = -u.skew.scale u.normSq := by
  ext <;> simp only [Vec3.skew, mul_def, neg_def, scale, Vec3.normSq, Vec3.dot] <;> ring

end Mat3
end Kinodynamics
