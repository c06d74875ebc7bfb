/-
# Spatial vectors at the reals

Spatial vectors are an additive group, and a matrix on them acts by its blocks. The bracket
with a spatial vector is written out by vector products, from which follow that it is
antisymmetric and that a vector has no bracket with itself. The transpose of a matrix acts
on the other side of the scalar product, so what a matrix does to twists determines what it
does to wrenches.

Key definitions: the instance `AddCommGroup (Spatial ℝ)`.
Key theorems: `SpatialMat.apply_eq`, `SpatialMat.mul_apply`, `SpatialMat.transpose_apply_dot`,
`Spatial.cross_apply`, `Spatial.cross_apply_swap`.
-/
import Kinodynamics.Proofs.Algebra.Space
import Kinodynamics.Algebra.Spatial

namespace Kinodynamics

/-! ### Vectors -/

namespace Spatial

theorem zero_def : (0 : Spatial ℝ) = ⟨0, 0⟩ := rfl

theorem add_def (u v : Spatial ℝ) : u + v = ⟨u.angular + v.angular, u.linear + v.linear⟩ := rfl

theorem neg_def (u : Spatial ℝ) : -u = ⟨-u.angular, -u.linear⟩ := rfl

noncomputable instance : AddCommGroup (Spatial ℝ) where
  add_assoc u v w := by ext1 <;> exact add_assoc _ _ _
  zero_add u := by ext1 <;> exact zero_add _
  add_zero u := by ext1 <;> exact add_zero _
  add_comm u v := by ext1 <;> exact add_comm _ _
  neg_add_cancel u := by ext1 <;> exact neg_add_cancel _
  sub_eq_add_neg u v := by ext1 <;> exact sub_eq_add_neg _ _
  nsmul := nsmulRec
  zsmul := zsmulRec

variable (u v w : Spatial ℝ) (s : ℝ)

@[simp] theorem zero_scale : (0 : Spatial ℝ).scale s = 0 := by ext1 <;> exact Vec3.zero_scale _

@[simp] theorem scale_zero : u.scale 0 = 0 := by ext1 <;> exact Vec3.scale_zero _

@[simp] theorem scale_one : u.scale 1 = u := by ext1 <;> exact Vec3.scale_one _

theorem neg_scale : (-u).scale s = -u.scale s := by ext1 <;> exact Vec3.neg_scale _ _

theorem scale_neg : u.scale (-s) = -u.scale s := by ext1 <;> exact Vec3.scale_neg _ _

theorem scale_scale (t : ℝ) : (u.scale s).scale t = u.scale (s * t) := by
  ext1 <;> exact Vec3.scale_scale _ _ _

theorem add_scale : (u + v).scale s = u.scale s + v.scale s := by ext1 <;> exact Vec3.add_scale _ _ _

theorem scale_add (t : ℝ) : u.scale (s + t) = u.scale s + u.scale t := by
  ext1 <;> exact Vec3.scale_add _ _ _

theorem dot_eq : u.dot v = u.angular.dot v.angular + u.linear.dot v.linear := by
  simp only [dot, Vec3.dot]
  ring

theorem dot_comm : u.dot v = v.dot u := by
  rw [dot_eq, dot_eq, Vec3.dot_comm, Vec3.dot_comm u.linear]

@[simp] theorem zero_dot : (0 : Spatial ℝ).dot u = 0 := by
  simp only [dot_eq, zero_def, Vec3.dot, Vec3.zero_def]
  ring

theorem add_dot : (u + v).dot w = u.dot w + v.dot w := by
  simp only [dot_eq, add_def, Vec3.add_dot]
  ring

theorem dot_add : u.dot (v + w) = u.dot v + u.dot w := by
  rw [dot_comm, add_dot, dot_comm v, dot_comm w]

theorem neg_dot : (-u).dot v = -u.dot v := by
  simp only [dot_eq, neg_def, Vec3.neg_dot]
  ring

theorem scale_dot : (u.scale s).dot v = u.dot v * s := by
  simp only [dot_eq, scale, Vec3.scale_dot]
  ring

end Spatial

/-! ### Matrices -/

namespace SpatialMat

variable (a b : SpatialMat ℝ) (u v : Spatial ℝ) (s : ℝ)

theorem apply_eq : a.apply v =
    ⟨a.aa.apply v.angular + a.al.apply v.linear, a.la.apply v.angular + a.ll.apply v.linear⟩ := by
  rw [apply, Mat3.applyOnto_eq, Mat3.applyOnto_eq]

theorem mul_def : a * b = ⟨a.aa * b.aa + a.al * b.la, a.aa * b.al + a.al * b.ll,
    a.la * b.aa + a.ll * b.la, a.la * b.al + a.ll * b.ll⟩ := by
  show (⟨.mulOnto (a.aa * b.aa) a.al b.la, .mulOnto (a.aa * b.al) a.al b.ll,
    .mulOnto (a.la * b.aa) a.ll b.la, .mulOnto (a.la * b.al) a.ll b.ll⟩ : SpatialMat ℝ) = _
  rw [Mat3.mulOnto_eq, Mat3.mulOnto_eq, Mat3.mulOnto_eq, Mat3.mulOnto_eq]

theorem neg_def : -a = ⟨-a.aa, -a.al, -a.la, -a.ll⟩ := rfl

theorem one_def : (1 : SpatialMat ℝ) = ⟨1, 0, 0, 1⟩ := rfl

@[simp] theorem one_apply : (1 : SpatialMat ℝ).apply v = v := by
  rw [apply_eq, one_def, Mat3.one_apply, Mat3.zero_apply, Mat3.zero_apply, Mat3.one_apply, add_zero,
    zero_add]

theorem neg_apply : (-a).apply v = -a.apply v := by
  simp only [apply_eq, neg_def, Spatial.neg_def, Mat3.neg_apply, neg_add]

theorem mul_apply : (a * b).apply v = a.apply (b.apply v) := by
  simp only [apply_eq, mul_def, Mat3.add_apply, Mat3.mul_apply, Mat3.apply_add]
  ext1 <;> exact add_add_add_comm _ _ _ _

theorem apply_add : a.apply (u + v) = a.apply u + a.apply v := by
  simp only [apply_eq, Spatial.add_def, Mat3.apply_add]
  ext1 <;> exact add_add_add_comm _ _ _ _

@[simp] theorem apply_zero : a.apply 0 = 0 := by
  simp only [apply_eq, Spatial.zero_def, Mat3.apply_zero, add_zero]

theorem apply_neg : a.apply (-v) = -a.apply v := by
  simp only [apply_eq, Spatial.neg_def, Mat3.apply_neg, neg_add]

theorem apply_scale : a.apply (v.scale s) = (a.apply v).scale s := by
  simp only [apply_eq, Spatial.scale, Mat3.apply_scale, Vec3.add_scale]

/-- A transposed matrix acts on the other side of the scalar product. -/
theorem transpose_apply_dot : (a.transpose.apply u).dot v = u.dot (a.apply v) := by
  simp only [apply_eq, transpose, Spatial.dot_eq, Vec3.add_dot, Vec3.dot_add,
    Mat3.transpose_apply_dot]
  ring

/-- A block lower triangular matrix with one block twice on its diagonal. -/
theorem lower_apply (d c : Mat3 ℝ) : (lower d c).apply v =
    ⟨d.apply v.angular, c.apply v.angular + d.apply v.linear⟩ := by
  rw [apply_eq, lower, Mat3.zero_apply, add_zero]

theorem lower_mul_lower (d c d' c' : Mat3 ℝ) :
    lower d c * lower d' c' = lower (d * d') (c * d' + d * c') := by
  simp only [mul_def, lower, mul_zero, zero_mul, add_zero, zero_add]

end SpatialMat

/-! ### The bracket -/

namespace Spatial

variable (u v w : Spatial ℝ) (s : ℝ)

theorem cross_apply : u.cross.apply v =
    ⟨u.angular.cross v.angular, u.linear.cross v.angular + u.angular.cross v.linear⟩ := by
  show (SpatialMat.lower u.angular.skew u.linear.skew).apply v = _
  simp only [SpatialMat.lower_apply, Mat3.skew_apply]

/-- The bracket is antisymmetric. -/
theorem cross_apply_swap : u.cross.apply v = -v.cross.apply u := by
  simp only [cross_apply, neg_def, neg_add, ← Vec3.cross_swap]
  rw [add_comm]

@[simp] theorem cross_apply_self : u.cross.apply u = 0 := by
  rw [cross_apply, Vec3.cross_self, Vec3.cross_swap u.linear, neg_add_cancel, zero_def]

theorem neg_cross_apply : (-u).cross.apply v = -u.cross.apply v := by
  rw [cross_apply_swap, SpatialMat.apply_neg, ← cross_apply_swap]

theorem add_cross_apply : (u + v).cross.apply w = u.cross.apply w + v.cross.apply w := by
  simp only [cross_apply, add_def, Vec3.add_cross]
  ext1
  · rfl
  · exact add_add_add_comm _ _ _ _

end Spatial
end Kinodynamics
