/-
# The group of rigid motions and its adjoint representation

Motions are held as a quaternion and a displacement, while generators, adjoints and brackets are
written as block matrices of their own. Here they are shown to be one group with one convention:
every operation keeps the rotation a rotation, composition is the product of the homogeneous
matrices, the adjoint is conjugation of generators, the bracket is their commutator, and
conjugating a motion along a screw is the motion along the screw carried over
(`Pose.group_and_adjoint`).

A matrix on spatial vectors is determined by what it does to them, so laws between such matrices
are proved on vectors.

Key definitions: `Mat3.det`, `Mat3.IsRotation`, `Pose.IsRigid`.
Key theorems: `Rotation.IsUnit.isRotation`, `Pose.IsUnit.compose_assoc`, `PoseTangent.hat_cross`,
`Pose.IsUnit.adjoint_mul_cross`, `Pose.group_and_adjoint`.
-/
import Kinodynamics.Proofs.Motion.Screw

namespace Kinodynamics

/-! ### Rotation matrices -/

namespace Mat3

/-- The determinant, along the first row. -/
def det (a : Mat3 ℝ) : ℝ :=
  a.m00 * (a.m11 * a.m22 - a.m12 * a.m21) - a.m01 * (a.m10 * a.m22 - a.m12 * a.m20) +
    a.m02 * (a.m10 * a.m21 - a.m11 * a.m20)

/-- The matrix is orthonormal and keeps the orientation. -/
structure IsRotation (a : Mat3 ℝ) : Prop where
  mul_transpose : a * a.transpose = 1
  transpose_mul : a.transpose * a = 1
  det_eq : a.det = 1

/-- A matrix is determined by what it does to vectors. -/
theorem ext_apply {a b : Mat3 ℝ} (h : ∀ v, a.apply v = b.apply v) : a = b := by
  have hx := h ⟨1, 0, 0⟩
  have hy := h ⟨0, 1, 0⟩
  have hz := h ⟨0, 0, 1⟩
  simp only [apply, mul_one, mul_zero, add_zero, zero_add, Vec3.mk.injEq] at hx hy hz
  obtain ⟨h00, h10, h20⟩ := hx
  obtain ⟨h01, h11, h21⟩ := hy
  obtain ⟨h02, h12, h22⟩ := hz
  ext <;> assumption

/-- The matrix of a vector product is the commutator of the matrices. -/
theorem skew_cross (u v : Vec3 ℝ) : (u.cross v).skew = u.skew * v.skew - v.skew * u.skew := by
  refine ext_apply fun w => ?_
  rw [sub_eq_add_neg, add_apply, neg_apply, mul_apply, mul_apply, skew_apply, skew_apply, skew_apply,
    skew_apply, skew_apply, Vec3.cross_cross u, add_neg_cancel_right]

end Mat3

namespace Rotation

/-- The determinant is the third power of the squared length. -/
theorem det_matrix (r : Rotation ℝ) : r.matrix.det = (r.w ^ 2 + r.x ^ 2 + r.y ^ 2 + r.z ^ 2) ^ 3 := by
  simp only [matrix, Mat3.det, Scalar.two_eq]
  ring

/-- **The matrix of a unit quaternion is a rotation.** -/
theorem IsUnit.isRotation {r : Rotation ℝ} (h : r.IsUnit) : r.matrix.IsRotation where
  mul_transpose := by rw [← matrix_inverse, h.matrix_mul_inverse]
  transpose_mul := by rw [← matrix_inverse, h.inverse_mul_matrix]
  det_eq := by rw [det_matrix, h, one_pow]

theorem compose_assoc (a b c : Rotation ℝ) : (a.compose b).compose c = a.compose (b.compose c) := by
  ext <;> simp only [compose] <;> ring

theorem compose_identity (a : Rotation ℝ) : a.compose identity = a := by
  ext <;> simp [compose, identity]

theorem identity_compose (a : Rotation ℝ) : identity.compose a = a := by
  ext <;> simp [compose, identity]

end Rotation

/-! ### The group -/

namespace Pose

/-- The quaternion has length one and the matrix is a rotation. -/
def IsRigid (p : Pose ℝ) : Prop := p.IsUnit ∧ p.rotation.matrix.IsRotation

variable {a b : Pose ℝ}

theorem IsUnit.isRigid (h : a.IsUnit) : a.IsRigid := ⟨h, Rotation.IsUnit.isRotation h⟩

theorem isUnit_exp (v : Spatial ℝ) : (PoseTangent.exp v).IsUnit := RotationVector.isUnit_exp _

theorem IsUnit.between (ha : a.IsUnit) (hb : b.IsUnit) : (a.between b).IsUnit := ha.inverse.compose hb

theorem IsUnit.rightPlus (ha : a.IsUnit) (v : Spatial ℝ) : (a.rightPlus v).IsUnit :=
  ha.compose (isUnit_exp v)

/-- A motion moves points as its homogeneous matrix does. -/
theorem IsUnit.movePoint_eq (ha : a.IsUnit) (v : Vec3 ℝ) :
    a.movePoint v = a.matrix.block.apply v + a.matrix.column :=
  congrArg (· + a.position) (Rotation.IsUnit.act_eq ha v)

theorem IsUnit.compose_assoc (ha : a.IsUnit) (hb : b.IsUnit) (c : Pose ℝ) :
    (a.compose b).compose c = a.compose (b.compose c) := by
  have hra : a.rotation.IsUnit := ha
  have hrb : b.rotation.IsUnit := hb
  have hposition : (a.rotation.compose b.rotation).act c.position +
      (a.rotation.act b.position + a.position) =
      a.rotation.act (b.rotation.act c.position + b.position) + a.position := by
    rw [(hra.compose hrb).act_eq, hra.act_eq, hra.act_eq, hrb.act_eq, Rotation.matrix_compose,
      Mat3.mul_apply, Mat3.apply_add, add_assoc]
  exact Pose.ext (Rotation.compose_assoc _ _ _) hposition

theorem IsUnit.compose_identity (ha : a.IsUnit) : a.compose identity = a := by
  have hposition : a.rotation.act 0 + a.position = a.position := by
    rw [Rotation.IsUnit.act_eq ha, Mat3.apply_zero, zero_add]
  exact Pose.ext (Rotation.compose_identity _) hposition

theorem identity_compose (a : Pose ℝ) : identity.compose a = a := by
  have hposition : Rotation.identity.act a.position + 0 = a.position := by
    rw [Rotation.isUnit_identity.act_eq, Rotation.matrix_identity, Mat3.one_apply, add_zero]
  exact Pose.ext (Rotation.identity_compose _) hposition

end Pose

/-! ### The adjoint representation -/

/-- A matrix on spatial vectors is determined by what it does to them. -/
theorem SpatialMat.ext_apply {a b : SpatialMat ℝ} (h : ∀ v, a.apply v = b.apply v) : a = b := by
  have hangular : ∀ v, (⟨a.aa.apply v, a.la.apply v⟩ : Spatial ℝ) = ⟨b.aa.apply v, b.la.apply v⟩ :=
    fun v => by simpa [apply_eq] using h ⟨v, 0⟩
  have hlinear : ∀ v, (⟨a.al.apply v, a.ll.apply v⟩ : Spatial ℝ) = ⟨b.al.apply v, b.ll.apply v⟩ :=
    fun v => by simpa [apply_eq] using h ⟨0, v⟩
  ext1
  · exact Mat3.ext_apply fun v => congrArg Spatial.angular (hangular v)
  · exact Mat3.ext_apply fun v => congrArg Spatial.angular (hlinear v)
  · exact Mat3.ext_apply fun v => congrArg Spatial.linear (hangular v)
  · exact Mat3.ext_apply fun v => congrArg Spatial.linear (hlinear v)

namespace SpatialMat

noncomputable instance : Monoid (SpatialMat ℝ) where
  mul_assoc a b c := ext_apply fun v => by rw [mul_apply, mul_apply, mul_apply, mul_apply]
  one_mul a := ext_apply fun v => by rw [mul_apply, one_apply]
  mul_one a := ext_apply fun v => by rw [mul_apply, one_apply]

theorem mul_neg (a b : SpatialMat ℝ) : a * -b = -(a * b) :=
  ext_apply fun v => by rw [neg_apply, mul_apply, mul_apply, neg_apply, apply_neg]

end SpatialMat

/-- **The bracket is the commutator of the generators.** -/
theorem PoseTangent.hat_cross (u v : Spatial ℝ) :
    hat (u.cross.apply v) = hat u * hat v - hat v * hat u := by
  rw [Spatial.cross_apply]
  ext1
  · exact Mat3.skew_cross _ _
  · show u.linear.cross v.angular + u.angular.cross v.linear =
      u.angular.skew.apply v.linear + u.linear.scale 0 - (v.angular.skew.apply u.linear + v.linear.scale 0)
    rw [Vec3.scale_zero, Vec3.scale_zero, add_zero, add_zero, Mat3.skew_apply, Mat3.skew_apply,
      Vec3.cross_swap u.linear]
    abel
  · show (0 : ℝ) = 0 * 0 - 0 * 0
    norm_num

namespace Pose

variable {a b : Pose ℝ}

theorem IsUnit.inverse_adjoint_mul (h : a.IsUnit) : a.inverse.adjoint * a.adjoint = 1 := by
  rw [← h.inverse.adjoint_compose, h.inverse_compose, adjoint_identity]

/-- **The adjoint is conjugation of the generators.** -/
theorem IsUnit.hat_adjoint_apply (h : a.IsUnit) (v : Spatial ℝ) :
    PoseTangent.hat (a.adjoint.apply v) = a.matrix * PoseTangent.hat v * a.inverse.matrix := by
  rw [h.matrix_mul_hat, mul_assoc, h.matrix_mul_inverse, mul_one]

/-- The matrix of the bracket with a vector carried over is the conjugated one. -/
theorem IsUnit.cross_adjoint_apply (h : a.IsUnit) (v : Spatial ℝ) :
    (a.adjoint.apply v).cross = a.adjoint * v.cross * a.inverse.adjoint := by
  refine SpatialMat.ext_apply fun w => ?_
  rw [SpatialMat.mul_apply, SpatialMat.mul_apply, h.adjoint_cross_apply, h.adjoint_inverse_apply]

/-- A carried wrench does the work that the wrench does on the twist carried back. -/
theorem carryWrench_dot (pose : Pose ℝ) (wrench twist : Spatial ℝ) :
    (pose.carryWrench wrench).dot twist = wrench.dot (pose.inverse.adjoint.apply twist) :=
  SpatialMat.transpose_apply_dot _ _ _

/-- A wrench and a twist that are carried over transmit the same power. -/
theorem IsUnit.carryWrench_dot_adjoint_apply (h : a.IsUnit) (wrench twist : Spatial ℝ) :
    (a.carryWrench wrench).dot (a.adjoint.apply twist) = wrench.dot twist := by
  rw [carryWrench_dot, h.inverse_adjoint_apply]

/-- **A conjugated motion along a screw is the motion along the screw carried over.** -/
theorem IsUnit.matrix_conjugate_exp (h : a.IsUnit) {v : Spatial ℝ}
    (hv : RotationVector.IsExact v.angular) :
    ((a.compose (PoseTangent.exp v)).compose a.inverse).matrix =
      (PoseTangent.exp (a.adjoint.apply v)).matrix := by
  have hexp : ∀ u : Spatial ℝ, PoseTangent.exp u = Screw.exp u 1 := fun u => by
    rw [Screw.exp, Spatial.scale_one]
  have hv' : RotationVector.IsExact (v.angular.scale 1) := by rwa [Vec3.scale_one]
  rw [(h.compose (isUnit_exp v)).matrix_compose, h.matrix_compose, hexp, hexp, Screw.matrix_exp hv',
    Screw.matrix_exp (Screw.isExact_adjoint h hv'), h.matrix_mul_flow, mul_assoc, h.matrix_mul_inverse,
    mul_one]

/-- **Rigid motions are one group, and their adjoints represent it.** The operations keep the
quaternion of length one and the matrix a rotation. Composition is the product of the
homogeneous matrices, which also move the points, and has a two-sided inverse. The adjoint of a
composition is the product of the adjoints; it is conjugation of the generators, takes brackets
to brackets, and leaves the power of a wrench on a twist as it is. The bracket is the commutator
of the generators. A conjugated motion along a screw is the motion along the screw carried
over. -/
theorem group_and_adjoint {a b c : Pose ℝ} (ha : a.IsUnit) (hb : b.IsUnit) (hc : c.IsUnit)
    (ξ η twist wrench : Spatial ℝ) :
    ((a.compose b).IsRigid ∧ a.inverse.IsRigid ∧ (a.between b).IsRigid ∧
      (PoseTangent.exp ξ).IsRigid ∧ (a.rightPlus ξ).IsRigid) ∧
    ((a.compose b).matrix = a.matrix * b.matrix ∧
      (a.compose b).compose c = a.compose (b.compose c) ∧
      c.compose identity = c ∧ identity.compose c = c ∧
      a.compose a.inverse = identity ∧ a.inverse.compose a = identity ∧
      a.matrix * a.inverse.matrix = 1 ∧ a.inverse.matrix * a.matrix = 1 ∧
      ∀ point, a.movePoint point = a.matrix.block.apply point + a.matrix.column) ∧
    ((a.compose b).adjoint = a.adjoint * b.adjoint ∧ a.inverse.adjoint * a.adjoint = 1 ∧
      PoseTangent.hat (a.adjoint.apply ξ) = a.matrix * PoseTangent.hat ξ * a.inverse.matrix ∧
      PoseTangent.hat (ξ.cross.apply η) =
        PoseTangent.hat ξ * PoseTangent.hat η - PoseTangent.hat η * PoseTangent.hat ξ ∧
      (a.adjoint.apply ξ).cross = a.adjoint * ξ.cross * a.inverse.adjoint ∧
      (a.carryWrench wrench).dot (a.adjoint.apply twist) = wrench.dot twist) ∧
    (RotationVector.IsExact ξ.angular →
      ((a.compose (PoseTangent.exp ξ)).compose a.inverse).matrix =
        (PoseTangent.exp (a.adjoint.apply ξ)).matrix) :=
  ⟨⟨(ha.compose hb).isRigid, ha.inverse.isRigid, (ha.between hb).isRigid, (isUnit_exp ξ).isRigid,
      (ha.rightPlus ξ).isRigid⟩,
    ⟨ha.matrix_compose b, ha.compose_assoc hb c, hc.compose_identity, identity_compose c,
      ha.compose_inverse, ha.inverse_compose, ha.matrix_mul_inverse, ha.inverse_mul_matrix,
      ha.movePoint_eq⟩,
    ⟨ha.adjoint_compose b, ha.inverse_adjoint_mul, ha.hat_adjoint_apply ξ, PoseTangent.hat_cross ξ η,
      ha.cross_adjoint_apply ξ, ha.carryWrench_dot_adjoint_apply wrench twist⟩,
    ha.matrix_conjugate_exp⟩

/-- A pose that is turned about the first axis and displaced. -/
noncomputable def tilted : Pose ℝ := ⟨⟨0.6, 0.8, 0, 0⟩, ⟨1, 0, 0.5⟩⟩

theorem isUnit_tilted : tilted.IsUnit := by
  show (0.6 : ℝ) ^ 2 + 0.8 ^ 2 + 0 ^ 2 + 0 ^ 2 = 1
  norm_num

/-- A screw about the third axis, by one radian and half a unit along. -/
noncomputable def winding : Spatial ℝ := ⟨⟨0, 0, 1⟩, ⟨0, 0, 0.5⟩⟩

theorem norm_angular_winding : winding.angular.norm = 1 := by
  have hnormSq : (⟨0, 0, 1⟩ : Vec3 ℝ).normSq = 1 := by
    rw [Vec3.normSq_eq]
    norm_num
  show Real.sqrt (⟨0, 0, 1⟩ : Vec3 ℝ).normSq = 1
  rw [hnormSq, Real.sqrt_one]

/-- The winding seen from a tilted frame, there and on its way back. -/
theorem group_and_adjoint_tilted : tilted.IsUnit ∧ tilted.inverse.IsUnit ∧
    RotationVector.IsExact winding.angular ∧
    ((tilted.compose tilted.inverse).compose tilted).IsRigid ∧
    (tilted.carryWrench winding).dot (tilted.adjoint.apply winding) = 1.25 ∧
    ((tilted.compose (PoseTangent.exp winding)).compose tilted.inverse).matrix =
      (PoseTangent.exp (tilted.adjoint.apply winding)).matrix := by
  have hexact : RotationVector.IsExact winding.angular := by
    rw [RotationVector.IsExact, norm_angular_winding]
    exact Or.inr (by norm_num [RotationVector.smallAngle])
  obtain ⟨⟨hrigid, -⟩, -, ⟨-, -, -, -, -, hpower⟩, hconjugate⟩ :=
    group_and_adjoint isUnit_tilted isUnit_tilted.inverse isUnit_tilted winding winding winding winding
  have hself : winding.dot winding = 1.25 := by
    simp only [Spatial.dot_eq, winding, Vec3.dot]
    norm_num
  exact ⟨isUnit_tilted, isUnit_tilted.inverse, hexact, (hrigid.1.compose isUnit_tilted).isRigid,
    hpower.trans hself, hconjugate hexact⟩

end Pose
end Kinodynamics
