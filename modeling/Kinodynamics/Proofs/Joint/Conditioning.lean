/-
# How much the equations of a joint stretch

With exact values for the acceleration of the parent, the acceleration of the joint and the
child wrench, the linear equations of a joint have one row for each of its unknowns. A shear
takes the unknowns to what the equations measure, and another one takes them back. Both make
no vector much longer than the displacement between the links and the axis of the joint allow
(`Pose.IsUnit.isBoundedBy_adjoint`), so the equations stretch every choice of the unknowns by a
factor between two bounds (`Joint.squaredLength_le`, `Joint.le_squaredLength`).

Key definitions: `SpatialMat.IsBoundedBy`, `Joint.givenLength`, `Joint.followingLength`,
`Joint.misfit`.
Key theorems: `SpatialMat.IsBoundedBy.transpose`, `Pose.IsUnit.isBoundedBy_adjoint`,
`Joint.squaredLength_le`, `Joint.le_squaredLength`.
-/
import Kinodynamics.Proofs.Elimination.Conditioning
import Kinodynamics.Proofs.Joint.Equations

namespace Kinodynamics

open Finset

/-! ### Lengths -/

namespace Vec3

variable (u v : Vec3 ℝ)

theorem normSq_add_le : (u + v).normSq ≤ 2 * u.normSq + 2 * v.normSq := by
  simp only [normSq_eq, add_def]
  linarith [sq_nonneg (u.x - v.x), sq_nonneg (u.y - v.y), sq_nonneg (u.z - v.z)]

/-- A vector product is no longer than the product of the lengths. -/
theorem normSq_cross_le : (u.cross v).normSq ≤ u.normSq * v.normSq := by
  have hlagrange : (u.cross v).normSq = u.normSq * v.normSq - u.dot v ^ 2 := by
    simp only [normSq_eq, cross, dot]
    ring
  rw [hlagrange]
  exact sub_le_self _ (sq_nonneg _)

end Vec3

namespace Spatial

variable (u v w : Spatial ℝ)

theorem dot_eq_sum : u.dot v = ∑ i ∈ range 6, u.entry i * v.entry i := by
  simp only [dot_eq, Vec3.dot, sum_range_succ, sum_range_zero, entry, toList]
  simp
  ring

theorem dot_self_eq : u.dot u = u.angular.normSq + u.linear.normSq := dot_eq u u

theorem dot_self_nonneg : 0 ≤ u.dot u := by
  rw [dot_eq_sum]
  exact sum_nonneg fun _ _ => mul_self_nonneg _

theorem normSq_toList : Scalar.normSq u.toList = u.dot u := by
  rw [Scalar.normSq_eq_sum, dot_eq_sum]
  exact sum_congr rfl fun _ _ => sq _

theorem dot_ofEntries_self (x : ℕ → ℝ) : (ofEntries x).dot (ofEntries x) = ∑ i ∈ range 6, x i ^ 2 := by
  rw [dot_eq_sum]
  exact sum_congr rfl fun i hi => by rw [entry_ofEntries _ (mem_range.mp hi), sq]

theorem norm_sq : u.norm ^ 2 = u.dot u := Real.sq_sqrt u.dot_self_nonneg

theorem dot_neg_self : (-u).dot (-u) = u.dot u := by
  rw [neg_dot, dot_comm, neg_dot, neg_neg]

theorem dot_scale_self (s : ℝ) : (u.scale s).dot (u.scale s) = u.dot u * s ^ 2 := by
  rw [scale_dot, dot_comm, scale_dot]
  ring

/-- The inequality of Cauchy and Schwarz. -/
theorem dot_sq_le : u.dot v ^ 2 ≤ u.dot u * v.dot v := by
  simp only [dot_eq_sum]
  refine (sum_mul_sq_le_sq_mul_sq _ _ _).trans_eq ?_
  simp only [sq]

theorem dot_add_self_le : (u + v).dot (u + v) ≤ 2 * u.dot u + 2 * v.dot v := by
  simp only [dot_self_eq, add_def]
  linarith [Vec3.normSq_add_le u.angular v.angular, Vec3.normSq_add_le u.linear v.linear]

theorem dot_add_add_self_le : (u + v + w).dot (u + v + w) ≤ 3 * u.dot u + 3 * v.dot v + 3 * w.dot w := by
  simp only [dot_eq_sum, mul_sum, ← sum_add_distrib]
  refine sum_le_sum fun i hi => ?_
  have hi := mem_range.mp hi
  rw [entry_add _ _ hi, entry_add _ _ hi]
  nlinarith [sq_nonneg (u.entry i - v.entry i), sq_nonneg (u.entry i - w.entry i),
    sq_nonneg (v.entry i - w.entry i)]

end Spatial

/-! ### Bounded matrices -/

/-- The matrix makes the squared length of a vector at most `m` times as large. -/
def SpatialMat.IsBoundedBy (a : SpatialMat ℝ) (m : ℝ) : Prop :=
  ∀ v : Spatial ℝ, (a.apply v).dot (a.apply v) ≤ m * v.dot v

namespace SpatialMat

variable {a : SpatialMat ℝ} {m : ℝ}

/-- A matrix and its transpose have the same bounds. -/
theorem IsBoundedBy.transpose (h : a.IsBoundedBy m) (hm : 0 ≤ m) : a.transpose.IsBoundedBy m := by
  intro u
  set w := a.transpose.apply u
  have hdual : w.dot w = u.dot (a.apply w) := a.transpose_apply_dot u w
  have hw := w.dot_self_nonneg
  have hu := u.dot_self_nonneg
  have hsq : w.dot w * w.dot w ≤ m * u.dot u * w.dot w :=
    calc w.dot w * w.dot w = u.dot (a.apply w) ^ 2 := by rw [← hdual, sq]
      _ ≤ u.dot u * (a.apply w).dot (a.apply w) := u.dot_sq_le _
      _ ≤ u.dot u * (m * w.dot w) := mul_le_mul_of_nonneg_left (h w) hu
      _ = m * u.dot u * w.dot w := by ring
  rcases hw.eq_or_lt with h0 | hpos
  · rw [← h0]
    exact mul_nonneg hm hu
  · exact le_of_mul_le_mul_right hsq hpos

end SpatialMat

/-- **The adjoint of a rigid motion is bounded** by its displacement. -/
theorem Pose.IsUnit.isBoundedBy_adjoint {p : Pose ℝ} (h : p.IsUnit) {r : ℝ} (hr : p.position.norm ≤ r) :
    p.adjoint.IsBoundedBy (2 * (r ^ 2 + 1)) := by
  intro v
  have hrotation : ∀ w : Vec3 ℝ, (p.rotation.matrix.apply w).normSq = w.normSq := fun w => by
    rw [← Vec3.norm_sq, ← Vec3.norm_sq, Rotation.IsUnit.norm_apply h]
  have hdisplacement : p.position.normSq ≤ r ^ 2 := by
    rw [← Vec3.norm_sq]
    exact pow_le_pow_left₀ (Vec3.norm_nonneg _) hr 2
  set turn := p.rotation.matrix.apply v.angular
  set move := p.rotation.matrix.apply v.linear
  have hcross : (p.position.cross turn).normSq ≤ r ^ 2 * v.angular.normSq :=
    calc (p.position.cross turn).normSq ≤ p.position.normSq * turn.normSq := Vec3.normSq_cross_le _ _
      _ = p.position.normSq * v.angular.normSq := by rw [hrotation]
      _ ≤ r ^ 2 * v.angular.normSq :=
          mul_le_mul_of_nonneg_right hdisplacement v.angular.normSq_nonneg
  have hsum := Vec3.normSq_add_le (p.position.cross turn) move
  have hlinear : 0 ≤ r ^ 2 * v.linear.normSq := mul_nonneg (sq_nonneg r) v.linear.normSq_nonneg
  have hangular : 0 ≤ v.angular.normSq := v.angular.normSq_nonneg
  rw [Pose.adjoint_apply, Spatial.dot_self_eq, Spatial.dot_self_eq, hrotation]
  rw [hrotation] at hsum
  linarith

/-! ### The unknowns of a joint -/

namespace Joint

open Elimination

section Lengths

variable (j : Joint ℝ) (t : ℕ) (transform : Pose ℝ) (x : Valuation Key)

/-- The squared length of the acceleration of the parent, that of the joint and the child wrench. -/
noncomputable def givenLength : ℝ :=
  (Spatial.ofEntries (x (j.twistAccelKey .parent t))).dot (.ofEntries (x (j.twistAccelKey .parent t))) +
    x (j.accelerationKey t) 0 ^ 2 +
    (Spatial.ofEntries (x (j.wrenchKey .child t))).dot (.ofEntries (x (j.wrenchKey .child t)))

/-- The squared length of the unknowns that follow from these. -/
noncomputable def followingLength : ℝ :=
  (Spatial.ofEntries (x (j.twistAccelKey .child t))).dot (.ofEntries (x (j.twistAccelKey .child t))) +
    x (j.torqueKey t) 0 ^ 2 +
    (Spatial.ofEntries (x (j.wrenchKey .parent t))).dot (.ofEntries (x (j.wrenchKey .parent t)))

/-- The squared length of what the equations of the joint measure, right-hand sides aside. -/
noncomputable def misfit : ℝ :=
  (j.accelMisfit t transform 0 x).dot (j.accelMisfit t transform 0 x) + j.torqueMisfit t x ^ 2 +
    (j.wrenchMisfit t transform x).dot (j.wrenchMisfit t transform x)

theorem squaredLength_unknownKeys :
    squaredLength Key.dim (j.unknownKeys t) x = j.givenLength t x + j.followingLength t x := by
  have hspatial : ∀ key : Key, key.dim = 6 → ∑ i ∈ range key.dim, x key i ^ 2 =
      (Spatial.ofEntries (x key)).dot (.ofEntries (x key)) := fun key hkey => by
    rw [hkey, Spatial.dot_ofEntries_self]
  have hscalar : ∀ key : Key, key.dim = 1 → ∑ i ∈ range key.dim, x key i ^ 2 = x key 0 ^ 2 :=
    fun key hkey => by rw [hkey, sum_range_one]
  have hnil : squaredLength Key.dim [] x = 0 := rfl
  rw [unknownKeys, squaredLength_cons, squaredLength_cons, squaredLength_cons, squaredLength_cons,
    squaredLength_cons, squaredLength_cons, hnil, hspatial _ rfl, hspatial _ rfl, hscalar _ rfl,
    hspatial _ rfl, hspatial _ rfl, hscalar _ rfl, givenLength, followingLength]
  ring

theorem givenLength_nonneg : 0 ≤ j.givenLength t x :=
  add_nonneg (add_nonneg (Spatial.dot_self_nonneg _) (sq_nonneg _)) (Spatial.dot_self_nonneg _)

theorem followingLength_nonneg : 0 ≤ j.followingLength t x :=
  add_nonneg (add_nonneg (Spatial.dot_self_nonneg _) (sq_nonneg _)) (Spatial.dot_self_nonneg _)

theorem misfit_nonneg : 0 ≤ j.misfit t transform x :=
  add_nonneg (add_nonneg (Spatial.dot_self_nonneg _) (sq_nonneg _)) (Spatial.dot_self_nonneg _)

end Lengths

variable {j : Joint ℝ} {t : ℕ} {transform : Pose ℝ} {m n : ℝ}

section Shears

variable (htransform : transform.adjoint.IsBoundedBy m) (hm : 0 ≤ m)
  (haxis : (j.screwAxis .child).dot (j.screwAxis .child) ≤ n) (hn : 0 ≤ n)

include htransform hm haxis hn

/-- A shear by the equations of a joint, in either direction, makes nothing much longer. -/
theorem shear_le (accel givenAccel wrench givenWrench : Spatial ℝ) (torque rate : ℝ) :
    (accel + transform.adjoint.apply givenAccel + (j.screwAxis .child).scale rate).dot
        (accel + transform.adjoint.apply givenAccel + (j.screwAxis .child).scale rate) +
      ((j.screwAxis .child).dot givenWrench - torque) ^ 2 +
      (wrench + transform.adjoint.transpose.apply givenWrench).dot
        (wrench + transform.adjoint.transpose.apply givenWrench) ≤
      3 * (accel.dot accel + torque ^ 2 + wrench.dot wrench) +
        3 * (m + n) * (givenAccel.dot givenAccel + rate ^ 2 + givenWrench.dot givenWrench) := by
  set axis := j.screwAxis .child
  have haccel := Spatial.dot_add_add_self_le accel (transform.adjoint.apply givenAccel) (axis.scale rate)
  have hcarried := htransform givenAccel
  have hrate : (axis.scale rate).dot (axis.scale rate) ≤ n * rate ^ 2 := by
    rw [Spatial.dot_scale_self]
    exact mul_le_mul_of_nonneg_right haxis (sq_nonneg rate)
  have htorque : (axis.dot givenWrench - torque) ^ 2 ≤ 2 * axis.dot givenWrench ^ 2 + 2 * torque ^ 2 := by
    linarith [sq_nonneg (axis.dot givenWrench + torque)]
  have hprojected : axis.dot givenWrench ^ 2 ≤ n * givenWrench.dot givenWrench :=
    (axis.dot_sq_le givenWrench).trans (mul_le_mul_of_nonneg_right haxis givenWrench.dot_self_nonneg)
  have hwrench := Spatial.dot_add_self_le wrench (transform.adjoint.transpose.apply givenWrench)
  have hcarriedBack := htransform.transpose hm givenWrench
  have hslack : 0 ≤ torque ^ 2 + wrench.dot wrench + 3 * n * givenAccel.dot givenAccel +
      3 * m * rate ^ 2 + (m + n) * givenWrench.dot givenWrench := by
    have hwrench := wrench.dot_self_nonneg
    have hgivenAccel := givenAccel.dot_self_nonneg
    have hgivenWrench := givenWrench.dot_self_nonneg
    positivity
  linarith

/-- **What the equations measure is bounded** by the unknowns. -/
theorem misfit_le (x : Valuation Key) : j.misfit t transform x ≤
    3 * j.followingLength t x + 3 * (m + n) * j.givenLength t x := by
  have hshear := shear_le htransform hm haxis hn (.ofEntries (x (j.twistAccelKey .child t)))
    (-.ofEntries (x (j.twistAccelKey .parent t))) (.ofEntries (x (j.wrenchKey .parent t)))
    (.ofEntries (x (j.wrenchKey .child t))) (x (j.torqueKey t) 0) (-x (j.accelerationKey t) 0)
  rw [SpatialMat.apply_neg, Spatial.dot_neg_self, Spatial.scale_neg, neg_sq] at hshear
  rw [misfit, accelMisfit, torqueMisfit, wrenchMisfit, neg_zero, add_zero]
  exact hshear

/-- **The unknowns that follow are bounded** by what the equations measure and by the given ones. -/
theorem followingLength_le (x : Valuation Key) : j.followingLength t x ≤
    3 * j.misfit t transform x + 3 * (m + n) * j.givenLength t x := by
  have hshear := shear_le htransform hm haxis hn (j.accelMisfit t transform 0 x)
    (.ofEntries (x (j.twistAccelKey .parent t))) (j.wrenchMisfit t transform x)
    (-.ofEntries (x (j.wrenchKey .child t))) (-j.torqueMisfit t x) (x (j.accelerationKey t) 0)
  have haccel : j.accelMisfit t transform 0 x +
      transform.adjoint.apply (.ofEntries (x (j.twistAccelKey .parent t))) +
        (j.screwAxis .child).scale (x (j.accelerationKey t) 0) =
      .ofEntries (x (j.twistAccelKey .child t)) := by
    rw [accelMisfit]
    abel
  have htorque : ((j.screwAxis .child).dot (-.ofEntries (x (j.wrenchKey .child t))) -
      -j.torqueMisfit t x) ^ 2 = x (j.torqueKey t) 0 ^ 2 := by
    rw [torqueMisfit, Spatial.dot_comm, Spatial.neg_dot, Spatial.dot_comm]
    ring
  have hwrench : j.wrenchMisfit t transform x +
      transform.adjoint.transpose.apply (-.ofEntries (x (j.wrenchKey .child t))) =
      .ofEntries (x (j.wrenchKey .parent t)) := by
    rw [SpatialMat.apply_neg, wrenchMisfit]
    abel
  rw [haccel, htorque, hwrench, Spatial.dot_neg_self, neg_sq] at hshear
  exact hshear

/-- **All unknowns are bounded** by the given ones and what the equations measure. -/
theorem squaredLength_le (x : Valuation Key) : squaredLength Key.dim (j.unknownKeys t) x ≤
    3 * (m + n + 1) * (j.misfit t transform x + j.givenLength t x) := by
  have hfollowing := followingLength_le (t := t) htransform hm haxis hn x
  have hslack : 0 ≤ 3 * (m + n) * j.misfit t transform x + 2 * j.givenLength t x :=
    add_nonneg (mul_nonneg (by positivity) (j.misfit_nonneg t transform x))
      (mul_nonneg zero_le_two (j.givenLength_nonneg t x))
  rw [squaredLength_unknownKeys]
  linarith

/-- **The given unknowns and what the equations measure are bounded** by all unknowns. -/
theorem le_squaredLength (x : Valuation Key) : j.misfit t transform x + j.givenLength t x ≤
    3 * (m + n + 1) * squaredLength Key.dim (j.unknownKeys t) x := by
  have hmisfit := misfit_le (t := t) htransform hm haxis hn x
  have hslack : 0 ≤ 3 * (m + n) * j.followingLength t x + 2 * j.givenLength t x :=
    add_nonneg (mul_nonneg (by positivity) (j.followingLength_nonneg t x))
      (mul_nonneg zero_le_two (j.givenLength_nonneg t x))
  rw [squaredLength_unknownKeys]
  linarith

end Shears

end Joint

end Kinodynamics
