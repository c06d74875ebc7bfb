/-
# Derivatives in the coordinate of a joint

How the residuals of a joint depend on its coordinate is written with one formula: the adjoint of
the other link changes by the bracket with the negative axis of the link it is seen from. That is
the derivative, on either side and for every kind of joint, where closed forms are computed
(`Joint.rates_in_coordinate`).

Motions along one axis are a one-parameter group, so they move at the rate of their generator
(`Screw.hasRate_flow`). On either side the pose of the other link is such a motion after the pose
at zero; and the adjoint of a pose that moves at a generator changes by the bracket
(`Pose.hasRate_adjoint`). The residuals of twists, accelerations and wrenches are affine in the
adjoint, and its rate applied to their arguments stands in the column of the coordinate.

Key definitions: `Factor.HasPartial`, `Joint.IsExactNear`.
Key theorems: `Screw.hasRate_flow`, `Pose.hasRate_adjoint`, `Joint.IsAssembled.hasRate_adjoint`,
`Joint.rates_in_coordinate`.
-/
import Kinodynamics.Proofs.Algebra.Coordinates
import Kinodynamics.Proofs.Algebra.Rates
import Kinodynamics.Proofs.Dense.Energy
import Kinodynamics.Proofs.Joint.OneParameter
import Kinodynamics.Proofs.Motion.Group

namespace Kinodynamics

open Filter Topology

variable {s q : ℝ}

/-! ### Moving frames -/

namespace Homogeneous.HasRate

variable {f g : ℝ → Homogeneous ℝ} {a b : Homogeneous ℝ}

theorem const (a : Homogeneous ℝ) : HasRate (fun _ => a) 0 s :=
  ⟨.const a.block, .const a.column, hasDerivAt_const s a.corner⟩

theorem add (ha : HasRate f a s) (hb : HasRate g b s) : HasRate (fun t => f t + g t) (a + b) s :=
  ⟨ha.block.add hb.block, ha.column.add hb.column, ha.corner.add hb.corner⟩

theorem smul_const {c : ℝ → ℝ} {c' : ℝ} (hc : HasDerivAt c c' s) (a : Homogeneous ℝ) :
    HasRate (fun t => c t • a) (c' • a) s := by
  have hblock := (Mat3.HasRate.const a.block).scale hc
  have hcolumn := (Vec3.HasRate.const a.column).scale hc
  rw [Mat3.zero_scale, zero_add] at hblock
  rw [Vec3.zero_scale, zero_add] at hcolumn
  exact ⟨hblock, hcolumn, hc.const_mul a.corner⟩

theorem mul_const (ha : HasRate f a s) (b : Homogeneous ℝ) : HasRate (fun t => f t * b) (a * b) s := by
  have hblock := ha.block.mul (Mat3.HasRate.const b.block)
  have hscaled := ha.column.scale (hasDerivAt_const s b.corner)
  rw [mul_zero, add_zero] at hblock
  rw [Vec3.scale_zero, add_zero] at hscaled
  exact ⟨hblock, (ha.block.apply_const b.column).add hscaled, ha.corner.mul_const b.corner⟩

/-- Curves that agree near a point have the same rate there. -/
theorem congr (ha : HasRate f a s) (h : g =ᶠ[𝓝 s] f) : HasRate g a s :=
  ⟨ha.block.congr (h.fun_comp (·.block)), ha.column.congr (h.fun_comp (·.column)),
    ha.corner.congr_of_eventuallyEq (h.fun_comp (·.corner))⟩

end Homogeneous.HasRate

namespace Screw

theorem hasDerivAt_bend_zero (speed : ℝ) : HasDerivAt (bend speed) 0 0 := by
  have hcos := ((hasDerivAt_id (0 : ℝ)).const_mul speed).cos
  refine ((hcos.const_sub 1).div_const (speed ^ 2)).congr_deriv ?_
  simp

theorem hasDerivAt_lag_zero (speed : ℝ) : HasDerivAt (lag speed) 0 0 := by
  have hlinear := (hasDerivAt_id (0 : ℝ)).const_mul speed
  refine ((hlinear.sub hlinear.sin).div_const (speed ^ 3)).congr_deriv ?_
  simp

/-- **Motions along an axis move at the rate of its generator.** -/
theorem hasRate_flow (axis : Spatial ℝ) (q : ℝ) :
    Homogeneous.HasRate (flow axis) (PoseTangent.hat axis * flow axis q) q := by
  set generator := PoseTangent.hat axis with hgenerator
  have hstart : Homogeneous.HasRate (fun t => flow axis (t - q)) generator q := by
    have hlinear : HasDerivAt (fun t => t - q) 1 q := (hasDerivAt_id q).sub_const q
    have hbend : HasDerivAt (fun t => bend axis.angular.norm (t - q)) 0 q :=
      HasDerivAt.comp_sub_const q q (by rw [sub_self]; exact hasDerivAt_bend_zero _)
    have hlag : HasDerivAt (fun t => lag axis.angular.norm (t - q)) 0 q :=
      HasDerivAt.comp_sub_const q q (by rw [sub_self]; exact hasDerivAt_lag_zero _)
    have hsum := (((Homogeneous.HasRate.const 1).add (.smul_const hlinear generator)).add
      (.smul_const hbend (generator ^ 2))).add (.smul_const hlag (generator ^ 3))
    rwa [zero_add, one_smul, zero_smul, zero_smul, add_zero, add_zero] at hsum
  refine (hstart.mul_const (flow axis q)).congr (Eventually.of_forall fun t => ?_)
  show flow axis t = flow axis (t - q) * flow axis q
  rw [← flow_add, sub_add_cancel]

end Screw

/-- **The adjoint of a moving frame changes by the bracket** with the vector it moves along. -/
theorem Pose.hasRate_adjoint {f : ℝ → Pose ℝ} {ξ : Spatial ℝ}
    (h : Homogeneous.HasRate (fun t => (f t).matrix) (PoseTangent.hat ξ * (f s).matrix) s) :
    SpatialMat.HasRate (fun t => (f t).adjoint) (ξ.cross * (f s).adjoint) s := by
  have hturn : Mat3.HasRate (fun t => (f t).rotation.matrix)
      (ξ.angular.skew * (f s).rotation.matrix) s := h.block
  have hmove : Vec3.HasRate (fun t => (f t).position)
      (ξ.angular.skew.apply (f s).position + ξ.linear.scale 1) s := h.column
  rw [Vec3.scale_one, Mat3.skew_apply] at hmove
  have hcoupling : (ξ.angular.cross (f s).position + ξ.linear).skew * (f s).rotation.matrix +
      (f s).position.skew * (ξ.angular.skew * (f s).rotation.matrix) =
      ξ.linear.skew * (f s).rotation.matrix +
        ξ.angular.skew * ((f s).position.skew * (f s).rotation.matrix) := by
    rw [Mat3.skew_add, Mat3.skew_cross, add_mul, sub_mul, mul_assoc, mul_assoc]
    abel
  have hbracket : ξ.cross * (f s).adjoint = .lower (ξ.angular.skew * (f s).rotation.matrix)
      (ξ.linear.skew * (f s).rotation.matrix +
        ξ.angular.skew * ((f s).position.skew * (f s).rotation.matrix)) :=
    SpatialMat.lower_mul_lower _ _ _ _
  rw [hbracket, ← hcoupling]
  exact .lower hturn (hmove.skew.mul hturn)

/-! ### The coordinate of a joint -/

namespace Joint

variable {j : Joint ℝ}

/-- Closed forms are computed at the coordinate and near it. -/
def IsExactNear (j : Joint ℝ) (q : ℝ) : Prop :=
  j.childAxis.angular = 0 ∨ RotationVector.smallAngle < (j.childAxis.angular.scale q).norm

theorem IsExactNear.eventually (h : j.IsExactNear q) : ∀ᶠ s in 𝓝 q, j.IsExactAt s := by
  rcases h with hzero | hlarge
  · refine Eventually.of_forall fun s => Or.inl ?_
    rw [hzero, Vec3.zero_scale, Vec3.norm_eq_zero_iff]
  · have hcontinuous : Continuous fun s => (j.childAxis.angular.scale s).norm := by
      simp only [Vec3.norm_scale]
      exact continuous_const.mul continuous_abs
    exact (hcontinuous.continuousAt.eventually_const_lt hlarge).mono fun s hs => Or.inr hs.le

namespace IsAssembled

/-- The pose of the other link is a polynomial in the generator of the axis. -/
theorem matrix_poseOfOther_flow (hj : j.IsAssembled) (side : Side) (hq : j.IsExactAt q) :
    (j.poseOfOther side q).matrix =
      Screw.flow (-j.screwAxis side) q * (j.poseOfOther side 0).matrix := by
  have hexact : RotationVector.IsExact ((-j.screwAxis side).angular.scale q) := by
    cases side with
    | parent =>
      have haxis : -j.screwAxis .parent = j.restPose.adjoint.apply j.childAxis := hj.adjoint_restPose.symm
      rw [haxis]
      exact Screw.isExact_adjoint hj.isUnit_restPose hq
    | child => exact Screw.isExact_neg hq
  have hunit : (Screw.exp (-j.screwAxis side) q).IsUnit := RotationVector.isUnit_exp _
  rw [hj.matrix_poseOfOther_eq side hq, hunit.matrix_compose, Screw.matrix_exp hexact]

theorem hasRate_poseOfOther (hj : j.IsAssembled) (side : Side) (hq : j.IsExactNear q) :
    Homogeneous.HasRate (fun s => (j.poseOfOther side s).matrix)
      (PoseTangent.hat (-j.screwAxis side) * (j.poseOfOther side q).matrix) q := by
  rw [hj.matrix_poseOfOther_flow side hq.eventually.self_of_nhds, ← mul_assoc]
  exact ((Screw.hasRate_flow _ q).mul_const _).congr
    (hq.eventually.mono fun s hs => hj.matrix_poseOfOther_flow side hs)

/-- **The derivative of the adjoint in the coordinate.** -/
theorem hasRate_adjoint (hj : j.IsAssembled) (side : Side) (hq : j.IsExactNear q) :
    SpatialMat.HasRate (fun s => (j.poseOfOther side s).adjoint) (j.adjointRate side q) q := by
  have hbracket : (-j.screwAxis side).cross = -(j.screwAxis side).cross :=
    SpatialMat.ext_apply fun v => by rw [Spatial.neg_cross_apply, SpatialMat.neg_apply]
  rw [adjointRate, Screw.adjointRate, ← hbracket]
  exact Pose.hasRate_adjoint (hj.hasRate_poseOfOther side hq)

end IsAssembled
end Joint

/-! ### The columns of the coordinate -/

/-- Along the parameters, one of which changes, the residual changes as a column of the Jacobian
says. -/
def Factor.HasPartial (f : Factor ℝ) (params : ℝ → List (List ℝ)) (column : ℕ) (x : ℝ) : Prop :=
  ∃ l : ℝ → Linearization ℝ, (∀ s, f.linearize? (params s) = some (l s)) ∧
    (∀ s, (l s).residual.length = f.dim) ∧ (l x).jacobian.nrows = f.dim ∧
    column < (l x).jacobian.ncols ∧
    ∀ i < f.dim, HasDerivAt (fun s => (l s).residual.getD i 0) ((l x).jacobian.entry i column) x

/-- A vector as the last column of a matrix. -/
theorem Dense.entry_beside_toColumn (a : Dense ℝ) (v : Spatial ℝ) {i : ℕ} (hi : i < a.nrows)
    (hi6 : i < 6) : (a.beside v.toColumn).entry i a.ncols = v.toList.getD i 0 := by
  rw [entry_beside_of_le _ _ hi le_rfl (by rw [Nat.sub_self]; exact one_pos), Nat.sub_self]
  exact entry_ofFn_of_lt _ hi6 one_pos

/-- A residual that is a spatial vector with a rate, which stands in the column. -/
theorem Factor.hasPartial_of_hasRate {f : Factor ℝ} {params : ℝ → List (List ℝ)} {column : ℕ} {x : ℝ}
    {residual : ℝ → Spatial ℝ} {jacobian : ℝ → Dense ℝ} {rate : Spatial ℝ}
    (h : ∀ s, f.linearize? (params s) = some ⟨(residual s).toList, jacobian s⟩) (hdim : f.dim = 6)
    (hrows : (jacobian x).nrows = 6) (hcolumn : column < (jacobian x).ncols)
    (hrate : Spatial.HasRate residual rate x)
    (hentry : ∀ i < 6, (jacobian x).entry i column = rate.toList.getD i 0) :
    f.HasPartial params column x := by
  refine ⟨fun s => ⟨(residual s).toList, jacobian s⟩, h, fun _ => hdim.symm, hrows.trans hdim.symm,
    hcolumn, fun i hi => ?_⟩
  rw [hdim] at hi
  rw [hentry i hi]
  exact hrate.toList hi

namespace Joint

variable {j : Joint ℝ}

theorem IsAssembled.hasPartial_twist (hj : j.IsAssembled) (hq : j.IsExactNear q)
    (parent child : Spatial ℝ) (qDot : ℝ) :
    (Factor.twist j).HasPartial (fun s => [parent.toList, child.toList, [s], [qDot]]) 12 q := by
  have hrate : Spatial.HasRate (fun s => child - j.twistFromOther .child s qDot parent)
      (-(j.adjointRate .child q).apply parent) q :=
    (((hj.hasRate_adjoint .child hq).apply parent).add_const _).const_sub child
  refine Factor.hasPartial_of_hasRate (fun s => rfl) rfl rfl (by decide : 12 < 14) hrate fun i hi => ?_
  rw [Dense.entry_beside_of_lt _ _ hi (by decide : 12 < 13)]
  exact Dense.entry_beside_toColumn _ _ hi hi

theorem IsAssembled.hasPartial_twistAccel (hj : j.IsAssembled) (hq : j.IsExactNear q)
    (childTwist parentAccel childAccel : Spatial ℝ) (qDot qDDot : ℝ) :
    (Factor.twistAccel j).HasPartial (fun s => [childTwist.toList, parentAccel.toList,
      childAccel.toList, [s], [qDot], [qDDot]]) 18 q := by
  have hrate : Spatial.HasRate
      (fun s => childAccel - j.accelFromOther .child s qDot qDDot childTwist parentAccel)
      (-(j.adjointRate .child q).apply parentAccel) q :=
    ((((hj.hasRate_adjoint .child hq).apply parentAccel).add_const _).add_const _).const_sub childAccel
  refine Factor.hasPartial_of_hasRate (fun s => rfl) rfl rfl (by decide : 18 < 21) hrate fun i hi => ?_
  rw [Dense.entry_beside_of_lt _ _ hi (by decide : 18 < 20),
    Dense.entry_beside_of_lt _ _ hi (by decide : 18 < 19)]
  exact Dense.entry_beside_toColumn _ _ hi hi

theorem IsAssembled.hasPartial_wrenchBalance (hj : j.IsAssembled) (hq : j.IsExactNear q)
    (parent child : Spatial ℝ) :
    (Factor.wrenchBalance j).HasPartial (fun s => [parent.toList, child.toList, [s]]) 12 q := by
  have hrate : Spatial.HasRate
      (fun s => parent + (j.poseOfOther .child s).adjoint.transpose.apply child)
      ((j.adjointRate .child q).transpose.apply child) q :=
    ((hj.hasRate_adjoint .child hq).transpose.apply child).const_add parent
  exact Factor.hasPartial_of_hasRate (fun s => rfl) rfl rfl (by decide : 12 < 13) hrate fun i hi =>
    Dense.entry_beside_toColumn _ _ hi hi

/-- **Derivatives in the coordinate are exact**, on either side of a joint of any kind, where the
child turns not at all or enough for closed forms. The adjoint of the other link changes as
`adjointRate` says. And whatever the other parameters are, the columns of the coordinate in the
Jacobians of twists, of accelerations and of wrenches are the derivatives of the residuals. -/
theorem rates_in_coordinate (hj : j.IsAssembled)
    (hq : j.childAxis.angular = 0 ∨ RotationVector.smallAngle < (j.childAxis.angular.scale q).norm) :
    (∀ side, SpatialMat.HasRate (fun s => (j.poseOfOther side s).adjoint) (j.adjointRate side q) q) ∧
    (∀ (parent child : Spatial ℝ) (qDot : ℝ),
      (Factor.twist j).HasPartial (fun s => [parent.toList, child.toList, [s], [qDot]]) 12 q) ∧
    (∀ (childTwist parentAccel childAccel : Spatial ℝ) (qDot qDDot : ℝ),
      (Factor.twistAccel j).HasPartial (fun s => [childTwist.toList, parentAccel.toList,
        childAccel.toList, [s], [qDot], [qDDot]]) 18 q) ∧
    ∀ parent child : Spatial ℝ,
      (Factor.wrenchBalance j).HasPartial (fun s => [parent.toList, child.toList, [s]]) 12 q :=
  ⟨fun side => hj.hasRate_adjoint side hq, hj.hasPartial_twist hq, hj.hasPartial_twistAccel hq,
    hj.hasPartial_wrenchBalance hq⟩

/-- A turned hinge, seen from its parent, with its wrenches. -/
theorem rates_in_coordinate_hinge : hinge.IsAssembled ∧
    RotationVector.smallAngle < (hinge.childAxis.angular.scale 1).norm ∧
    SpatialMat.HasRate (fun s => (hinge.poseOfOther .parent s).adjoint) (hinge.adjointRate .parent 1) 1 ∧
    (Factor.wrenchBalance hinge).HasPartial (fun s =>
      [[0, 1, 1, 1, 0, 0], [0, 0, 1, 1, 0, 0], [s]]) 12 1 := by
  have hnear : RotationVector.smallAngle < (hinge.childAxis.angular.scale 1).norm := by
    rw [Vec3.scale_one, norm_childAxis_hinge]
    norm_num [RotationVector.smallAngle]
  obtain ⟨hadjoint, -, -, hwrench⟩ := rates_in_coordinate isAssembled_hinge (Or.inr hnear)
  exact ⟨isAssembled_hinge, hnear, hadjoint .parent,
    hwrench ⟨⟨0, 1, 1⟩, ⟨1, 0, 0⟩⟩ ⟨⟨0, 0, 1⟩, ⟨1, 0, 0⟩⟩⟩

end Joint
end Kinodynamics
