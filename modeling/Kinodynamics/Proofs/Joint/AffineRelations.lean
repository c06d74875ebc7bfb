/-
# The relations of a joint that are affine

While the coordinate of a joint rests, the adjoints in its relations are constant, and what is
left of twists, wrenches and torques is affine in the other variables; so is what is left of
accelerations unless the twist of the child and the rate of the joint both change, because the
convective term is their product. There linearisation is exact: the equation has the weighted
residual of the relation after a step of any size (`RelationPlan.linearize_exact`).

Each relation is shown to follow its blocks (`Relation.Follows`): the residual at the moved values
is the old one and, for each variable, what its block makes of the step.

Key definitions: `Relation.Makes`, `RelationPlan.Emits`.
Key theorems: `Joint.accelFromOther_add`, `Relation.Follows.of_changes`,
`RelationPlan.Emits.exists_follows`, `RelationPlan.linearize_exact`.
-/
import Kinodynamics.Proofs.ExactSteps
import Kinodynamics.Proofs.Joint.LinearFamilies

namespace Kinodynamics

variable {r : Relation ℝ} {values values' : Values ℝ} {δ : Solution Key ℝ}

/-! ### What blocks make of a step -/

theorem valuation_singleton {key : Key} {d : ℝ} (h : δ.get? key = some [d]) : valuation δ key 0 = d := by
  rw [valuation_of_get? h]
  rfl

/-- The block of the variable makes the change of its step. -/
def Relation.Makes (δ : Solution Key ℝ) (b : Key × Dense ℝ) (change : Spatial ℝ) : Prop :=
  ∀ i < 6, b.2.image (valuation δ b.1) i = change.entry i

namespace Relation

variable {key : Key}

theorem makes_toDense (a : SpatialMat ℝ) {d : Spatial ℝ} (h : δ.get? key = some d.toList) :
    Makes δ (key, a.toDense) (a.apply d) := fun i hi => by
  rw [Dense.image_toDense _ _ hi, Spatial.ofEntries_valuation h]

theorem makes_toColumn (u : Spatial ℝ) {d : ℝ} (h : δ.get? key = some [d]) :
    Makes δ (key, u.toColumn) (u.scale d) := fun i hi => by
  rw [Dense.image_toColumn _ _ hi, valuation_singleton h]

theorem sum_of_makes {blocks : List (Key × Dense ℝ)} {changes : List (Spatial ℝ)}
    (h : List.Forall₂ (Makes δ) blocks changes) {i : ℕ} (hi : i < 6) :
    (blocks.map fun b => b.2.image (valuation δ b.1) i).sum = changes.sum.entry i := by
  induction h with
  | nil => interval_cases i <;> rfl
  | cons hb _ ih =>
    rw [List.map_cons, List.sum_cons, List.sum_cons, Spatial.entry_add _ _ hi, hb i hi, ih]

/-- A residual that is a spatial vector follows the blocks if it moves by their changes. -/
theorem Follows.of_changes {l l' : Linearization ℝ} {blocks : List (Key × Dense ℝ)}
    {changes : List (Spatial ℝ)} {u v : Spatial ℝ} (hkeys : blocks.map Prod.fst = r.keys)
    (hsplits : Splits l.jacobian blocks) (hstart : r.linearization values = .ok l)
    (hmoved : r.linearization values' = .ok l') (hdim : r.noise.dim = 6) (hrows : l.jacobian.nrows = 6)
    (hrows' : l'.jacobian.nrows = 6) (hu : l.residual = u.toList) (hv : l'.residual = v.toList)
    (hblocks : List.Forall₂ (Makes δ) blocks changes) (hchange : v = u + changes.sum) :
    r.Follows values values' δ l l' blocks where
  keys := hkeys
  splits := hsplits
  start := hstart
  moved := hmoved
  nrows := hrows.trans hdim.symm
  nrows_moved := hrows'.trans hdim.symm
  residual i hi := by
    rw [hdim] at hi
    rw [hu, hv, sum_of_makes hblocks hi, hchange]
    exact Spatial.entry_add _ _ hi

end Relation

/-! ### Moved motions -/

namespace Joint

variable (j : Joint ℝ) (q : ℝ)

theorem twistFromOther_add (qDot dqDot : ℝ) (parent dparent : Spatial ℝ) :
    let partials := j.twistFromOtherPartials .child q qDot parent
    j.twistFromOther .child q (qDot + dqDot) (parent + dparent) =
      j.twistFromOther .child q qDot parent +
        (partials.other.apply dparent + partials.qDot.scale dqDot) := by
  simp only [twistFromOther, twistFromOtherPartials, SpatialMat.apply_add, Spatial.scale_add]
  abel

variable {q}

/-- The convective term is bilinear, so it is affine while one of its factors rests. -/
theorem accelFromOther_add {qDot dqDot qDDot dqDDot : ℝ} {twist dtwist parent dparent : Spatial ℝ}
    (hrest : dtwist = 0 ∨ dqDot = 0) :
    let partials := j.accelFromOtherPartials .child q qDot qDDot twist parent
    j.accelFromOther .child q (qDot + dqDot) (qDDot + dqDDot) (twist + dtwist) (parent + dparent) =
      j.accelFromOther .child q qDot qDDot twist parent +
        (partials.thisTwist.apply dtwist + partials.otherAccel.apply dparent +
          partials.qDot.scale dqDot + partials.qDDot.scale dqDDot) := by
  have hmixed : (dtwist.cross.apply (j.screwAxis .child)).scale dqDot = 0 := by
    rcases hrest with rfl | rfl
    · rw [Spatial.cross_apply_swap, SpatialMat.apply_zero, neg_zero, Spatial.zero_scale]
    · exact Spatial.scale_zero _
  have hswap : ((j.screwAxis .child).scale qDot).cross.apply dtwist =
      -(dtwist.cross.apply (j.screwAxis .child)).scale qDot := by
    rw [Spatial.cross_apply_swap, SpatialMat.apply_scale]
  simp only [accelFromOther, accelFromOtherPartials, SpatialMat.apply_add, SpatialMat.apply_scale,
    SpatialMat.neg_apply, Spatial.add_cross_apply, Spatial.add_scale, Spatial.scale_add, neg_neg, hswap,
    hmixed]
  abel

end Joint

/-! ### The relations of a joint -/

namespace RelationPlan

variable {j : Joint ℝ} {t : ℕ} {noise : Noise ℝ}

theorem exists_follows_twist (hnoise : noise.dim = 6)
    (h : values.IsMoved values' δ
      [j.twistKey .parent t, j.twistKey .child t, j.angleKey t, j.velocityKey t])
    (hangle : δ.get? (j.angleKey t) = some [0]) :
    ∃ l l' blocks, Relation.Follows
      ⟨[j.twistKey .parent t, j.twistKey .child t, j.angleKey t, j.velocityKey t], .twist j, noise,
        hnoise⟩ values values' δ l l' blocks := by
  obtain ⟨parent, dparent, hparent, hparent', hδparent⟩ :=
    h.exists_spatial (by simp : j.twistKey .parent t ∈ _) rfl
  obtain ⟨child, dchild, hchild, hchild', hδchild⟩ :=
    h.exists_spatial (by simp : j.twistKey .child t ∈ _) rfl
  obtain ⟨q, dq, hq, hq', hδq⟩ := h.exists_scalar (by simp : j.angleKey t ∈ _) rfl
  obtain ⟨qDot, dqDot, hqDot, hqDot', hδqDot⟩ := h.exists_scalar (by simp : j.velocityKey t ∈ _) rfl
  obtain rfl : dq = 0 := by simpa using hδq.symm.trans hangle
  rw [add_zero] at hq'
  let partials := j.twistFromOtherPartials .child q qDot parent
  have hsplits := (((Relation.Splits.single (j.twistKey .parent t) (-partials.other).toDense rfl).beside
    (j.twistKey .child t) (1 : SpatialMat ℝ).toDense rfl rfl).beside
      (j.angleKey t) (-partials.q).toColumn rfl rfl).beside
        (j.velocityKey t) (-partials.qDot).toColumn rfl rfl
  have hchange : child + dchild - j.twistFromOther .child q (qDot + dqDot) (parent + dparent) =
      child - j.twistFromOther .child q qDot parent +
        [(-partials.other).apply dparent, (1 : SpatialMat ℝ).apply dchild, (-partials.q).scale 0,
          (-partials.qDot).scale dqDot].sum := by
    rw [j.twistFromOther_add]
    simp only [partials, SpatialMat.neg_apply, SpatialMat.one_apply, Spatial.neg_scale,
      Spatial.scale_zero, List.sum_cons, List.sum_nil]
    abel
  exact ⟨Factor.linearizeTwist j parent child q qDot,
    Factor.linearizeTwist j (parent + dparent) (child + dchild) q (qDot + dqDot), _,
    .of_changes rfl hsplits
      (Relation.linearization_eq (.cons hparent (.cons hchild (.cons hq (.cons hqDot .nil)))) rfl)
      (Relation.linearization_eq (.cons hparent' (.cons hchild' (.cons hq' (.cons hqDot' .nil)))) rfl)
      hnoise rfl rfl rfl rfl
      (.cons (Relation.makes_toDense _ hδparent) (.cons (Relation.makes_toDense _ hδchild)
        (.cons (Relation.makes_toColumn _ hδq) (.cons (Relation.makes_toColumn _ hδqDot) .nil))))
      hchange⟩

theorem exists_follows_accel (hnoise : noise.dim = 6)
    (h : values.IsMoved values' δ [j.twistKey .child t, j.twistAccelKey .parent t,
      j.twistAccelKey .child t, j.angleKey t, j.velocityKey t, j.accelerationKey t])
    (hangle : δ.get? (j.angleKey t) = some [0])
    (hrest : δ.get? (j.twistKey .child t) = some (List.replicate 6 0) ∨
      δ.get? (j.velocityKey t) = some [0]) :
    ∃ l l' blocks, Relation.Follows
      ⟨[j.twistKey .child t, j.twistAccelKey .parent t, j.twistAccelKey .child t, j.angleKey t,
        j.velocityKey t, j.accelerationKey t], .twistAccel j, noise, hnoise⟩
      values values' δ l l' blocks := by
  obtain ⟨twist, dtwist, htwist, htwist', hδtwist⟩ :=
    h.exists_spatial (by simp : j.twistKey .child t ∈ _) rfl
  obtain ⟨parent, dparent, hparent, hparent', hδparent⟩ :=
    h.exists_spatial (by simp : j.twistAccelKey .parent t ∈ _) rfl
  obtain ⟨child, dchild, hchild, hchild', hδchild⟩ :=
    h.exists_spatial (by simp : j.twistAccelKey .child t ∈ _) rfl
  obtain ⟨q, dq, hq, hq', hδq⟩ := h.exists_scalar (by simp : j.angleKey t ∈ _) rfl
  obtain ⟨qDot, dqDot, hqDot, hqDot', hδqDot⟩ := h.exists_scalar (by simp : j.velocityKey t ∈ _) rfl
  obtain ⟨qDDot, dqDDot, hqDDot, hqDDot', hδqDDot⟩ :=
    h.exists_scalar (by simp : j.accelerationKey t ∈ _) rfl
  obtain rfl : dq = 0 := by simpa using hδq.symm.trans hangle
  rw [add_zero] at hq'
  have hone : dtwist = 0 ∨ dqDot = 0 := by
    refine hrest.imp (fun hzero => ?_) fun hzero => ?_
    · exact Spatial.toList_eq_zero_iff.mp (Option.some.inj (hδtwist.symm.trans hzero))
    · simpa using hδqDot.symm.trans hzero
  let partials := j.accelFromOtherPartials .child q qDot qDDot twist parent
  have hsplits := (((((Relation.Splits.single (j.twistKey .child t) (-partials.thisTwist).toDense rfl).beside
    (j.twistAccelKey .parent t) (-partials.otherAccel).toDense rfl rfl).beside
      (j.twistAccelKey .child t) (1 : SpatialMat ℝ).toDense rfl rfl).beside
        (j.angleKey t) (-partials.q).toColumn rfl rfl).beside
          (j.velocityKey t) (-partials.qDot).toColumn rfl rfl).beside
            (j.accelerationKey t) (-partials.qDDot).toColumn rfl rfl
  have hchange : child + dchild - j.accelFromOther .child q (qDot + dqDot) (qDDot + dqDDot)
        (twist + dtwist) (parent + dparent) =
      child - j.accelFromOther .child q qDot qDDot twist parent +
        [(-partials.thisTwist).apply dtwist, (-partials.otherAccel).apply dparent,
          (1 : SpatialMat ℝ).apply dchild, (-partials.q).scale 0, (-partials.qDot).scale dqDot,
          (-partials.qDDot).scale dqDDot].sum := by
    rw [j.accelFromOther_add hone]
    simp only [partials, SpatialMat.neg_apply, SpatialMat.one_apply, Spatial.neg_scale,
      Spatial.scale_zero, List.sum_cons, List.sum_nil]
    abel
  exact ⟨Factor.linearizeTwistAccel j twist parent child q qDot qDDot,
    Factor.linearizeTwistAccel j (twist + dtwist) (parent + dparent) (child + dchild) q (qDot + dqDot)
      (qDDot + dqDDot), _,
    .of_changes rfl hsplits
      (Relation.linearization_eq (.cons htwist (.cons hparent (.cons hchild (.cons hq (.cons hqDot
        (.cons hqDDot .nil)))))) rfl)
      (Relation.linearization_eq (.cons htwist' (.cons hparent' (.cons hchild' (.cons hq' (.cons hqDot'
        (.cons hqDDot' .nil)))))) rfl)
      hnoise rfl rfl rfl rfl
      (.cons (Relation.makes_toDense _ hδtwist) (.cons (Relation.makes_toDense _ hδparent)
        (.cons (Relation.makes_toDense _ hδchild) (.cons (Relation.makes_toColumn _ hδq)
          (.cons (Relation.makes_toColumn _ hδqDot) (.cons (Relation.makes_toColumn _ hδqDDot) .nil))))))
      hchange⟩

theorem exists_follows_balance (hnoise : noise.dim = 6)
    (h : values.IsMoved values' δ [j.wrenchKey .parent t, j.wrenchKey .child t, j.angleKey t])
    (hangle : δ.get? (j.angleKey t) = some [0]) :
    ∃ l l' blocks, Relation.Follows
      ⟨[j.wrenchKey .parent t, j.wrenchKey .child t, j.angleKey t], .wrenchBalance j, noise, hnoise⟩
      values values' δ l l' blocks := by
  obtain ⟨parent, dparent, hparent, hparent', hδparent⟩ :=
    h.exists_spatial (by simp : j.wrenchKey .parent t ∈ _) rfl
  obtain ⟨child, dchild, hchild, hchild', hδchild⟩ :=
    h.exists_spatial (by simp : j.wrenchKey .child t ∈ _) rfl
  obtain ⟨q, dq, hq, hq', hδq⟩ := h.exists_scalar (by simp : j.angleKey t ∈ _) rfl
  obtain rfl : dq = 0 := by simpa using hδq.symm.trans hangle
  rw [add_zero] at hq'
  let carry := (j.poseOfOther .child q).adjoint.transpose
  let rate := (j.adjointRate .child q).transpose.apply child
  have hsplits := ((Relation.Splits.single (j.wrenchKey .parent t) (1 : SpatialMat ℝ).toDense rfl).beside
    (j.wrenchKey .child t) carry.toDense rfl rfl).beside (j.angleKey t) rate.toColumn rfl rfl
  have hchange : parent + dparent + carry.apply (child + dchild) = parent + carry.apply child +
      [(1 : SpatialMat ℝ).apply dparent, carry.apply dchild, rate.scale 0].sum := by
    simp only [SpatialMat.apply_add, SpatialMat.one_apply, Spatial.scale_zero, List.sum_cons, List.sum_nil]
    abel
  exact ⟨Factor.linearizeWrenchBalance j parent child q,
    Factor.linearizeWrenchBalance j (parent + dparent) (child + dchild) q, _,
    .of_changes rfl hsplits
      (Relation.linearization_eq (.cons hparent (.cons hchild (.cons hq .nil))) rfl)
      (Relation.linearization_eq (.cons hparent' (.cons hchild' (.cons hq' .nil))) rfl)
      hnoise rfl rfl rfl rfl
      (.cons (Relation.makes_toDense _ hδparent) (.cons (Relation.makes_toDense _ hδchild)
        (.cons (Relation.makes_toColumn _ hδq) .nil)))
      hchange⟩

theorem exists_follows_torque (hnoise : noise.dim = 1)
    (h : values.IsMoved values' δ [j.wrenchKey .child t, j.torqueKey t]) :
    ∃ l l' blocks, Relation.Follows ⟨[j.wrenchKey .child t, j.torqueKey t], .torque j, noise, hnoise⟩
      values values' δ l l' blocks := by
  obtain ⟨wrench, dwrench, hwrench, hwrench', hδwrench⟩ :=
    h.exists_spatial (by simp : j.wrenchKey .child t ∈ _) rfl
  obtain ⟨torque, dtorque, htorque, htorque', hδtorque⟩ :=
    h.exists_scalar (by simp : j.torqueKey t ∈ _) rfl
  have hsplits := (Relation.Splits.single (j.wrenchKey .child t) (j.screwAxis .child).toRow rfl).beside
    (j.torqueKey t) (Dense.ofFn 1 1 fun _ _ => -1) rfl rfl
  refine ⟨Factor.linearizeTorque j wrench torque,
    Factor.linearizeTorque j (wrench + dwrench) (torque + dtorque), _,
    { keys := rfl
      splits := hsplits
      start := Relation.linearization_eq (.cons hwrench (.cons htorque .nil)) rfl
      moved := Relation.linearization_eq (.cons hwrench' (.cons htorque' .nil)) rfl
      nrows := hnoise.symm
      nrows_moved := hnoise.symm
      residual := fun i hi => ?_ }⟩
  obtain rfl : i = 0 := Nat.lt_one_iff.mp (hnoise ▸ hi)
  show (j.screwAxis .child).dot (wrench + dwrench) - (torque + dtorque) =
    (j.screwAxis .child).dot wrench - torque + ((j.screwAxis .child).toRow.image (valuation δ _) 0 +
      ((Dense.ofFn 1 1 fun _ _ => -1).image (valuation δ _) 0 + 0))
  rw [Dense.image_toRow, Spatial.ofEntries_valuation hδwrench, Dense.image_neg_one,
    valuation_singleton hδtorque, Spatial.dot_add]
  ring

theorem exists_follows_planar {axis : PlaneNormal} (hnoise : noise.dim = 3)
    (h : values.IsMoved values' δ [j.wrenchKey .child t]) :
    ∃ l l' blocks, Relation.Follows ⟨[j.wrenchKey .child t], .planar axis, noise, hnoise⟩
      values values' δ l l' blocks := by
  obtain ⟨wrench, dwrench, hwrench, hwrench', hδwrench⟩ :=
    h.exists_spatial (by simp : j.wrenchKey .child t ∈ _) rfl
  refine ⟨⟨axis.selection.mulVec wrench.toList, axis.selection⟩,
    ⟨axis.selection.mulVec (wrench + dwrench).toList, axis.selection⟩, _,
    { keys := rfl
      splits := .single (j.wrenchKey .child t) axis.selection rfl
      start := Relation.linearization_eq (.cons hwrench .nil) rfl
      moved := Relation.linearization_eq (.cons hwrench' .nil) rfl
      nrows := hnoise.symm
      nrows_moved := hnoise.symm
      residual := fun i hi => ?_ }⟩
  replace hi : i < (axis.selection : Dense ℝ).nrows := lt_of_lt_of_eq hi hnoise
  have hentry : ∀ k < (axis.selection : Dense ℝ).ncols, (wrench + dwrench).toList.getD k 0 =
      wrench.toList.getD k 0 + dwrench.toList.getD k 0 := fun k hk => wrench.entry_add dwrench hk
  rw [List.map_singleton, List.sum_singleton, LinearEquation.getD_mulVec _ _ hi,
    LinearEquation.getD_mulVec _ _ hi, valuation_of_get? hδwrench, ← Dense.image_add]
  exact Dense.image_congr _ hentry i

theorem exists_follows_prior {target : ℝ} (hnoise : noise.dim = 1)
    (h : values.IsMoved values' δ [j.torqueKey t]) :
    ∃ l l' blocks, Relation.Follows ⟨[j.torqueKey t], .prior [target], noise, hnoise⟩
      values values' δ l l' blocks := by
  obtain ⟨torque, dtorque, htorque, htorque', hδtorque⟩ :=
    h.exists_scalar (by simp : j.torqueKey t ∈ _) rfl
  refine ⟨⟨[torque - target], .identity 1⟩, ⟨[torque + dtorque - target], .identity 1⟩, _,
    { keys := rfl
      splits := .single (j.torqueKey t) (.identity 1) rfl
      start := Relation.linearization_eq (.cons htorque .nil) rfl
      moved := Relation.linearization_eq (.cons htorque' .nil) rfl
      nrows := hnoise.symm
      nrows_moved := hnoise.symm
      residual := fun i hi => ?_ }⟩
  obtain rfl : i = 0 := Nat.lt_one_iff.mp (hnoise ▸ hi)
  show torque + dtorque - target = torque - target + ((Dense.identity 1).image (valuation δ _) 0 + 0)
  rw [Dense.image_identity _ one_pos, valuation_singleton hδtorque]
  ring

variable {plan : RelationPlan ℝ}

theorem exists_eq_prior {known : Values ℝ} {objective : Objective ℝ}
    (h : plan.fixedTorque j t known = .ok objective) (hr : r ∈ objective.relations) :
    ∃ target, r = ⟨[j.torqueKey t], .prior [target], .constrained 1, rfl⟩ := by
  rw [fixedTorque] at h
  cases htarget : knownTorque j t known with
  | error e =>
    rw [htarget] at h
    cases h
  | ok target =>
    rw [htarget] at h
    cases target with
    | none =>
      obtain rfl := Except.ok.inj h
      cases hr
    | some target =>
      obtain rfl := Except.ok.inj h
      exact ⟨target, List.mem_singleton.mp hr⟩

theorem mem_wrenchTransmission (hr : r ∈ (plan.wrenchTransmission j t).relations) :
    r = ⟨[j.wrenchKey .child t, j.torqueKey t], .torque j, plan.settings.torqueNoise, rfl⟩ ∨
      r = ⟨[j.wrenchKey .parent t, j.wrenchKey .child t, j.angleKey t], .wrenchBalance j,
        plan.settings.wrenchNoise 6, rfl⟩ ∨
      ∃ axis, r = ⟨[j.wrenchKey .child t], .planar axis, plan.settings.wrenchNoise 3, rfl⟩ := by
  rcases List.mem_append.mp hr with hr | hr
  · rcases List.mem_cons.mp hr with rfl | hr
    · exact .inl rfl
    · exact .inr (.inl (List.mem_singleton.mp hr))
  · cases hplane : plan.plane with
    | none => simp [hplane] at hr
    | some axis =>
      simp only [hplane] at hr
      exact .inr (.inr ⟨axis, List.mem_singleton.mp hr⟩)

/-- The relation is one of the families on twists, accelerations, wrenches or the fixed torque. -/
inductive Emits (plan : RelationPlan ℝ) (j : Joint ℝ) (t : ℕ) (r : Relation ℝ) : Prop
  | twist (h : r ∈ (plan.twistComposition j t).relations)
  | accel (h : r ∈ (plan.accelComposition j t).relations)
  | transmission (h : r ∈ (plan.wrenchTransmission j t).relations)
  | torque (known : Values ℝ) (objective : Objective ℝ)
      (hset : plan.fixedTorque j t known = .ok objective) (h : r ∈ objective.relations)

/-- **The relations follow their blocks** while the coordinate rests and, for accelerations, the
twist of the child or the rate. -/
theorem Emits.exists_follows (hr : plan.Emits j t r) (h : values.IsMoved values' δ r.keys)
    (hangle : j.angleKey t ∈ r.keys → δ.get? (j.angleKey t) = some [0])
    (hrest : r ∈ (plan.accelComposition j t).relations →
      δ.get? (j.twistKey .child t) = some (List.replicate 6 0) ∨ δ.get? (j.velocityKey t) = some [0]) :
    ∃ l l' blocks, r.Follows values values' δ l l' blocks := by
  cases hr with
  | twist hr =>
    obtain rfl := List.mem_singleton.mp hr
    exact exists_follows_twist rfl h (hangle (by simp))
  | accel hr =>
    have hone := hrest hr
    obtain rfl := List.mem_singleton.mp hr
    exact exists_follows_accel rfl h (hangle (by simp)) hone
  | transmission hr =>
    rcases mem_wrenchTransmission hr with rfl | rfl | ⟨axis, rfl⟩
    · exact exists_follows_torque rfl h
    · exact exists_follows_balance rfl h (hangle (by simp))
    · exact exists_follows_planar rfl h
  | torque known objective hset hr =>
    obtain ⟨target, rfl⟩ := exists_eq_prior hset hr
    exact exists_follows_prior rfl h

/-- The variables of a relation are distinct if the joint connects two links. -/
theorem Emits.nodup_keys (hr : plan.Emits j t r) (hlinks : j.parent ≠ j.child) : r.keys.Nodup := by
  have hsides : j.link .parent ≠ j.link .child := hlinks
  cases hr with
  | twist hr =>
    obtain rfl := List.mem_singleton.mp hr
    simp [Joint.twistKey, Joint.angleKey, Joint.velocityKey, hsides]
  | accel hr =>
    obtain rfl := List.mem_singleton.mp hr
    simp [Joint.twistKey, Joint.twistAccelKey, Joint.angleKey, Joint.velocityKey, Joint.accelerationKey,
      hsides]
  | transmission hr =>
    rcases mem_wrenchTransmission hr with rfl | rfl | ⟨axis, rfl⟩
    · simp [Joint.wrenchKey, Joint.torqueKey]
    · simp [Joint.wrenchKey, Joint.angleKey, hsides]
    · exact List.nodup_singleton _
  | torque known objective hset hr =>
    obtain ⟨target, rfl⟩ := exists_eq_prior hset hr
    exact List.nodup_singleton _

/-- **Linearisation is exact where the residual is affine**: the equation of a relation has its
weighted residual after a step of any size that leaves the coordinate at rest and, for
accelerations, the twist of the child or the rate. A relation of a joint between two links is
linearised at all values of the right kinds. -/
theorem linearize_exact (hr : plan.Emits j t r) (hvalues : values.Holds r.keys) :
    (j.parent ≠ j.child → ∃ e, r.linearize values = .ok e) ∧
      ∀ e, r.linearize values = .ok e → ∀ δ : Solution Key ℝ, Values.IsStep δ r.keys →
        (j.angleKey t ∈ r.keys → δ.get? (j.angleKey t) = some [0]) →
        (r ∈ (plan.accelComposition j t).relations →
          δ.get? (j.twistKey .child t) = some (List.replicate 6 0) ∨
            δ.get? (j.velocityKey t) = some [0]) →
        ∃ values', Session.retractAll δ r.keys values = (values', .ok ()) ∧
          ∃ l, r.evaluate values' = .ok l ∧ e.residual δ = .ok l.residual := by
  refine ⟨fun hlinks => ?_, fun e he δ hδ hangle hrest => ?_⟩
  · -- the step of zeros is as good as any to find the blocks
    have hnodup := hr.nodup_keys hlinks
    obtain ⟨δ, hδ⟩ := Values.exists_still r.keys
    have hstep : Values.IsStep δ r.keys := fun key hkey =>
      ⟨_, hδ key hkey, List.length_replicate⟩
    obtain ⟨values', -, hmoved, -⟩ := Values.exists_isMoved hnodup hvalues hstep
    obtain ⟨l, l', blocks, hfollows⟩ := hr.exists_follows hmoved (fun hkey => hδ _ hkey) fun haccel => by
      obtain rfl := List.mem_singleton.mp haccel
      exact .inr (hδ (j.velocityKey t) (by simp))
    exact hfollows.exists_linearize hnodup
  · obtain ⟨values', hrun, hmoved, -⟩ :=
      Values.exists_isMoved (Relation.nodup_keys_of_linearize he) hvalues hδ
    obtain ⟨l, l', blocks, hfollows⟩ := hr.exists_follows hmoved hangle hrest
    exact ⟨values', hrun, hfollows.exact hδ he⟩

/-- A step of the acceleration relation of the hinge that is not small. The rate rests. -/
noncomputable def hingeStep : Solution Key ℝ :=
  ⟨[(.twist ⟨1⟩ 0, [2.5, 0, 0, 0, -4.5, 0]), (.twistAccel ⟨0⟩ 0, [0, 1, 0, 0, 0, 0]),
    (.twistAccel ⟨1⟩ 0, [0, 0, 1, 0, 0, 1.5]), (.angle ⟨0⟩ 0, [0]), (.velocity ⟨0⟩ 0, [0]),
    (.acceleration ⟨0⟩ 0, [7.5])]⟩

/-- The turning hinge, moved far. -/
theorem linearize_exact_turningHinge :
    ∃ r ∈ ((.standard : RelationPlan ℝ).accelComposition Joint.hinge 0).relations,
      (Joint.turningHinge.store Joint.hinge 0).Holds r.keys ∧ Values.IsStep hingeStep r.keys ∧
        ∃ e, r.linearize (Joint.turningHinge.store Joint.hinge 0) = .ok e ∧
          ∃ values', Session.retractAll hingeStep r.keys (Joint.turningHinge.store Joint.hinge 0) =
              (values', .ok ()) ∧
            ∃ l, r.evaluate values' = .ok l ∧ e.residual hingeStep = .ok l.residual := by
  let r : Relation ℝ := ⟨[Joint.hinge.twistKey .child 0, Joint.hinge.twistAccelKey .parent 0,
    Joint.hinge.twistAccelKey .child 0, Joint.hinge.angleKey 0, Joint.hinge.velocityKey 0,
    Joint.hinge.accelerationKey 0], .twistAccel Joint.hinge, .constrained 6, rfl⟩
  have hr : r ∈ ((.standard : RelationPlan ℝ).accelComposition Joint.hinge 0).relations :=
    List.mem_singleton_self _
  have hkeys : ∀ key ∈ r.keys, key ∈ Joint.hinge.stateKeys 0 := by simp [r, Joint.stateKeys]
  have hvalues : (Joint.turningHinge.store Joint.hinge 0).Holds r.keys := fun key hkey =>
    Joint.isStored_turningHinge.holds Rotation.isUnit_identity
      (Joint.isAssembled_hinge.isUnit_poseOfOther .parent 1) key (hkeys key hkey)
  have hstep : Values.IsStep hingeStep r.keys := by
    simp only [r, Values.IsStep, List.forall_mem_cons]
    exact ⟨⟨_, rfl, rfl⟩, ⟨_, rfl, rfl⟩, ⟨_, rfl, rfl⟩, ⟨_, rfl, rfl⟩, ⟨_, rfl, rfl⟩, ⟨_, rfl, rfl⟩,
      by simp⟩
  have hlinks : Joint.hinge.parent ≠ Joint.hinge.child := by simp [Joint.hinge, Joint.assemble]
  obtain ⟨hexists, hexact⟩ := linearize_exact (.accel hr) hvalues
  obtain ⟨e, he⟩ := hexists hlinks
  exact ⟨r, hr, hvalues, hstep, e, he, hexact e he hingeStep hstep (fun _ => rfl) fun _ => .inr rfl⟩

end RelationPlan
end Kinodynamics
