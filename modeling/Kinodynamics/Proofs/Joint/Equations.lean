/-
# The linear equations of a joint

Each linear equation of a joint measures how far its variables are from what the joint makes
of one another: row by row its defect is an entry of a difference of spatial vectors, of a
number or of a list of components (`LinearEquation.Measures`). The residual that programs
compute and the energy follow from that, so nothing later looks at blocks.

Key definitions: `Spatial.ofEntries`, `LinearEquation.Measures`, `LinearEquation.IsLaw`,
`RelationPlan.fixValue`, `Joint.accelMisfit`, `Joint.torqueMisfit`, `Joint.wrenchMisfit`.
Key theorems: `LinearEquation.IsLaw.residual_eq`, `LinearEquation.Measures.energy_eq`,
`RelationPlan.exists_fixValue`, `RelationPlan.exists_linearAcceleration`,
`RelationPlan.exists_linearDynamics`.
-/
import Kinodynamics.Proofs.Algebra.Coordinates
import Kinodynamics.Proofs.Gaussian.Energy
import Kinodynamics.Proofs.Joint.Frames
import Kinodynamics.Joint.Relations

namespace Kinodynamics

open Finset

/-! ### Entries -/

namespace Spatial

/-- The vector of the first six entries. -/
def ofEntries (x : ℕ → ℝ) : Spatial ℝ := ⟨⟨x 0, x 1, x 2⟩, ⟨x 3, x 4, x 5⟩⟩

/-- An entry of the list of coordinates. -/
def entry (v : Spatial ℝ) (i : ℕ) : ℝ := v.toList.getD i 0

theorem entry_ofEntries (x : ℕ → ℝ) {i : ℕ} (hi : i < 6) : (ofEntries x).entry i = x i := by
  interval_cases i <;> rfl

theorem ofEntries_entry (v : Spatial ℝ) : ofEntries v.entry = v := rfl

variable (u v : Spatial ℝ) {i : ℕ}

theorem entry_add (hi : i < 6) : (u + v).entry i = u.entry i + v.entry i := by
  interval_cases i <;> rfl

theorem entry_neg (hi : i < 6) : (-u).entry i = -u.entry i := by
  interval_cases i <;> rfl

theorem entry_scale (s : ℝ) (hi : i < 6) : (u.scale s).entry i = u.entry i * s := by
  interval_cases i <;> rfl

end Spatial

/-! ### Images -/

namespace Dense

/-- The image of numbers that are those of a list, by the product with the list. -/
theorem image_eq_of_mulVec {a : Dense ℝ} {x : ℕ → ℝ} {v w : List ℝ} {i : ℕ} (h : a.mulVec v = w)
    (hx : ∀ j < a.ncols, x j = v.getD j 0) (hi : i < a.nrows) : a.image x i = w.getD i 0 := by
  rw [a.image_congr hx, ← LinearEquation.getD_mulVec a v hi, h]

variable (x : ℕ → ℝ) {i : ℕ}

theorem image_identity {n : ℕ} (hi : i < n) : (identity n : Dense ℝ).image x i = x i := by
  have hentry : ∀ j ∈ range n, (identity n : Dense ℝ).entry i j * x j = if i = j then x j else 0 :=
    fun j hj => by rw [entry_identity hi (mem_range.mp hj), ite_mul, one_mul, zero_mul]
  show ∑ j ∈ range n, _ = _
  rw [sum_congr rfl hentry, sum_ite_eq, if_pos (mem_range.mpr hi)]

theorem image_toDense (a : SpatialMat ℝ) (hi : i < 6) :
    a.toDense.image x i = (a.apply (.ofEntries x)).entry i :=
  image_eq_of_mulVec (a.toDense_mulVec _) (fun _ hj => (Spatial.entry_ofEntries x hj).symm) hi

theorem image_toColumn (u : Spatial ℝ) (hi : i < 6) : u.toColumn.image x i = (u.scale (x 0)).entry i :=
  image_eq_of_mulVec (u.toColumn_mulVec (x 0))
    (fun j hj => by rw [Nat.lt_one_iff.mp hj]; rfl) hi

theorem image_toRow (u : Spatial ℝ) : u.toRow.image x 0 = u.dot (.ofEntries x) :=
  image_eq_of_mulVec (u.toRow_mulVec _) (fun _ hj => (Spatial.entry_ofEntries x hj).symm) one_pos

theorem image_neg_one : (ofFn 1 1 fun _ _ => -1 : Dense ℝ).image x 0 = -x 0 := by
  show ∑ j ∈ range 1, _ = _
  rw [sum_range_one, entry_ofFn_of_lt _ one_pos one_pos, neg_one_mul]

theorem image_selection (axis : PlaneNormal) (hi : i < 3) : (axis.selection : Dense ℝ).image x i =
    (axis.components.map (Spatial.ofEntries x).entry).getD i 0 :=
  image_eq_of_mulVec (axis.selection_mulVec _) (fun _ hj => (Spatial.entry_ofEntries x hj).symm) hi

end Dense

/-! ### What an equation measures -/

namespace LinearEquation

variable {κ : Type} {e : LinearEquation κ ℝ} {f : ℝ → Valuation κ → List ℝ}

/-- The rows of `Σ Aₖ xₖ - t b` are the entries of a list. -/
def Measures (e : LinearEquation κ ℝ) (f : ℝ → Valuation κ → List ℝ) : Prop :=
  ∀ t x, (f t x).length = e.rows ∧ ∀ i < e.rows, e.defect t x i = (f t x).getD i 0

theorem Measures.energy_eq (h : e.Measures f) (t : ℝ) (x : Valuation κ) :
    e.energy t x = Scalar.normSq (f t x) := by
  obtain ⟨hlength, hentries⟩ := h t x
  rw [energy, Scalar.normSq_eq_sum, hlength]
  exact sum_congr rfl fun i hi => by rw [hentries i (mem_range.mp hi)]

/-- **The residual is what the equation measures.** -/
theorem Measures.residual_eq [DecidableEq κ] (h : e.Measures f) {x : Solution κ ℝ}
    (hx : ∀ b ∈ e.blocks, ∃ v, x.get? b.1 = some v ∧ v.length = b.2.ncols) :
    e.residual x = .ok (f 1 (valuation x)) := by
  obtain ⟨residual, hresidual, hrows, hdefect⟩ := LinearEquation.residual_eq hx
  obtain ⟨hlength, hentries⟩ := h 1 (valuation x)
  rw [hresidual]
  refine congrArg Except.ok (List.ext_getElem (hrows.trans hlength.symm) fun i hi hi' => ?_)
  have hi6 : i < e.rows := hrows ▸ hi
  rw [← List.getD_eq_getElem _ 0 hi, ← List.getD_eq_getElem _ 0 hi', hdefect i hi6, hentries i hi6]

/-- The equation holds exactly, is about the given variables, reads all entries of each, and
says that what it measures is zero. -/
structure IsLaw (e : LinearEquation Key ℝ) (keys : List Key) (f : ℝ → Valuation Key → List ℝ) :
    Prop where
  isHard : e.isHard = true
  keys : e.keys = keys
  ncols : ∀ b ∈ e.blocks, b.2.ncols = b.1.dim
  measures : e.Measures f

/-- The residual of a law at values of the right sizes. -/
theorem IsLaw.residual_eq {e : LinearEquation Key ℝ} {keys : List Key} {f : ℝ → Valuation Key → List ℝ}
    (h : e.IsLaw keys f) {x : Solution Key ℝ}
    (hx : ∀ key ∈ keys, ∃ v, x.get? key = some v ∧ v.length = key.dim) :
    e.residual x = .ok (f 1 (valuation x)) := by
  refine h.measures.residual_eq fun b hb => ?_
  obtain ⟨v, hv, hlength⟩ := hx b.1 (h.keys ▸ List.mem_map_of_mem hb)
  exact ⟨v, hv, hlength.trans (h.ncols b hb).symm⟩

end LinearEquation

/-- Blocks of the right shapes over distinct variables form a law. -/
theorem RelationPlan.exists_exactEquation {blocks : List (Key × Dense ℝ)} {rhs : List ℝ}
    {f : ℝ → Valuation Key → List ℝ}
    (hshape : ∀ b ∈ blocks, b.2.nrows = rhs.length ∧ b.2.ncols = b.1.dim)
    (hnodup : (blocks.map Prod.fst).Nodup)
    (hf : ∀ τ x, (f τ x).length = rhs.length ∧ ∀ i < rhs.length,
      (blocks.map fun b => b.2.image (x b.1) i).sum - τ * rhs.getD i 0 = (f τ x).getD i 0) :
    ∃ e, exactEquation blocks rhs = .ok e ∧ e.IsLaw (blocks.map Prod.fst) f := by
  let e : LinearEquation Key ℝ :=
    ⟨blocks, rhs, .constrained rhs.length, rfl, fun b hb => (hshape b hb).1, hnodup⟩
  have hmake : LinearEquation.make blocks rhs (.constrained rhs.length) = .ok e :=
    Elimination.make_eq_ok_iff.mpr ⟨rfl, rfl, rfl⟩
  exact ⟨e, by rw [exactEquation, hmake], rfl, rfl, fun b hb => (hshape b hb).2, hf⟩

theorem getD_map_range (f : ℕ → ℝ) {n i : ℕ} (hi : i < n) : ((List.range n).map f).getD i 0 = f i := by
  simp [hi]

/-- The variable fixed to a value. -/
def RelationPlan.fixValue {α : Type} [Scalar α] (key : Key) (value : List α) :
    Except ModelError (LinearEquation Key α) :=
  exactEquation [(key, .identity value.length)] value

/-- The equation that fixes a variable measures how far it is from the value. -/
theorem RelationPlan.exists_fixValue (key : Key) (value : List ℝ) (hlength : value.length = key.dim) :
    ∃ e, fixValue key value = .ok e ∧ e.IsLaw [key] fun τ x =>
      (List.range value.length).map fun i => x key i - τ * value.getD i 0 := by
  refine exists_exactEquation (List.forall_mem_singleton.mpr ⟨rfl, hlength⟩) (List.nodup_singleton _)
    fun τ x => ⟨?_, fun i hi => ?_⟩
  · rw [List.length_map, List.length_range]
  · rw [List.map_singleton, List.sum_singleton, Dense.image_identity _ hi, getD_map_range _ hi]

/-! ### The equations of a joint -/

namespace Joint

variable (j : Joint ℝ) (t : ℕ)

/-- The acceleration of the child against what the other accelerations give and `drift`, the
part that does not depend on accelerations. -/
noncomputable def accelMisfit (transform : Pose ℝ) (drift : Spatial ℝ) (x : Valuation Key) : Spatial ℝ :=
  .ofEntries (x (j.twistAccelKey .child t)) +
    -transform.adjoint.apply (.ofEntries (x (j.twistAccelKey .parent t))) +
    -(j.screwAxis .child).scale (x (j.accelerationKey t) 0) + -drift

/-- The torque of the child wrench against the torque. -/
noncomputable def torqueMisfit (x : Valuation Key) : ℝ :=
  (j.screwAxis .child).dot (.ofEntries (x (j.wrenchKey .child t))) - x (j.torqueKey t) 0

/-- The parent wrench with the child wrench carried to the parent. -/
noncomputable def wrenchMisfit (transform : Pose ℝ) (x : Valuation Key) : Spatial ℝ :=
  .ofEntries (x (j.wrenchKey .parent t)) +
    transform.adjoint.transpose.apply (.ofEntries (x (j.wrenchKey .child t)))

/-- The variables of the equation of accelerations; a fixed joint has no acceleration. -/
def accelKeys : List Key :=
  [j.twistAccelKey .child t, j.twistAccelKey .parent t] ++
    if j.kind.isFixed then [] else [j.accelerationKey t]

/-- The variables that linear equations leave open. -/
def unknownKeys : List Key :=
  [j.twistAccelKey .parent t, j.twistAccelKey .child t, j.accelerationKey t, j.wrenchKey .parent t,
    j.wrenchKey .child t, j.torqueKey t]

theorem mem_unknownKeys_of_mem_accelKeys {key : Key} (h : key ∈ j.accelKeys t) :
    key ∈ j.unknownKeys t := by
  rw [accelKeys] at h
  simp only [unknownKeys, List.mem_cons]
  split_ifs at h <;> simp at h <;> tauto

/-- The blocks of the equation of accelerations. -/
noncomputable def accelBlocks (transform : Pose ℝ) : List (Key × Dense ℝ) :=
  [(j.twistAccelKey .child t, .identity 6), (j.twistAccelKey .parent t, (-transform.adjoint).toDense)] ++
    if j.kind.isFixed then [] else [(j.accelerationKey t, (-j.screwAxis .child).toColumn)]

theorem map_fst_accelBlocks (transform : Pose ℝ) :
    (j.accelBlocks t transform).map Prod.fst = j.accelKeys t := by
  rw [accelBlocks, accelKeys]
  split_ifs <;> rfl

theorem shape_accelBlocks (transform : Pose ℝ) :
    ∀ b ∈ j.accelBlocks t transform, b.2.nrows = 6 ∧ b.2.ncols = b.1.dim := by
  rw [accelBlocks]
  split_ifs <;> simp [Dense.identity, twistAccelKey, accelerationKey, Key.dim]

variable {j t}

/-- The unknowns of a joint between two links are distinct. -/
theorem nodup_unknownKeys (hne : j.parent ≠ j.child) (t : ℕ) : (j.unknownKeys t).Nodup := by
  simp [unknownKeys, twistAccelKey, wrenchKey, accelerationKey, torqueKey, link, hne]

theorem nodup_accelKeys (hne : j.parent ≠ j.child) : (j.accelKeys t).Nodup := by
  have hlinks : j.link .child ≠ j.link .parent := hne.symm
  rw [accelKeys]
  split_ifs <;> simp [hlinks, accelerationKey, twistAccelKey]

theorem IsAssembled.childAxis_of_isFixed (hj : j.IsAssembled) (hfixed : j.kind.isFixed = true) :
    j.childAxis = 0 := by
  obtain @⟨_, _, worldPose, _, child, _, kind, -, -, -⟩ := hj
  cases kind with
  | fixed =>
    show (worldPose.inverse.compose child.worldPose).inverse.adjoint.apply (0 : Spatial ℝ) = 0
    exact SpatialMat.apply_zero _
  | _ => cases hfixed

/-- What the blocks give is the misfit but for the drift. -/
theorem IsAssembled.sum_accelBlocks (hj : j.IsAssembled) (transform : Pose ℝ) (drift : Spatial ℝ)
    (x : Valuation Key) {i : ℕ} (hi : i < 6) :
    ((j.accelBlocks t transform).map fun b => b.2.image (x b.1) i).sum - drift.entry i =
      (j.accelMisfit t transform drift x).entry i := by
  -- a fixed joint has no block for its acceleration, and no axis
  have hjoint : ((if j.kind.isFixed then [] else
      [(j.accelerationKey t, (-j.screwAxis .child).toColumn)]).map fun b => b.2.image (x b.1) i).sum =
        (-(j.screwAxis .child).scale (x (j.accelerationKey t) 0)).entry i := by
    split_ifs with hfixed
    · have haxis : j.screwAxis .child = 0 := hj.childAxis_of_isFixed hfixed
      rw [haxis, Spatial.zero_scale, neg_zero]
      interval_cases i <;> rfl
    · rw [List.map_singleton, List.sum_singleton, Dense.image_toColumn _ _ hi, Spatial.neg_scale]
  rw [accelBlocks, List.map_append, List.sum_append, hjoint, List.map_cons, List.map_singleton,
    List.sum_cons, List.sum_singleton, Dense.image_identity _ hi, Dense.image_toDense _ _ hi,
    sub_eq_add_neg, accelMisfit, Spatial.entry_add _ _ hi, Spatial.entry_add _ _ hi,
    Spatial.entry_add _ _ hi, Spatial.entry_ofEntries _ hi, SpatialMat.neg_apply,
    Spatial.entry_neg drift hi]

end Joint

namespace RelationPlan

variable {j : Joint ℝ} {t : ℕ} {known : Values ℝ} {transform : Pose ℝ} (plan : RelationPlan ℝ)

/-- **The equation of accelerations** around known poses, child twist and rate. -/
theorem exists_linearAcceleration (hj : j.IsAssembled) (hne : j.parent ≠ j.child)
    {childTwist : Spatial ℝ} {qDot : ℝ} (htransform : knownTransform j t known = .ok transform)
    (htwist : known.spatial (j.twistKey .child t) = .ok childTwist)
    (hrate : known.scalar (j.velocityKey t) = .ok qDot) :
    ∃ e, plan.linearAcceleration j t known = .ok ⟨[e]⟩ ∧
      e.IsLaw (j.accelKeys t) fun τ x => (j.accelMisfit t transform
        (((childTwist.cross.apply (j.screwAxis .child)).scale qDot).scale τ) x).toList := by
  set drift := (childTwist.cross.apply (j.screwAxis .child)).scale qDot
  have hmeasures : ∀ (τ : ℝ) (x : Valuation Key), ∀ i < 6,
      ((j.accelBlocks t transform).map fun b => b.2.image (x b.1) i).sum - τ * drift.toList.getD i 0 =
        (j.accelMisfit t transform (drift.scale τ) x).entry i := fun τ x i hi => by
    rw [← hj.sum_accelBlocks transform _ x hi, drift.entry_scale τ hi, mul_comm]
    rfl
  obtain ⟨e, he, hlaw⟩ := @exists_exactEquation (j.accelBlocks t transform) drift.toList
    (fun τ x => (j.accelMisfit t transform (drift.scale τ) x).toList) (j.shape_accelBlocks t transform)
    (by rw [j.map_fst_accelBlocks]; exact Joint.nodup_accelKeys hne) fun τ x => ⟨rfl, hmeasures τ x⟩
  rw [j.map_fst_accelBlocks] at hlaw
  refine ⟨e, ?_, hlaw⟩
  rw [linearAcceleration, htransform, htwist, hrate]
  exact congrArg (fun r => do return (⟨[← r]⟩ : LinearSystem Key ℝ)) he

/-- The equation of the torque. -/
theorem exists_transmission (j : Joint ℝ) (t : ℕ) :
    ∃ e, exactEquation [(j.wrenchKey .child t, (j.screwAxis .child).toRow),
        (j.torqueKey t, Dense.ofFn 1 1 fun _ _ => -1)] [0] = .ok e ∧
      e.IsLaw [j.wrenchKey .child t, j.torqueKey t] fun _ x => [j.torqueMisfit t x] := by
  refine exists_exactEquation ?_ ?_ fun τ x => ⟨rfl, fun i hi => ?_⟩
  · simp [Joint.wrenchKey, Joint.torqueKey, Key.dim]
  · simp [Joint.wrenchKey, Joint.torqueKey]
  · obtain rfl := Nat.lt_one_iff.mp hi
    rw [List.map_cons, List.map_singleton, List.sum_cons, List.sum_singleton, Dense.image_toRow,
      Dense.image_neg_one, List.getD_cons_zero, mul_zero, sub_zero]
    exact (sub_eq_add_neg _ _).symm

/-- The equation of the wrenches. -/
theorem exists_balance (hne : j.parent ≠ j.child) (t : ℕ) (transform : Pose ℝ) :
    ∃ e, exactEquation [(j.wrenchKey .parent t, (1 : SpatialMat ℝ).toDense),
        (j.wrenchKey .child t, transform.adjoint.transpose.toDense)] (List.replicate 6 0) = .ok e ∧
      e.IsLaw [j.wrenchKey .parent t, j.wrenchKey .child t] fun _ x =>
        (j.wrenchMisfit t transform x).toList := by
  have hlinks : j.link .parent ≠ j.link .child := hne
  refine exists_exactEquation ?_ ?_ fun τ x => ⟨rfl, fun i hi => ?_⟩
  · simp [Joint.wrenchKey, Key.dim]
  · simp [hlinks, Joint.wrenchKey]
  · replace hi : i < 6 := hi
    have hzero : (List.replicate 6 (0 : ℝ)).getD i 0 = 0 := List.getD_replicate _ hi
    rw [List.map_cons, List.map_singleton, List.sum_cons, List.sum_singleton,
      Dense.image_toDense _ _ hi, Dense.image_toDense _ _ hi, hzero, mul_zero, sub_zero,
      SpatialMat.one_apply]
    exact (Spatial.entry_add _ _ hi).symm

/-- The equation of a plane. -/
theorem exists_restriction (j : Joint ℝ) (t : ℕ) (axis : PlaneNormal) :
    ∃ e, exactEquation [(j.wrenchKey .child t, axis.selection)] (List.replicate 3 0) = .ok e ∧
      e.IsLaw [j.wrenchKey .child t] fun _ x =>
        axis.components.map (Spatial.ofEntries (x (j.wrenchKey .child t))).entry := by
  refine exists_exactEquation ?_ ?_ fun τ x => ⟨?_, fun i hi => ?_⟩
  · simp [Joint.wrenchKey, Key.dim, PlaneNormal.selection]
  · simp
  · cases axis <;> rfl
  · replace hi : i < 3 := hi
    have hzero : (List.replicate 3 (0 : ℝ)).getD i 0 = 0 := List.getD_replicate _ hi
    rw [List.map_singleton, List.sum_singleton, Dense.image_selection _ _ hi, hzero, mul_zero, sub_zero]

/-- **The equations of the dynamics** around known poses. -/
theorem exists_linearDynamics (hne : j.parent ≠ j.child)
    (htransform : knownTransform j t known = .ok transform) :
    ∃ transmission balance restrictions,
      plan.linearDynamics j t known = .ok ⟨[transmission, balance] ++ restrictions⟩ ∧
      transmission.IsLaw [j.wrenchKey .child t, j.torqueKey t] (fun _ x => [j.torqueMisfit t x]) ∧
      balance.IsLaw [j.wrenchKey .parent t, j.wrenchKey .child t]
        (fun _ x => (j.wrenchMisfit t transform x).toList) ∧
      List.Forall₂ (fun axis e => e.IsLaw [j.wrenchKey .child t] fun _ x =>
        axis.components.map (Spatial.ofEntries (x (j.wrenchKey .child t))).entry)
        plan.plane.toList restrictions := by
  obtain ⟨transmission, htransmission, htorque⟩ := exists_transmission j t
  obtain ⟨balance, hbalance, hwrench⟩ := exists_balance hne t transform
  cases hplane : plan.plane with
  | none =>
    refine ⟨transmission, balance, [], ?_, htorque, hwrench, .nil⟩
    simp only [linearDynamics, htransform, htransmission, hbalance, hplane, bind, Except.bind]
    rfl
  | some axis =>
    obtain ⟨restriction, hrestriction, hlaw⟩ := exists_restriction j t axis
    refine ⟨transmission, balance, [restriction], ?_, htorque, hwrench, .cons hlaw .nil⟩
    simp only [linearDynamics, htransform, htransmission, hbalance, hplane, hrestriction, bind,
      Except.bind]
    rfl

end RelationPlan
end Kinodynamics
