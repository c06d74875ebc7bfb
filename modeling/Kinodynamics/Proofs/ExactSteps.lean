/-
# Steps of any size

The equation that a relation is linearised to says what its weighted residual is after a small
step of its variables. Where the residual is affine it says so for a step of any size: if the
unweighted residual moves by what the columns of the Jacobian give, variable by variable, the
equation has the weighted residual at the moved values (`Relation.Follows.exact`).

Variables are moved one after another. Distinct ones do not disturb each other, so in the end
each has moved from where it was (`Values.exists_isMoved`). The columns of a Jacobian that was
put together side by side are cut at the same places when each block is as wide as its variable
(`Relation.Splits.beside`).

Key definitions: `Values.IsStep`, `Values.IsMoved`, `Relation.Splits`, `Relation.Follows`.
Key theorems: `Values.exists_isMoved`, `Relation.Splits.beside`, `Relation.Follows.exists_linearize`,
`Relation.Follows.exact`.
-/
import Kinodynamics.Proofs.Linearization
import Kinodynamics.Proofs.Retraction

namespace Kinodynamics

/-! ### Moving stored values -/

theorem Spatial.eq_toList {xs : List ℝ} {d : Spatial ℝ} (h : ofList? xs = some d)
    (hlength : xs.length = 6) : xs = d.toList := by
  match xs, hlength with
  | [_, _, _, _, _, _], _ =>
    obtain rfl := Option.some.inj h
    rfl

namespace Values

variable {values values' : Values ℝ} {δ : Solution Key ℝ} {key : Key} {keys : List Key}

/-- A tangent vector for each of the variables, of its size. -/
def IsStep (δ : Solution Key ℝ) (keys : List Key) : Prop :=
  ∀ key ∈ keys, ∃ tangent, δ.get? key = some tangent ∧ tangent.length = key.dim

/-- The second store has the values of the first one, moved along the step. -/
def IsMoved (values values' : Values ℝ) (δ : Solution Key ℝ) (keys : List Key) : Prop :=
  ∀ key ∈ keys, ∃ value tangent moved, values.get? key = some value ∧ value.kind = key.valueKind ∧
    δ.get? key = some tangent ∧ tangent.length = key.dim ∧ value.moved? tangent = some moved ∧
    values'.get? key = some moved

/-- There is a step that moves nothing. -/
theorem exists_still (keys : List Key) :
    ∃ δ : Solution Key ℝ, ∀ key ∈ keys, δ.get? key = some (List.replicate key.dim 0) := by
  refine ⟨⟨keys.map fun key => (key, List.replicate key.dim 0)⟩, fun key hkey => ?_⟩
  induction keys with
  | nil => cases hkey
  | cons first keys ih =>
    rw [List.map_cons, Assignment.get?_mk_cons]
    split_ifs with h
    · obtain rfl : first = key := h
      rfl
    · exact ih ((List.mem_cons.mp hkey).resolve_left (Ne.symm h))

/-- **Distinct variables are all moved**, each from where it was, and no others. -/
theorem exists_isMoved : ∀ {keys : List Key} {values : Values ℝ}, keys.Nodup → values.Holds keys →
    IsStep δ keys → ∃ values', Session.retractAll δ keys values = (values', .ok ()) ∧
      values.IsMoved values' δ keys ∧ ∀ key, key ∉ keys → values'.get? key = values.get? key
  | [], values, _, _, _ => ⟨values, rfl, by simp [IsMoved], fun _ _ => rfl⟩
  | first :: keys, values, hnodup, hvalues, hδ => by
    obtain ⟨hfirst, hnodup⟩ := List.nodup_cons.mp hnodup
    obtain ⟨⟨value, hvalue, hkind, -⟩, hvalues⟩ := List.forall_mem_cons.mp hvalues
    obtain ⟨⟨tangent, htangent, hlength⟩, hδ⟩ := List.forall_mem_cons.mp hδ
    obtain ⟨moved, hmoved⟩ := Value.exists_moved (hlength.trans (Key.dim_eq_of_kind hkind).symm)
    have hother : ∀ key, key ≠ first → (values.insert first moved).get? key = values.get? key :=
      fun key hne => values.get?_insert_of_ne moved hne.symm
    have hrest : ∀ key ∈ keys, key ≠ first := fun key hkey heq => hfirst (heq ▸ hkey)
    have hholds : Holds (values.insert first moved) keys := fun key hkey => by
      rw [hother key (hrest key hkey)]
      exact hvalues key hkey
    obtain ⟨values', hrun, hisMoved, hframe⟩ := exists_isMoved hnodup hholds hδ
    refine ⟨values', ?_, List.forall_mem_cons.mpr ⟨?_, fun key hkey => ?_⟩, fun key hkey => ?_⟩
    · rw [Session.retractAll, htangent, Option.getD_some, retract_eq hvalue hkind hlength hmoved]
      exact hrun
    · refine ⟨value, tangent, moved, hvalue, hkind, htangent, hlength, hmoved, ?_⟩
      rw [hframe first hfirst, values.get?_insert_self]
    · obtain ⟨value, tangent, moved, hvalue, hmore⟩ := hisMoved key hkey
      exact ⟨value, tangent, moved, hother key (hrest key hkey) ▸ hvalue, hmore⟩
    · rw [List.mem_cons, not_or] at hkey
      rw [hframe key hkey.2, hother key hkey.1]

/-! What a variable is before and after, by its kind. -/

theorem IsMoved.exists_spatial (h : values.IsMoved values' δ keys) (hkey : key ∈ keys)
    (hkind : key.valueKind = .spatial) : ∃ v d : Spatial ℝ, values.parameters key = .ok v.toList ∧
      values'.parameters key = .ok (v + d).toList ∧ δ.get? key = some d.toList := by
  obtain ⟨value, tangent, moved, hvalue, hsame, htangent, hlength, hmoved, hvalue'⟩ := h key hkey
  obtain ⟨v, rfl⟩ := Value.exists_spatial (hsame.trans hkind)
  obtain ⟨d, hd, rfl⟩ := Option.map_eq_some_iff.mp hmoved
  obtain rfl := Spatial.eq_toList hd (hlength.trans (Key.dim_eq_of_kind hsame).symm)
  exact ⟨v, d, parameters_eq hvalue hsame, parameters_eq hvalue' hsame, htangent⟩

theorem IsMoved.exists_scalar (h : values.IsMoved values' δ keys) (hkey : key ∈ keys)
    (hkind : key.valueKind = .scalar) : ∃ x d : ℝ, values.parameters key = .ok [x] ∧
      values'.parameters key = .ok [x + d] ∧ δ.get? key = some [d] := by
  obtain ⟨value, tangent, moved, hvalue, hsame, htangent, hlength, hmoved, hvalue'⟩ := h key hkey
  obtain ⟨x, rfl⟩ := Value.exists_scalar (hsame.trans hkind)
  have hone : tangent.length = 1 := hlength.trans (Key.dim_eq_of_kind hsame).symm
  obtain ⟨d, rfl⟩ := List.length_eq_one_iff.mp hone
  obtain rfl := Option.some.inj hmoved
  exact ⟨x, d, parameters_eq hvalue hsame, parameters_eq hvalue' hsame, htangent⟩

end Values

/-! ### Cutting columns -/

namespace Dense

variable (a b : Dense ℝ)

theorem view_all : a.view 0 0 a.nrows a.ncols = a := by
  refine ext_entry rfl rfl fun i j hi hj => ?_
  replace hi : i < a.nrows := hi
  replace hj : j < a.ncols := hj
  rw [entry_view _ hi hj, Nat.zero_add, Nat.zero_add]

theorem view_beside_of_le {c n : ℕ} (h : c + n ≤ a.ncols) :
    (a.beside b).view 0 c a.nrows n = a.view 0 c a.nrows n := by
  refine ext_entry rfl rfl fun i j hi hj => ?_
  replace hi : i < a.nrows := hi
  replace hj : j < n := hj
  rw [entry_view _ hi hj, entry_view _ hi hj, entry_beside_of_lt _ _ (by omega) (by omega)]

theorem view_beside (h : b.nrows = a.nrows) :
    (a.beside b).view 0 a.ncols a.nrows b.ncols = b := by
  refine ext_entry h.symm rfl fun i j hi hj => ?_
  replace hi : i < a.nrows := hi
  replace hj : j < b.ncols := hj
  rw [entry_view _ hi hj, entry_beside_of_le _ _ (by omega) (by omega) (by omega), Nat.zero_add,
    Nat.add_sub_cancel_left]

end Dense

namespace Relation

section

variable {α : Type} [Scalar α]

theorem tangentDim_append : ∀ keys keys' : List Key,
    tangentDim (keys ++ keys') = tangentDim keys + tangentDim keys'
  | [], keys' => (Nat.zero_add _).symm
  | key :: keys, keys' => by
    rw [List.cons_append, tangentDim, tangentDim, tangentDim_append keys, Nat.add_assoc]

theorem columnBlocks_append (jacobian : Dense α) : ∀ (c : ℕ) (keys keys' : List Key),
    columnBlocks jacobian c (keys ++ keys') =
      columnBlocks jacobian c keys ++ columnBlocks jacobian (c + tangentDim keys) keys'
  | _, [], _ => rfl
  | c, key :: keys, keys' => by
    rw [List.cons_append, columnBlocks, columnBlocks, tangentDim, columnBlocks_append _ _ keys,
      List.cons_append, Nat.add_assoc]

theorem ncols_of_mem_columnBlocks {jacobian : Dense α} :
    ∀ {c : ℕ} {keys : List Key} {b : Key × Dense α}, b ∈ columnBlocks jacobian c keys →
      b.2.ncols = b.1.dim
  | _, [], _, hb => by cases hb
  | _, _ :: _, _, hb => by
    rcases List.mem_cons.mp hb with rfl | hb
    · rfl
    · exact ncols_of_mem_columnBlocks hb

end

theorem columnBlocks_beside_of_le (a b : Dense ℝ) : ∀ (c : ℕ) (keys : List Key),
    c + tangentDim keys ≤ a.ncols → columnBlocks (a.beside b) c keys = columnBlocks a c keys
  | _, [], _ => rfl
  | c, key :: keys, h => by
    rw [tangentDim] at h
    rw [columnBlocks, columnBlocks, columnBlocks_beside_of_le a b _ keys (by omega)]
    exact congrArg (fun block => (key, block) :: _) (Dense.view_beside_of_le a b (by omega))

/-- The columns of the matrix are cut into the blocks of the variables. -/
def Splits (jacobian : Dense ℝ) (blocks : List (Key × Dense ℝ)) : Prop :=
  columnBlocks jacobian 0 (blocks.map Prod.fst) = blocks ∧
    jacobian.ncols = tangentDim (blocks.map Prod.fst)

theorem Splits.single (key : Key) (a : Dense ℝ) (h : a.ncols = key.dim) : Splits a [(key, a)] := by
  refine ⟨?_, h⟩
  show [(key, a.view 0 0 a.nrows key.dim)] = _
  rw [← h, a.view_all]

/-- **One more block, as wide as its variable.** -/
theorem Splits.beside {a : Dense ℝ} {blocks : List (Key × Dense ℝ)} (h : Splits a blocks) (key : Key)
    (b : Dense ℝ) (hrows : b.nrows = a.nrows) (hcols : b.ncols = key.dim) :
    Splits (a.beside b) (blocks ++ [(key, b)]) := by
  obtain ⟨hblocks, hwidth⟩ := h
  refine ⟨?_, ?_⟩
  · rw [List.map_append, columnBlocks_append,
      columnBlocks_beside_of_le _ _ _ _ (by rw [Nat.zero_add, hwidth]), hblocks, Nat.zero_add, ← hwidth]
    show blocks ++ [(key, (a.beside b).view 0 a.ncols a.nrows key.dim)] = _
    rw [← hcols, Dense.view_beside _ _ hrows]
  · rw [List.map_append, tangentDim_append, ← hwidth]
    exact congrArg (a.ncols + ·) hcols

/-! ### What is linearised and evaluated -/

section

variable {α : Type} [Scalar α] {r : Relation α} {values : Values α} {l : Linearization α}

theorem linearization_eq {params : List (List α)}
    (hparams : List.Forall₂ (fun key p => values.parameters key = .ok p) r.keys params)
    (hl : r.factor.linearize? params = some l) : r.linearization values = .ok l := by
  have hread : r.parameters values = .ok params := Values.mapM_parameters hparams
  rw [linearization, hread]
  exact congrArg Outcome.ofOption hl

theorem length_residual (hl : r.linearization values = .ok l) : l.residual.length = r.noise.dim := by
  obtain ⟨params, -, hl⟩ := Outcome.bind_eq_ok.mp hl
  rw [Factor.length_residual (Outcome.ofOption_eq_ok.mp hl), r.dim_noise]

theorem evaluate_eq (hl : r.linearization values = .ok l) (hrows : l.jacobian.nrows = r.noise.dim) :
    r.evaluate values = .ok ⟨r.noise.weigh l.residual, r.noise.weighRows l.jacobian⟩ := by
  have hresidual : r.noise.weigh? l.residual = some (r.noise.weigh l.residual) :=
    Noise.weigh?_eq_some_iff.mpr ⟨length_residual hl, rfl⟩
  have hjacobian : r.noise.weighRows? l.jacobian = some (r.noise.weighRows l.jacobian) :=
    Noise.weighRows?_eq_some_iff.mpr ⟨hrows, rfl⟩
  simp only [evaluate, weightedResidual, hl, hresidual, hjacobian, Outcome.ofOption, bind, Except.bind]
  rfl

/-- A relation on distinct variables is linearised if its Jacobian has their columns. -/
theorem exists_linearize (hl : r.linearization values = .ok l)
    (hrows : l.jacobian.nrows = r.noise.dim) (hcols : l.jacobian.ncols = tangentDim r.keys)
    (hkeys : r.keys.Nodup) : ∃ e, r.linearize values = .ok e := by
  have hlength : (r.noise.weigh l.residual).length = r.factor.dim := by
    rw [Noise.length_weigh, length_residual hl, Nat.min_self, r.dim_noise]
  let e : LinearEquation Key α :=
    { blocks := columnBlocks (r.noise.weighRows l.jacobian) 0 r.keys
      rhs := (r.noise.weigh l.residual).map (- ·)
      noise := .unit r.factor.dim
      noise_dim := by rw [List.length_map, hlength]; rfl
      block_nrows := fun b hb => by
        rw [nrows_of_mem_columnBlocks hb, Noise.nrows_weighRows, List.length_map, hlength, r.dim_noise]
      keys_nodup := by rwa [map_fst_columnBlocks] }
  have hmake : LinearEquation.make e.blocks e.rhs e.noise = .ok e :=
    Elimination.make_eq_ok_iff.mpr ⟨rfl, rfl, rfl⟩
  have hwidth : (r.noise.weighRows l.jacobian).ncols = tangentDim r.keys := hcols
  have hnarrow : ¬(r.noise.weighRows l.jacobian).ncols < tangentDim r.keys := hwidth ▸ lt_irrefl _
  have hother : ¬(r.noise.weighRows l.jacobian).ncols ≠ tangentDim r.keys := not_not.mpr hwidth
  refine ⟨e, ?_⟩
  simp only [linearize, evaluate_eq hl hrows, bind, Except.bind, if_neg hnarrow, if_neg hother]
  exact Outcome.wrap_ofExcept_eq_ok.mpr hmake

end

variable {r : Relation ℝ} {values values' : Values ℝ} {δ : Solution Key ℝ} {l l' : Linearization ℝ}

/-- From the first values to the second the unweighted residual moves by what the blocks of the
Jacobian at the first make of the step. -/
structure Follows (r : Relation ℝ) (values values' : Values ℝ) (δ : Solution Key ℝ)
    (l l' : Linearization ℝ) (blocks : List (Key × Dense ℝ)) : Prop where
  keys : blocks.map Prod.fst = r.keys
  splits : Splits l.jacobian blocks
  start : r.linearization values = .ok l
  moved : r.linearization values' = .ok l'
  nrows : l.jacobian.nrows = r.noise.dim
  nrows_moved : l'.jacobian.nrows = r.noise.dim
  residual : ∀ i < r.noise.dim, l'.residual.getD i 0 =
    l.residual.getD i 0 + (blocks.map fun b => b.2.image (valuation δ b.1) i).sum

namespace Follows

variable {blocks : List (Key × Dense ℝ)}

theorem columnBlocks_eq (h : r.Follows values values' δ l l' blocks) :
    columnBlocks l.jacobian 0 r.keys = blocks := h.keys ▸ h.splits.1

theorem exists_linearize (h : r.Follows values values' δ l l' blocks) (hkeys : r.keys.Nodup) :
    ∃ e, r.linearize values = .ok e :=
  Relation.exists_linearize h.start h.nrows (h.keys ▸ h.splits.2) hkeys

/-- **The equation has the weighted residual at the moved values**, however far they are moved. -/
theorem exact (h : r.Follows values values' δ l l' blocks) (hδ : Values.IsStep δ r.keys)
    {e : LinearEquation Key ℝ} (he : r.linearize values = .ok e) :
    ∃ w, r.evaluate values' = .ok w ∧ e.residual δ = .ok w.residual := by
  refine ⟨_, evaluate_eq h.moved h.nrows_moved, ?_⟩
  obtain ⟨e', he', rfl⟩ := exists_firstOrder_of_linearize he
  obtain ⟨l₁, hl₁, hblocks, hrhs, hnoise⟩ := firstOrder_eq_ok_iff.mp he'
  obtain rfl : l = l₁ := Except.ok.inj (h.start.symm.trans hl₁)
  have hvalue : ∀ b ∈ e'.weighted.blocks, ∃ v, δ.get? b.1 = some v ∧ v.length = b.2.ncols := by
    intro b hb
    obtain ⟨c, hc, rfl⟩ := List.mem_map.mp hb
    rw [hblocks] at hc
    have hkey : c.1 ∈ r.keys := map_fst_columnBlocks l.jacobian 0 r.keys ▸ List.mem_map_of_mem hc
    obtain ⟨tangent, htangent, hlength⟩ := hδ c.1 hkey
    exact ⟨tangent, htangent, hlength.trans (ncols_of_mem_columnBlocks hc).symm⟩
  obtain ⟨residual, hresidual, hlength, hentries⟩ := LinearEquation.residual_eq hvalue
  have hstart : l.residual.length = r.noise.dim := length_residual h.start
  have hmoved : l'.residual.length = r.noise.dim := length_residual h.moved
  have hrows : e'.weighted.rows = r.noise.dim := by
    rw [LinearEquation.rows_weighted, LinearEquation.rows, hrhs, List.length_map, hstart]
  have hentry : ∀ i < r.noise.dim, residual.getD i 0 = (r.noise.weigh l'.residual).getD i 0 := by
    intro i hi
    have hneg : e'.rhs.getD i 0 = -l.residual.getD i 0 := by
      have hi' : i < l.residual.length := hstart.symm ▸ hi
      simp [hrhs, List.getD_eq_getElem?_getD, hi']
    have hdefect : e'.defect 1 (valuation δ) i = l'.residual.getD i 0 := by
      rw [LinearEquation.defect, hblocks, h.columnBlocks_eq, hneg, h.residual i hi, one_mul,
        sub_neg_eq_add, add_comm]
    have hi' : i < e'.rows := by rwa [← LinearEquation.rows_weighted, hrows]
    rw [hentries i (hrows.symm ▸ hi), e'.defect_weighted _ _ hi', hdefect, hnoise,
      LinearEquation.getD_weigh _ hmoved.symm hi]
  have hlengths : residual.length = (r.noise.weigh l'.residual).length := by
    rw [hlength, hrows, Noise.length_weigh, hmoved, Nat.min_self]
  rw [hresidual]
  refine congrArg Except.ok (List.ext_getElem hlengths fun i hi hi' => ?_)
  rw [← List.getD_eq_getElem _ 0 hi, ← List.getD_eq_getElem _ 0 hi']
  exact hentry i (by rwa [hlength, hrows] at hi)

end Follows
end Relation
end Kinodynamics
