/-
# Fill-in follows paths of eliminated variables

A step joins all variables of its separator in one remainder, also two that no equation of the
system joins. Such a dependency is never out of nothing: any two variables of one remaining
equation are joined in the graph of the system by a walk over variables already taken out
(`Traced`). A step keeps this, since each variable of the separator shares an equation with the
variable taken out, and walks to it and from it compose. So a parent of a conditional is joined
to the variable of the conditional by a path over variables that come before it in the ordering
(`Elimination.exists_path_to_parent`). No number is read: the statements hold for every scalar
and all decompositions.

Key definitions: `LinearSystem.graph`, `Elimination.Joined`, `Elimination.Traced`.
Key theorems: `Elimination.IsStep.traced`, `Elimination.joined_parents`,
`Elimination.exists_path_to_parent`.
-/
import Kinodynamics.Proofs.Elimination.Structure

namespace Kinodynamics

/-- The graph of a system: two keys are adjacent if some equation involves both. -/
def LinearSystem.graph {κ α : Type} (s : LinearSystem κ α) : SimpleGraph κ where
  Adj k l := k ≠ l ∧ ∃ r ∈ s.equations, k ∈ r.keys ∧ l ∈ r.keys
  symm := ⟨fun _ _ ⟨hne, r, hr, hk, hl⟩ => ⟨hne.symm, r, hr, hl, hk⟩⟩
  loopless := ⟨fun _ h => h.1 rfl⟩

namespace Elimination

/-! ### Walks over given vertices -/

section Walks

variable {κ : Type} {G : SimpleGraph κ} {through : List κ} {k l m : κ}

/-- A walk leads from `k` to `l`, and all its other vertices are among the given ones. -/
def Joined (G : SimpleGraph κ) (through : List κ) (k l : κ) : Prop :=
  ∃ p : G.Walk k l, ∀ v ∈ p.support, v = k ∨ v = l ∨ v ∈ through

theorem Joined.refl (G : SimpleGraph κ) (through : List κ) (k : κ) : Joined G through k k :=
  ⟨.nil, fun _ hv => Or.inl (List.mem_singleton.mp hv)⟩

theorem Joined.of_adj (h : G.Adj k l) : Joined G through k l :=
  ⟨.cons h .nil, fun v hv => by
    rcases List.mem_cons.mp hv with rfl | hv
    · exact Or.inl rfl
    · exact Or.inr (Or.inl (List.mem_singleton.mp hv))⟩

theorem Joined.mono {more : List κ} (h : Joined G through k l) (hsub : ∀ v ∈ through, v ∈ more) :
    Joined G more k l := by
  obtain ⟨p, hp⟩ := h
  exact ⟨p, fun v hv => (hp v hv).imp_right (Or.imp_right (hsub v))⟩

/-- Two walks compose at a vertex that is one of the given ones. -/
theorem Joined.trans (h : Joined G through k l) (h' : Joined G through l m) (hl : l ∈ through) :
    Joined G through k m := by
  obtain ⟨p, hp⟩ := h
  obtain ⟨q, hq⟩ := h'
  refine ⟨p.append q, fun v hv => ?_⟩
  rcases (SimpleGraph.Walk.mem_support_append_iff p q).mp hv with hv | hv
  · rcases hp v hv with rfl | rfl | hv
    · exact Or.inl rfl
    · exact Or.inr (Or.inr hl)
    · exact Or.inr (Or.inr hv)
  · rcases hq v hv with rfl | rfl | hv
    · exact Or.inr (Or.inr hl)
    · exact Or.inr (Or.inl rfl)
    · exact Or.inr (Or.inr hv)

/-- A walk can be cut down to a path, over no other vertices. -/
theorem Joined.exists_path [DecidableEq κ] (h : Joined G through k l) :
    ∃ p : G.Walk k l, p.IsPath ∧ ∀ v ∈ p.support, v = k ∨ v = l ∨ v ∈ through := by
  obtain ⟨p, hp⟩ := h
  exact ⟨p.bypass, p.bypass_isPath, fun v hv => hp v (p.support_bypass_subset_support hv)⟩

end Walks

/-! ### What a step keeps -/

variable {κ α : Type} [LinearOrder κ] [Scalar α] {D : Decompositions α} {widths : Assignment κ ℕ}
  {remaining rest final : List (LinearEquation κ α)} {conditionals : List (Conditional κ α)}
  {frontal : κ} {ordering taken : List κ} {out : StepRows α}
  {hardRest softRest : List (LinearEquation κ α)} {c : Conditional κ α} {G : SimpleGraph κ}

omit [LinearOrder κ] [Scalar α] in
/-- Any two variables of one equation are joined over the variables taken out. -/
def Traced (G : SimpleGraph κ) (taken : List κ) (equations : List (LinearEquation κ α)) : Prop :=
  ∀ r ∈ equations, ∀ k ∈ r.keys, ∀ l ∈ r.keys, Joined G taken k l

/-- Before the first step two variables of one equation are adjacent. -/
theorem traced_prepared (s : LinearSystem κ α) : Traced s.graph [] (prepared s) := by
  intro r hr k hk l hl
  obtain ⟨r, hr', rfl⟩ := List.mem_map.mp hr
  have hkeys : (if r.isHard then r else r.weighted).keys = r.keys := by
    split_ifs
    · rfl
    · exact keys_weighted r
  rw [hkeys] at hk hl
  by_cases hkl : k = l
  · exact hkl ▸ Joined.refl s.graph [] k
  · exact Joined.of_adj ⟨hkl, r, hr', hk, hl⟩

omit [Scalar α] in
/-- The frontal variable shares an equation with every variable of the separator. -/
theorem Traced.joined_separating (h : Traced G taken remaining) {k : κ}
    (hk : k ∈ (separating widths remaining frontal).map Prod.fst) :
    Joined G taken frontal k ∧ Joined G taken k frontal := by
  obtain ⟨-, hk⟩ := mem_separating.mp hk
  obtain ⟨r, hr, hkr⟩ := mem_mentioned.mp hk
  obtain ⟨hr, hfr⟩ := mem_touching.mp hr
  exact ⟨h r hr frontal hfr k hkr, h r hr k hkr frontal hfr⟩

/-- **A step keeps the equations traced**: two variables of its remainders are joined by way of
its variable. -/
theorem IsStep.traced (hstep : IsStep D widths remaining frontal out hardRest softRest c rest)
    (h : Traced G taken remaining) : Traced G (taken ++ [frontal]) rest := by
  have hsub : ∀ v ∈ taken, v ∈ taken ++ [frontal] := fun v hv => List.mem_append_left _ hv
  intro r hr k hk l hl
  rw [hstep.rest_eq] at hr
  rcases List.mem_append.mp hr with hr | hr
  · exact (h r (mem_untouched.mp hr).1 k hk l hl).mono hsub
  · have hover : ∀ k ∈ r.keys, k ∈ (separating widths remaining frontal).map Prod.fst :=
      fun k hk => by
        obtain ⟨b, hb, rfl⟩ := mem_keys_iff.mp hk
        exact List.mem_map.mpr ⟨_, hstep.mem_separating hr hb, rfl⟩
    exact ((h.joined_separating (hover k hk)).2.mono hsub).trans
      ((h.joined_separating (hover l hl)).1.mono hsub)
      (List.mem_append_right _ List.mem_cons_self)

/-! ### The run -/

/-- A run makes one conditional for each variable of the ordering. -/
theorem map_frontal_of_eliminateAll : ∀ {ordering : List κ} {remaining : List (LinearEquation κ α)}
    {conditionals : List (Conditional κ α)},
    eliminateAll D widths ordering remaining = .ok (conditionals, final) →
      conditionals.map Conditional.frontal = ordering
  | [], _, _, h => by
    cases h
    rfl
  | frontal :: ordering, remaining, conditionals, h => by
    obtain ⟨c, rest, later, hnext, hrun, rfl⟩ := eliminateAll_cons_eq_ok h
    obtain ⟨out, hardRest, softRest, hstep⟩ := isStep_of_eliminateNext hnext
    rw [List.map_cons, hstep.frontal_eq, map_frontal_of_eliminateAll hrun]

/-- **The parents of every conditional of a run are joined to its variable** over the variables
taken out before it, by induction on the ordering. -/
theorem joined_parents : ∀ {ordering taken : List κ} {remaining : List (LinearEquation κ α)}
    {conditionals before after : List (Conditional κ α)} {c : Conditional κ α},
    eliminateAll D widths ordering remaining = .ok (conditionals, final) →
    Traced G taken remaining → conditionals = before ++ c :: after →
      ∀ k ∈ c.parentKeys, Joined G (taken ++ before.map Conditional.frontal) c.frontal k
  | [], _, _, _, _, _, _, h, _, hsplit => by
    cases h
    exact absurd hsplit (by simp)
  | frontal :: ordering, taken, remaining, conditionals, before, after, c, h, htraced, hsplit => by
    obtain ⟨c', rest, later, hnext, hrun, rfl⟩ := eliminateAll_cons_eq_ok h
    obtain ⟨out, hardRest, softRest, hstep⟩ := isStep_of_eliminateNext hnext
    intro k hk
    cases before with
    | nil =>
      obtain ⟨rfl, rfl⟩ := List.cons.inj hsplit
      rw [Conditional.parentKeys, hstep.parents_eq] at hk
      rw [hstep.frontal_eq, List.map_nil, List.append_nil]
      exact (htraced.joined_separating hk).1
    | cons c₀ before =>
      obtain ⟨rfl, hlater⟩ := List.cons.inj hsplit
      have hjoined := joined_parents hrun (hstep.traced htraced) hlater k hk
      rwa [List.append_assoc, ← hstep.frontal_eq] at hjoined

/-- **Fill-in stays within elimination paths.** If `k` is a parent of the conditional of `f`,
the graph of the system has a path from `f` to `k` all of whose interior keys come before `f` in
the ordering. -/
theorem exists_path_to_parent {s : LinearSystem κ α} {net : BayesNet κ α}
    (h : eliminate D s ordering = .ok net) {before after : List (Conditional κ α)}
    (hnet : net.conditionals = before ++ c :: after) {k : κ} (hk : k ∈ c.parentKeys) :
    ordering = before.map Conditional.frontal ++ c.frontal :: after.map Conditional.frontal ∧
      ∃ p : s.graph.Walk c.frontal k, p.IsPath ∧
        ∀ v ∈ p.support, v = c.frontal ∨ v = k ∨ v ∈ before.map Conditional.frontal := by
  obtain ⟨w, final, -, hrun, -⟩ := eliminate_eq_ok_iff.mp h
  refine ⟨?_, (joined_parents hrun (traced_prepared s) hnet k hk).exists_path⟩
  rw [← map_frontal_of_eliminateAll hrun, hnet, List.map_append, List.map_cons]

/-- The soft equations `x₀ + x₁ = 1`, `x₀ + x₂ = 2`, `x₁ = 1` and `x₂ = 1`. -/
def softFork {α : Type} [Scalar α] : LinearSystem ℕ α :=
  ⟨[sumEquation false [0, 1] 1, sumEquation false [0, 2] 2.0, sumEquation false [1] 1,
    sumEquation false [2] 1]⟩

/-- Binary64 numbers. No equation of the fork joins `x₁` and `x₂`, but `x₂` becomes a parent of
`x₁`, by way of `x₀`. -/
theorem exists_path_softFork : ¬(softFork (α := Float)).graph.Adj 1 2 ∧
    ∃ c₀ c₁ c₂ : Conditional ℕ Float, eliminate .standard softFork [0, 1, 2] = .ok ⟨[c₀, c₁, c₂]⟩ ∧
      c₀.frontal = 0 ∧ c₁.frontal = 1 ∧ c₁.parentKeys = [2] ∧
      ∃ p : (softFork (α := Float)).graph.Walk c₁.frontal 2, p.IsPath ∧
        ∀ v ∈ p.support, v = c₁.frontal ∨ v = 2 ∨ v ∈ [c₀.frontal] := by
  refine ⟨fun h => absurd h.2 (by decide), ?_⟩
  have hrun : ((eliminate .standard (softFork (α := Float)) [0, 1, 2]).toOption.map fun net =>
      net.conditionals.map Conditional.parentKeys) = some [[1, 2], [2], []] := by decide +kernel
  obtain ⟨⟨conditionals⟩, hnet, hparents⟩ := Option.map_eq_some_iff.mp hrun
  obtain ⟨c₀, c₁, c₂, rfl⟩ := List.length_eq_three.mp (by simpa using congrArg List.length hparents)
  have hc₁ : c₁.parentKeys = [2] := (List.cons.inj (List.cons.inj hparents).2).1
  have hok : eliminate .standard (softFork (α := Float)) [0, 1, 2] = .ok ⟨[c₀, c₁, c₂]⟩ :=
    Except.toOption_eq_some.mp hnet
  obtain ⟨hordering, hpath⟩ := exists_path_to_parent hok (show _ = [c₀] ++ c₁ :: [c₂] from rfl)
    (hc₁ ▸ List.mem_cons_self)
  obtain ⟨h₀, htail⟩ := List.cons.inj hordering
  exact ⟨c₀, c₁, c₂, hok, h₀.symm, (List.cons.inj htail).1.symm, hc₁, hpath⟩

end Elimination
end Kinodynamics
