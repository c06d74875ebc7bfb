/-
# Energies along a run

At every valuation, a step takes the energy of the hard equations and that of the soft
ones apart: a part that its conditional has, the energy of the equations left, and an
amount that is lost with rows over no variables and is the same for all valuations. For
the soft equations this holds where the hard part of the conditional vanishes; where it
does not, a hard equation is violated and the soft ones do not count. The same holds of a
whole run (`carries_of_eliminateAll`), since it passes from one step to the next
(`Carries.cons`).

Key definitions: `Elimination.hardEnergy`, `Elimination.softEnergy`,
`Elimination.Carries`, `Elimination.ExactRanks`.
Key theorems: `Elimination.IsStep.carries`, `Elimination.Carries.cons`,
`Elimination.carries_of_eliminateAll`.
-/
import Kinodynamics.Proofs.Elimination.HardStep
import Kinodynamics.Proofs.Elimination.Shapes
import Kinodynamics.Proofs.Elimination.Stack

namespace Kinodynamics
namespace Elimination

variable {κ : Type}

/-- The energy of the hard equations. -/
def hardEnergy (equations : List (LinearEquation κ ℝ)) (x : Valuation κ) : ℝ :=
  totalEnergy (equations.filter fun r => r.isHard) 1 x

/-- The energy of the soft equations. -/
def softEnergy (equations : List (LinearEquation κ ℝ)) (x : Valuation κ) : ℝ :=
  totalEnergy (equations.filter fun r => !r.isHard) 1 x

theorem hardEnergy_nonneg (equations : List (LinearEquation κ ℝ)) (x : Valuation κ) :
    0 ≤ hardEnergy equations x := totalEnergy_nonneg _ _ _

theorem softEnergy_nonneg (equations : List (LinearEquation κ ℝ)) (x : Valuation κ) :
    0 ≤ softEnergy equations x := totalEnergy_nonneg _ _ _

/-- From equations `before` to equations `after`, with the energy of `conditionals` in
between. At each valuation `fixing` is the part of the conditionals that the hard equations
have, and `settling` the part that the soft ones have. -/
def Carries (before after : List (LinearEquation κ ℝ)) (conditionals : List (Conditional κ ℝ)) :
    Prop :=
  ∃ lostHard lostSoft : ℝ, 0 ≤ lostHard ∧ 0 ≤ lostSoft ∧ ∀ x : Valuation κ,
    ∃ fixing settling : ℝ, 0 ≤ fixing ∧ 0 ≤ settling ∧
      hardEnergy before x = fixing + hardEnergy after x + lostHard ∧
      (fixing = 0 → softEnergy before x = settling + softEnergy after x + lostSoft) ∧
      BayesNet.energy conditionals x = fixing + settling

theorem Carries.refl (equations : List (LinearEquation κ ℝ)) : Carries equations equations [] :=
  ⟨0, 0, le_rfl, le_rfl, fun _ => ⟨0, 0, le_rfl, le_rfl, by ring, fun _ => by ring, by
    rw [add_zero]
    rfl⟩⟩

/-- **What one step carries and what a run carries add up.** -/
theorem Carries.cons {before between after : List (LinearEquation κ ℝ)} {c : Conditional κ ℝ}
    {conditionals : List (Conditional κ ℝ)} (h : Carries before between [c])
    (h' : Carries between after conditionals) : Carries before after (c :: conditionals) := by
  obtain ⟨lostHard, lostSoft, hlh, hls, hstep⟩ := h
  obtain ⟨lostHard', lostSoft', hlh', hls', hrun⟩ := h'
  refine ⟨lostHard + lostHard', lostSoft + lostSoft', by linarith, by linarith, fun x => ?_⟩
  obtain ⟨fixing, settling, hf, hs, hhard, hsoft, hcond⟩ := hstep x
  obtain ⟨fixing', settling', hf', hs', hhard', hsoft', hcond'⟩ := hrun x
  refine ⟨fixing + fixing', settling + settling', by linarith, by linarith, by linarith,
    fun hzero => ?_, ?_⟩
  · have hfixing : fixing = 0 := by linarith
    have hfixing' : fixing' = 0 := by linarith
    linarith [hsoft hfixing, hsoft' hfixing']
  · have hc : BayesNet.energy [c] x = c.energy x := add_zero _
    rw [BayesNet.energy_cons, ← hc]
    linarith

/-! ### The rows of a step -/

variable {D : Decompositions ℝ} {out : StepRows ℝ}

theorem glue_self (n : ℕ) (v : ℕ → ℝ) : glue n v (fun j => v (n + j)) = v := by
  funext j
  by_cases hj : j < n
  · exact glue_of_lt _ _ hj
  · rw [glue, if_neg hj, Nat.add_sub_cancel' (not_lt.mp hj)]

/-- The shapes of the rows of a step, and what it does to the energies of the stacks. -/
structure CarriesRows (n tail : ℕ) (hard soft : Dense ℝ) (out : StepRows ℝ) : Prop where
  ncols_conditional : out.conditional.ncols = n + tail
  ncols_hard : out.hard.ncols = tail
  ncols_soft : out.soft.ncols = tail
  energy : ∀ v : ℕ → ℝ, ∃ fixing settling : ℝ, 0 ≤ fixing ∧ 0 ≤ settling ∧
    hard.energy v = fixing + out.hard.energy (fun j => v (n + j)) ∧
    (fixing = 0 → soft.energy v = settling + out.soft.energy fun j => v (n + j)) ∧
    (out.conditional.view 0 0 n out.conditional.ncols).energy v = fixing + settling

/-- Without hard rows. -/
theorem carriesRows_of_stepSoft (hD : D.IsExact) {key : κ} {n tail : ℕ} {hard soft : Dense ℝ}
    (hs : soft.ncols = n + tail) (hrows : hard.nrows = 0) (h : stepSoft D key n soft = .ok out) :
    CarriesRows n tail hard soft out := by
  have hfits := fitsStep_of_stepSoft hD.toIsTriangular hs h
  obtain ⟨hpivots, rfl⟩ := stepSoft_eq_ok_iff.mp h
  refine ⟨hfits.ncols_conditional, hfits.ncols_hard, hfits.ncols_soft, fun v => ?_⟩
  have hsplit := energy_splitBelow hD hs hpivots v fun j => v (n + j)
  rw [glue_self] at hsplit
  have hview := energy_view_self (splitBelow (upperFactor D soft) n).1 rfl v
  refine ⟨0, (splitBelow (upperFactor D soft) n).1.energy v, le_rfl, Dense.energy_nonneg _ v, ?_,
    fun _ => hsplit, hview.trans (zero_add _).symm⟩
  rw [Dense.energy_of_nrows_eq_zero hrows, Dense.energy_of_nrows_eq_zero rfl, add_zero]

/-- With hard rows, if the counted rank is exact. -/
theorem carriesRows_of_stepHard (hD : D.IsExact) {key : κ} {n tail : ℕ} {hard soft : Dense ℝ}
    (hrank : ExactRank D n hard) (hc : hard.ncols = n + tail) (hs : soft.ncols = n + tail)
    (h : stepHard D key n hard soft = .ok out) : CarriesRows n tail hard soft out := by
  have hfits := fitsStep_of_stepHard hD.toIsTriangular hrank.length_eq hc h
  obtain ⟨gain, softTop, hstep⟩ := isHardStep_of_stepHard h
  exact ⟨hfits.ncols_conditional, hfits.ncols_hard, hfits.ncols_soft, hstep.energy hD hrank hc hs⟩

theorem isHard_of_isRemainder {layout : Layout κ} {rows : Dense ℝ} {noise : ℕ → Noise ℝ} {b : Bool}
    (hb : ∀ n, (noise n).isHard = b) {equations : List (LinearEquation κ ℝ)}
    (h : IsRemainder layout rows noise equations) : ∀ r ∈ equations, r.isHard = b := by
  rcases h with ⟨rfl, -⟩ | ⟨r, rfl, -, -, -, -, hnoise⟩
  · exact fun r hr => by cases hr
  · intro r' hr'
    rw [List.mem_singleton.mp hr', LinearEquation.isHard, hnoise, hb]

variable [LinearOrder κ] {widths : Assignment κ ℕ} {remaining rest : List (LinearEquation κ ℝ)}
  {frontal : κ} {hardRest softRest : List (LinearEquation κ ℝ)} {c : Conditional κ ℝ}

/-- The rows of a step, whichever way it goes. -/
theorem IsStep.carriesRows (hD : D.IsExact)
    (hrank : hardOn remaining frontal ≠ [] →
      ExactRank D (widthOf widths frontal) (hardStack widths remaining frontal))
    (h : IsStep D widths remaining frontal out hardRest softRest c rest) :
    CarriesRows (widthOf widths frontal) (width (separating widths remaining frontal) + 1)
      (hardStack widths remaining frontal) (softStack widths remaining frontal) out := by
  have hcols : ∀ equations : List (LinearEquation κ ℝ),
      (stackRows (layoutOf widths remaining frontal) equations).ncols =
        widthOf widths frontal + (width (separating widths remaining frontal) + 1) := fun _ =>
    Nat.add_assoc _ _ _
  have hred := h.reduced_eq
  unfold reduced at hred
  split_ifs at hred with hhard
  · have hnil : hardOn remaining frontal = [] := List.isEmpty_iff.mp hhard
    refine carriesRows_of_stepSoft hD (hcols _) ?_ hred
    rw [hardStack, hnil]
    rfl
  · have hne : hardOn remaining frontal ≠ [] := fun h0 => hhard (by rw [h0]; rfl)
    exact carriesRows_of_stepHard hD (hrank hne) (hcols _) (hcols _) hred

/-! ### The equations of a step -/

/-- The energy of the equations that pass a test is that of those on the frontal variable and
of the others. -/
theorem energy_touching (p : LinearEquation κ ℝ → Bool) (remaining : List (LinearEquation κ ℝ))
    (frontal : κ) (t : ℝ) (x : Valuation κ) :
    totalEnergy (remaining.filter p) t x =
      totalEnergy ((touching remaining frontal).filter p) t x +
        totalEnergy ((untouched remaining frontal).filter p) t x := by
  rw [totalEnergy_filter fun r => r.mentions frontal, List.filter_comm, touching, untouched]
  congr 2
  exact List.filter_comm _ _ _

/-- The stacks of a step have the energies of the equations on the frontal variable. -/
theorem energy_stack (hfit : Fitted widths remaining) (p : LinearEquation κ ℝ → Bool)
    (t : ℝ) (x : Valuation κ) :
    (stackRows (layoutOf widths remaining frontal) ((touching remaining frontal).filter p)).energy
        (spread t x (layoutOf widths remaining frontal)) =
      totalEnergy ((touching remaining frontal).filter p) t x :=
  energy_stackRows nodup_layoutOf
    (fun _ hr _ hb => hfit.mem_layoutOf (List.mem_of_mem_filter hr) hb) t x

/-- The hard equations after a step: the untouched ones and the hard remainder. -/
theorem IsStep.filter_hard_rest (h : IsStep D widths remaining frontal out hardRest softRest c rest) :
    rest.filter (fun r => r.isHard) =
      (untouched remaining frontal).filter (fun r => r.isHard) ++ hardRest := by
  have hall : hardRest.filter (fun r => r.isHard) = hardRest :=
    List.filter_eq_self.mpr (isHard_of_isRemainder (b := true) (fun _ => rfl) h.isHardRest)
  have hsoft := isHard_of_isRemainder (b := false) (fun _ => rfl) h.isSoftRest
  have hnone : softRest.filter (fun r => r.isHard) = [] :=
    List.filter_eq_nil_iff.mpr fun r hr => by simp [hsoft r hr]
  rw [h.rest_eq, List.filter_append, List.filter_append, hall, hnone, List.append_nil]

/-- The soft equations after a step: the untouched ones and the soft remainder. -/
theorem IsStep.filter_soft_rest (h : IsStep D widths remaining frontal out hardRest softRest c rest) :
    rest.filter (fun r => !r.isHard) =
      (untouched remaining frontal).filter (fun r => !r.isHard) ++ softRest := by
  have hhard := isHard_of_isRemainder (b := true) (fun _ => rfl) h.isHardRest
  have hsoft := isHard_of_isRemainder (b := false) (fun _ => rfl) h.isSoftRest
  have hnone : hardRest.filter (fun r => !r.isHard) = [] :=
    List.filter_eq_nil_iff.mpr fun r hr => by simp [hhard r hr]
  have hall : softRest.filter (fun r => !r.isHard) = softRest :=
    List.filter_eq_self.mpr fun r hr => by simp [hsoft r hr]
  rw [h.rest_eq, List.filter_append, List.filter_append, hall, hnone, List.nil_append]

/-- **A step carries the energies**, if its counted rank is exact. -/
theorem IsStep.carries (hD : D.IsExact) (hfit : Fitted widths remaining)
    (hrank : hardOn remaining frontal ≠ [] →
      ExactRank D (widthOf widths frontal) (hardStack widths remaining frontal))
    (h : IsStep D widths remaining frontal out hardRest softRest c rest) :
    Carries remaining rest [c] := by
  have hrows := h.carriesRows hD hrank
  set sep := separating widths remaining frontal with hsep
  have htail : ∀ x, (fun j => spread 1 x (layoutOf widths remaining frontal)
      (widthOf widths frontal + j)) = spread 1 x sep := fun x => by
    funext j
    exact spread_cons_add 1 x frontal (widthOf widths frontal) j sep
  refine ⟨if sep.isEmpty then out.hard.energy fun _ => -1 else 0,
    if sep.isEmpty then out.soft.energy fun _ => -1 else 0, ?_, ?_, fun x => ?_⟩
  · split_ifs
    · exact Dense.energy_nonneg _ _
    · exact le_rfl
  · split_ifs
    · exact Dense.energy_nonneg _ _
    · exact le_rfl
  obtain ⟨fixing, settling, hf, hs, hhard, hsoft, hcond⟩ :=
    hrows.energy (spread 1 x (layoutOf widths remaining frontal))
  rw [htail, h.isHardRest.energy_eq hrows.ncols_hard, hardStack, hardOn, energy_stack hfit] at hhard
  rw [htail, h.isSoftRest.energy_eq hrows.ncols_soft, softStack, softOn, energy_stack hfit] at hsoft
  refine ⟨fixing, settling, hf, hs, ?_, fun hzero => ?_, ?_⟩
  · rw [hardEnergy, energy_touching _ remaining frontal, hhard, hardEnergy, h.filter_hard_rest,
      totalEnergy_append]
    ring
  · rw [softEnergy, energy_touching _ remaining frontal, hsoft hzero, softEnergy,
      h.filter_soft_rest, totalEnergy_append]
    ring
  · rw [BayesNet.energy_cons, h.conditional_eq,
      energy_conditionalOf (hrows.ncols_conditional.trans (Nat.add_assoc _ _ _).symm), hcond]
    exact add_zero _

/-! ### The run -/

/-- At every step of the run that hard equations take part in, the spectrum is exact and the
singular values that are not counted are zero. -/
def ExactRanks (D : Decompositions ℝ) (widths : Assignment κ ℕ) :
    List κ → List (LinearEquation κ ℝ) → Prop
  | [], _ => True
  | frontal :: ordering, remaining =>
    (hardOn remaining frontal ≠ [] →
      ExactRank D (widthOf widths frontal) (hardStack widths remaining frontal)) ∧
    ∀ c rest, eliminateNext D widths remaining frontal = .ok (c, rest) →
      ExactRanks D widths ordering rest

/-- **A run carries the energies**, by induction on the ordering. -/
theorem carries_of_eliminateAll (hD : D.IsExact) : ∀ {ordering : List κ}
    {remaining final : List (LinearEquation κ ℝ)} {conditionals : List (Conditional κ ℝ)},
    Fitted widths remaining → ExactRanks D widths ordering remaining →
      eliminateAll D widths ordering remaining = .ok (conditionals, final) →
      Carries remaining final conditionals
  | [], remaining, final, conditionals, _, _, h => by
    cases h
    exact Carries.refl _
  | frontal :: ordering, remaining, final, conditionals, hfit, hranks, h => by
    obtain ⟨c, rest, later, hnext, hrun, rfl⟩ := eliminateAll_cons_eq_ok h
    obtain ⟨out, hardRest, softRest, hstep⟩ := isStep_of_eliminateNext hnext
    exact (hstep.carries hD hfit hranks.1).cons
      (carries_of_eliminateAll hD (hstep.fitted hfit) (hranks.2 c rest hnext) hrun)

theorem hardOn_of_soft (hsoft : ∀ r ∈ remaining, r.isHard = false) (frontal : κ) :
    hardOn remaining frontal = [] :=
  List.filter_eq_nil_iff.mpr fun r hr => by simp [hsoft r (mem_touching.mp hr).1]

/-- A step on soft equations reduces their stack. -/
theorem IsStep.stepSoft_eq (h : IsStep D widths remaining frontal out hardRest softRest c rest)
    (hsoft : ∀ r ∈ remaining, r.isHard = false) :
    stepSoft D frontal (widthOf widths frontal) (softStack widths remaining frontal) = .ok out := by
  have hred := h.reduced_eq
  rwa [reduced, hardOn_of_soft hsoft, List.isEmpty_nil, if_pos rfl] at hred

/-- Soft equations leave no hard remainder. -/
theorem IsStep.hardRest_eq_nil (h : IsStep D widths remaining frontal out hardRest softRest c rest)
    (hsoft : ∀ r ∈ remaining, r.isHard = false) : hardRest = [] := by
  obtain ⟨-, hout⟩ := stepSoft_eq_ok_iff.mp (h.stepSoft_eq hsoft)
  rcases h.isHardRest with ⟨hnil, -⟩ | ⟨r, -, -, hrows, -⟩
  · exact hnil
  · rw [hout] at hrows
    exact absurd rfl hrows

/-- Soft equations leave soft equations only. -/
theorem IsStep.soft_rest (h : IsStep D widths remaining frontal out hardRest softRest c rest)
    (hsoft : ∀ r ∈ remaining, r.isHard = false) : ∀ r ∈ rest, r.isHard = false := by
  intro r hr
  rw [h.rest_eq, h.hardRest_eq_nil hsoft, List.nil_append, List.mem_append] at hr
  rcases hr with hr | hr
  · exact hsoft r (mem_untouched.mp hr).1
  · exact isHard_of_isRemainder (b := false) (fun _ => rfl) h.isSoftRest r hr

/-- Without hard equations there is no rank to count. -/
theorem exactRanks_of_soft : ∀ {ordering : List κ} {remaining : List (LinearEquation κ ℝ)},
    (∀ r ∈ remaining, r.isHard = false) → ExactRanks D widths ordering remaining
  | [], _, _ => trivial
  | frontal :: ordering, remaining, hsoft => by
    refine ⟨fun hne => absurd (hardOn_of_soft hsoft frontal) hne, fun c rest hnext => ?_⟩
    obtain ⟨out, hardRest, softRest, hstep⟩ := isStep_of_eliminateNext hnext
    exact exactRanks_of_soft (hstep.soft_rest hsoft)

end Elimination
end Kinodynamics
