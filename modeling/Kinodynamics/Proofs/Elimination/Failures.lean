/-
# How elimination fails

Elimination reports a mismatch just for a system with a variable of two widths. On every other
system, and for every ordering, it returns a net, or it reports a variable of the ordering as
under-determined or singular, or a variable of the system that the ordering does not name
(`eliminate_cases`). It never stops at a fault of sizes: the diagonal that a step asks pivots of is
long enough. On soft rows this is the count of rows made before the step; on hard rows it is that an
exact spectrum has no more positive eigenvalues than the block has rows. The blocks must have columns,
as the spectrum of an empty matrix is not taken.

Key definitions: `Outcome.Finishes`, `Elimination.FailsAt`.
Key theorems: `Elimination.finishes_stepHard`, `Elimination.finishes_eliminateNext`,
`Elimination.finishes_eliminateAll`, `Elimination.eliminate_cases`.
-/
import Kinodynamics.Proofs.Elimination.Checked
import Kinodynamics.Proofs.Elimination.Rank
import Kinodynamics.Proofs.Elimination.Rows
import Kinodynamics.Proofs.Elimination.Spectrum
import Kinodynamics.Proofs.Elimination.Structure

namespace Kinodynamics

/-! ### Answers and reported errors -/

namespace Outcome

variable {ε β γ : Type} {p q : ε → Prop}

/-- An answer, or a reported error of a certain kind. -/
def Finishes (p : ε → Prop) (x : Outcome ε β) : Prop := (∃ b, x = .ok b) ∨ ∃ e, x = fail e ∧ p e

theorem finishes_ok (b : β) : Finishes p (.ok b) := Or.inl ⟨b, rfl⟩

theorem finishes_fail {e : ε} (h : p e) : Finishes p (fail e : Outcome ε β) := Or.inr ⟨e, rfl, h⟩

theorem Finishes.mono {x : Outcome ε β} (h : x.Finishes p) (hpq : ∀ e, p e → q e) : x.Finishes q :=
  h.imp_right fun he => he.imp fun e => And.imp_right (hpq e)

/-- A computation finishes if both of its parts do. -/
theorem Finishes.bind {x : Outcome ε β} {f : β → Outcome ε γ} (hx : x.Finishes p)
    (hf : ∀ b, x = .ok b → (f b).Finishes p) : (x >>= f).Finishes p := by
  rcases hx with ⟨b, rfl⟩ | ⟨e, rfl, he⟩
  · exact hf b rfl
  · exact finishes_fail he

end Outcome

namespace Elimination

open Outcome (Finishes finishes_ok finishes_fail)

variable {κ : Type}

/-- The errors of a step that takes out a variable. -/
def FailsAt (key : κ) (e : EliminationError κ) : Prop := e = .underDetermined key ∨ e = .singular key

/-! ### One variable -/

section Steps

variable {α : Type} [Scalar α] {key : κ} {n tail : ℕ}

/-- Pivots pass or one is reported, if there are as many. -/
theorem finishes_requirePivots {r : Dense α} (hr : n ≤ r.nrows) (hc : n ≤ r.ncols) :
    (requirePivots key r n).Finishes (FailsAt key) := by
  rcases requirePivots_cases key r n with h | h | ⟨-, hshort⟩
  · rw [h]
    exact finishes_ok ()
  · rw [h]
    exact finishes_fail (Or.inr rfl)
  · exact absurd ⟨hr, hc⟩ hshort

theorem finishes_upperFactor {D : Decompositions α} (hD : D.IsTriangular) {m : Dense α}
    (hr : n ≤ m.nrows) (hc : n ≤ m.ncols) :
    (requirePivots key (upperFactor D m) n).Finishes (FailsAt key) := by
  refine finishes_requirePivots ?_ ?_
  · rw [nrows_upperFactor hD]
    exact le_min hr hc
  · rwa [ncols_upperFactor hD]

theorem finishes_stepSoft {D : Decompositions α} (hD : D.IsTriangular) {soft : Dense α}
    (hr : n ≤ soft.nrows) (hc : n ≤ soft.ncols) : (stepSoft D key n soft).Finishes (FailsAt key) :=
  (finishes_upperFactor hD hr hc).bind fun _ _ => finishes_ok _

theorem finishes_rangeGain {D : Decompositions α} {hard : Dense α} :
    (rangeGain D n hard key).Finishes (FailsAt key) := by
  unfold rangeGain
  cases (rangeFactor D n hard).solveUpperColumns (rangeTail D n hard) with
  | some gain => exact finishes_ok gain
  | none => exact finishes_fail (Or.inr rfl)

theorem finishes_splitSoft {D : Decompositions α} (hD : D.IsTriangular) {free : ℕ} {projected : Dense α}
    (hr : free ≤ projected.nrows) (hc : free ≤ projected.ncols) :
    (splitSoft D key free tail projected).Finishes (FailsAt key) := by
  unfold splitSoft
  split_ifs
  · exact finishes_ok _
  · exact (finishes_upperFactor hD hr hc).bind fun _ _ => finishes_ok _

/-- **A step on hard rows finishes** if it counts no more than there are hard rows. -/
theorem finishes_stepHard {D : Decompositions α} (hD : D.IsTriangular) (hS : D.HasFullSpectrum)
    {hard soft : Dense α} (hn : 0 < n) (hrank : frontalRank D n hard ≤ hard.nrows) :
    (stepHard D key n hard soft).Finishes (FailsAt key) := by
  have hlength := (frontalRank_add_length D n hard).trans (hS.length_eq n hard)
  rw [stepHard_eq, if_neg hn.ne']
  have hrange : frontalRank D n hard ≤ (rangeStack D n hard).ncols := Nat.le_add_right _ _
  refine (finishes_upperFactor (m := rangeStack D n hard) hD hrank hrange).bind fun _ _ => ?_
  refine finishes_rangeGain.bind fun gain _ => ?_
  split_ifs with hfew
  · exact finishes_fail (Or.inl rfl)
  have hprojected : n - frontalRank D n hard ≤ (softProjected D n hard soft gain).ncols := by
    show _ ≤ (kernelPairs D n hard).length + (hard.ncols - n)
    omega
  have hsplit : (splitSoft D key (n - frontalRank D n hard) (hard.ncols - n)
      (softProjected D n hard soft gain)).Finishes (FailsAt key) :=
    finishes_splitSoft hD (not_lt.mp hfew) hprojected
  refine hsplit.bind fun parts _ => ?_
  have hrecombined : n ≤ (recombined D n hard parts.1).nrows := by
    show n ≤ frontalRank D n hard + (n - frontalRank D n hard)
    omega
  exact (finishes_upperFactor hD hrecombined (Nat.le_add_right _ _)).bind fun _ _ => finishes_ok _

end Steps

/-! ### The run -/

section Run

variable [LinearOrder κ] {D : Decompositions ℝ} {widths : Assignment κ ℕ}
  {remaining : List (LinearEquation κ ℝ)} {frontal : κ}

theorem finishes_reduced (hD : D.IsTriangular) (hS : D.HasFullSpectrum) (hspectrum : D.HasExactSpectrum)
    (hpos : 0 < widthOf widths frontal)
    (hrows : widthOf widths frontal ≤ totalRows (touching remaining frontal)) :
    (reduced D widths remaining frontal).Finishes (FailsAt frontal) := by
  unfold reduced
  split_ifs with hsoft
  · refine finishes_stepSoft hD ?_ (Nat.le_add_right_of_le (Nat.le_add_right _ _))
    have hsplit := totalRows_filter (fun r => r.isHard) (touching remaining frontal)
    have hnone : totalRows (hardOn remaining frontal) = 0 := by rw [List.isEmpty_iff.mp hsoft, totalRows]
    rw [hardOn] at hnone
    rw [softStack, nrows_stackRows, softOn]
    omega
  · have hexact := hspectrum _ (isSymmetric_frontalGram (widthOf widths frontal)
      (hardStack widths remaining frontal))
    exact finishes_stepHard hD hS hpos ((frontalRank_le_rank hexact).trans (Dense.rank_le_nrows _))

/-- **A step finishes.** -/
theorem finishes_eliminateNext (hD : D.IsTriangular) (hS : D.HasFullSpectrum)
    (hspectrum : D.HasExactSpectrum) (hfit : Fitted widths remaining)
    (hpos : ∀ k n, widths.get? k = some n → 0 < n) :
    (eliminateNext D widths remaining frontal).Finishes (FailsAt frontal) := by
  rw [eliminateNext_eq]
  split_ifs with hempty hfew
  · exact finishes_fail (Or.inl rfl)
  · exact finishes_fail (Or.inl rfl)
  have hpos := hpos _ _ (hfit.get?_eq_widthOf
    (frontal_mem_mentioned fun h => hempty (List.isEmpty_iff.mpr h)))
  refine (finishes_reduced hD hS hspectrum hpos (not_lt.mp hfew)).bind fun out _ => ?_
  obtain ⟨more, hmore⟩ := exists_remainders widths remaining frontal out
  rw [hmore]
  exact finishes_ok _

/-- **So does a run**, by induction on the ordering: the equations that are left keep the widths. -/
theorem finishes_eliminateAll (hD : D.IsTriangular) (hS : D.HasFullSpectrum)
    (hspectrum : D.HasExactSpectrum) (hpos : ∀ k n, widths.get? k = some n → 0 < n) :
    ∀ {ordering : List κ} {remaining : List (LinearEquation κ ℝ)}, Fitted widths remaining →
      (eliminateAll D widths ordering remaining).Finishes fun e => ∃ k ∈ ordering, FailsAt k e
  | [], _, _ => finishes_ok _
  | frontal :: ordering, remaining, hfit => by
    rw [eliminateAll]
    have hfirst : (eliminateNext D widths remaining frontal).Finishes (FailsAt frontal) :=
      finishes_eliminateNext hD hS hspectrum hfit hpos
    refine (hfirst.mono fun e he => ⟨frontal, List.mem_cons_self, he⟩).bind fun next hnext => ?_
    obtain ⟨c, rest⟩ := next
    obtain ⟨out, hardRest, softRest, hstep⟩ := isStep_of_eliminateNext hnext
    have hlater : (eliminateAll D widths ordering rest).Finishes fun e => ∃ k ∈ ordering, FailsAt k e :=
      finishes_eliminateAll hD hS hspectrum hpos (hstep.fitted hfit)
    refine (hlater.mono fun e he => ?_).bind fun _ _ => finishes_ok _
    obtain ⟨k, hk, he⟩ := he
    exact ⟨k, List.mem_cons_of_mem _ hk, he⟩

end Run

/-! ### Systems -/

section Systems

variable [LinearOrder κ] {D : Decompositions ℝ} {s : LinearSystem κ ℝ}

/-- The listed widths are those of blocks. -/
theorem pos_of_widths (hwide : ∀ r ∈ s.equations, ∀ b ∈ r.blocks, 0 < b.2.ncols)
    {w : Assignment κ ℕ} (hw : widths s = .ok w) : ∀ k n, w.get? k = some n → 0 < n := by
  intro k n hn
  rw [widths_eq_foldlM] at hw
  obtain ⟨-, hlisted, honly⟩ := foldlM_addWidth_eq_ok hw
  rcases honly k n hn with h | ⟨b, hb, rfl⟩
  · cases h
  · obtain ⟨r, hr, hbr⟩ := List.mem_flatMap.mp hb
    rw [hlisted b hb] at hn
    exact Option.some.inj hn ▸ hwide r hr b hbr

/-- On a consistent system elimination finishes. -/
theorem finishes_eliminate (hD : D.IsTriangular) (hS : D.HasFullSpectrum)
    (hspectrum : D.HasExactSpectrum) (hwide : ∀ r ∈ s.equations, ∀ b ∈ r.blocks, 0 < b.2.ncols)
    (ordering : List κ) (hs : s.Consistent) :
    (eliminate D s ordering).Finishes fun e =>
      (∃ k ∈ ordering, FailsAt k e) ∨ ∃ k ∈ s.keys, k ∉ ordering ∧ e = .notInOrdering k := by
  obtain ⟨w, hw⟩ := exists_widths hs
  have hfit := fitted_prepared (widths_eq_ok hw).1
  rw [eliminate, hw]
  refine ((finishes_eliminateAll hD hS hspectrum (pos_of_widths hwide hw) hfit).mono
    fun e he => Or.inl he).bind fun run hrun => ?_
  obtain ⟨conditionals, final⟩ := run
  simp only
  split
  · next k keys hfinal =>
    have hleft : k ∈ mentioned final := by
      rw [mentioned, hfinal]
      exact List.mem_cons_self
    obtain ⟨hbefore, hnot⟩ := mem_mentioned_final hrun hleft
    exact finishes_fail (Or.inr ⟨k, mem_keys_iff_prepared.mpr hbefore, hnot, rfl⟩)
  · exact finishes_ok _

/-- Blocks of two widths are reported first. -/
theorem eliminate_of_not_consistent (D : Decompositions ℝ) (ordering : List κ) (hs : ¬s.Consistent) :
    ∃ cause, eliminate D s ordering = Outcome.fail (.mismatch cause) := by
  cases hw : widths s with
  | ok w => exact absurd (exists_widths_iff.mp ⟨w, hw⟩) hs
  | error cause => exact ⟨cause, by rw [eliminate, hw]; rfl⟩

/-- **How elimination fails.** For exact decompositions, every system of blocks that have columns and
every ordering: a mismatch is reported just if some variable has blocks of two widths. Otherwise a net
is returned, or a key of the ordering is reported as under-determined or singular, or a key of the
system that is not in the ordering. No view, split or difference of matrices is out of range on the
way, no variable is missing from a layout and no remainder is rejected: a check that fails would stop
the checked run at a fault of sizes, which is not among the outcomes. -/
theorem eliminate_cases (hD : D.IsTriangular) (hS : D.HasFullSpectrum) (hspectrum : D.HasExactSpectrum)
    (hwide : ∀ r ∈ s.equations, ∀ b ∈ r.blocks, 0 < b.2.ncols) (ordering : List κ) :
    ((∃ cause, eliminate D s ordering = Outcome.fail (.mismatch cause)) ↔ ¬s.Consistent) ∧
      (s.Consistent → (∃ net, eliminate D s ordering = .ok net) ∨
        (∃ k ∈ ordering, eliminate D s ordering = Outcome.fail (.underDetermined k) ∨
          eliminate D s ordering = Outcome.fail (.singular k)) ∨
        ∃ k ∈ s.keys, k ∉ ordering ∧ eliminate D s ordering = Outcome.fail (.notInOrdering k)) ∧
      checkedEliminate D s ordering = eliminate D s ordering := by
  have hfinishes := finishes_eliminate hD hS hspectrum hwide ordering
  refine ⟨⟨fun ⟨cause, hcause⟩ hs => ?_, eliminate_of_not_consistent D ordering⟩, fun hs => ?_,
    checkedEliminate_eq hD hS s ordering⟩
  · rcases hfinishes hs with ⟨net, hnet⟩ | ⟨e, he, ⟨k, -, rfl | rfl⟩ | ⟨k, -, -, rfl⟩⟩
    · rw [hcause] at hnet
      cases hnet
    all_goals
      rw [hcause] at he
      cases he
  · rcases hfinishes hs with hok | ⟨e, he, ⟨k, hk, rfl | rfl⟩ | ⟨k, hk, hnot, rfl⟩⟩
    · exact Or.inl hok
    · exact Or.inr (Or.inl ⟨k, hk, Or.inl he⟩)
    · exact Or.inr (Or.inl ⟨k, hk, Or.inr he⟩)
    · exact Or.inr (Or.inr ⟨k, hk, hnot, he⟩)

end Systems

/-- The hard equation `x₀ + x₁ = 1` and the soft equation `x₀ = 1`. -/
def anchoredSum {α : Type} [Scalar α] : LinearSystem ℕ α :=
  ⟨[sumEquation true [0, 1] 1, sumEquation false [0] 1]⟩

theorem ncols_anchoredSum : ∀ r ∈ (anchoredSum (α := ℝ)).equations, ∀ b ∈ r.blocks, b.2.ncols = 1 := by
  intro r hr b hb
  rcases List.mem_pair.mp hr with rfl | rfl
  · obtain ⟨k, -, rfl⟩ := List.mem_map.mp hb
    rfl
  · obtain ⟨k, -, rfl⟩ := List.mem_map.mp hb
    rfl

/-- An ordering that repeats a key, has a foreign one and misses another. -/
theorem eliminate_anchoredSum :
    (∀ cause, eliminate .spectral anchoredSum [1, 1, 7] ≠ Outcome.fail (.mismatch cause)) ∧
      ((∃ net, eliminate .spectral anchoredSum [1, 1, 7] = .ok net) ∨
        (∃ k ∈ [1, 1, 7], eliminate .spectral anchoredSum [1, 1, 7] = Outcome.fail (.underDetermined k) ∨
          eliminate .spectral anchoredSum [1, 1, 7] = Outcome.fail (.singular k)) ∨
        ∃ k ∈ (anchoredSum (α := ℝ)).keys, k ∉ [1, 1, 7] ∧
          eliminate .spectral anchoredSum [1, 1, 7] = Outcome.fail (.notInOrdering k)) ∧
      checkedEliminate .spectral (anchoredSum (α := ℝ)) [1, 1, 7] =
        eliminate .spectral anchoredSum [1, 1, 7] := by
  have hconsistent : (anchoredSum (α := ℝ)).Consistent := fun b hb b' hb' _ => by
    obtain ⟨r, hr, hb⟩ := List.mem_flatMap.mp hb
    obtain ⟨r', hr', hb'⟩ := List.mem_flatMap.mp hb'
    rw [ncols_anchoredSum r hr b hb, ncols_anchoredSum r' hr' b' hb']
  obtain ⟨hmismatch, hcases, hchecked⟩ := eliminate_cases Decompositions.spectral_isExact.toIsTriangular
    Decompositions.spectral_hasFullSpectrum Decompositions.spectral_hasExactSpectrum
    (fun r hr b hb => (ncols_anchoredSum r hr b hb).symm ▸ Nat.one_pos) [1, 1, 7]
  exact ⟨fun cause hcause => hmismatch.mp ⟨cause, hcause⟩ hconsistent, hcases hconsistent, hchecked⟩

end Elimination

end Kinodynamics
