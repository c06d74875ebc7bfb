/-
# The solution of a net at the reals

Of a conditional the upper part of `r` is read only (`Conditional.triangular`). Every
conditional of a net holds exactly at the solution that back substitution finds
(`BayesNet.Agrees.defect_of_solve`), and nowhere else (`BayesNet.Agrees.eq_of_defect`): a
variable is determined by its parents, and the parents come later. For well-formed
conditionals the same is said with their energy (`BayesNet.energy_of_solve`,
`BayesNet.eq_of_energy_eq_zero`).

Key definitions: `Conditional.defect`, `Conditional.triangular`, `Conditional.energy`,
`BayesNet.energy`.
Key theorems: `Conditional.IsSquare.defect_of_solve`, `BayesNet.Agrees.defect_of_solve`,
`BayesNet.Agrees.eq_of_defect`, `BayesNet.energy_of_solve`, `BayesNet.eq_of_energy_eq_zero`.
-/
import Kinodynamics.Proofs.Dense.Triangular
import Kinodynamics.Proofs.Gaussian.BackSubstitution
import Kinodynamics.Proofs.Gaussian.Energy

namespace Kinodynamics

open Finset

namespace Conditional

variable {κ : Type}

/-- Row `i` of `r x_frontal + Σ Sⱼ x_parentⱼ - d`. -/
def defect (c : Conditional κ ℝ) (x : Valuation κ) (i : ℕ) : ℝ :=
  c.r.image (x c.frontal) i + (c.parents.map fun b => b.2.image (x b.1) i).sum - c.d.getD i 0

/-- The squared length of `r x_frontal + Σ Sⱼ x_parentⱼ - d`. -/
def energy (c : Conditional κ ℝ) (x : Valuation κ) : ℝ := ∑ i ∈ range c.r.nrows, c.defect x i ^ 2

theorem energy_nonneg (c : Conditional κ ℝ) (x : Valuation κ) : 0 ≤ c.energy x :=
  sum_nonneg fun _ _ => sq_nonneg _

theorem energy_eq_zero_iff {c : Conditional κ ℝ} {x : Valuation κ} :
    c.energy x = 0 ↔ ∀ i < c.r.nrows, c.defect x i = 0 := by
  rw [energy, sum_eq_zero_iff_of_nonneg fun _ _ => sq_nonneg _]
  simp

/-- The conditional as it is read: with zeros below the diagonal. -/
def triangular {α : Type} [Scalar α] (c : Conditional κ α) : Conditional κ α :=
  { c with r := c.r.upperPart }

variable {c : Conditional κ ℝ}

theorem upper_triangular (c : Conditional κ ℝ) : c.triangular.r.Upper := fun i j hij => by
  show c.r.upperPart.entry i j = 0
  rw [Dense.upperPart, Dense.entry_ofFn, if_pos hij, ite_self]

/-- A conditional without a zero pivot that holds at two valuations with the same values of its
parents has the same value of its variable. -/
theorem IsSquare.frontal_eq (h : c.IsSquare) (hregular : ∀ i < c.r.nrows, ¬Scalar.IsZero (c.r.entry i i))
    {x y : Valuation κ} (hx : ∀ i < c.r.nrows, c.triangular.defect x i = 0)
    (hy : ∀ i < c.r.nrows, c.triangular.defect y i = 0)
    (hparents : ∀ b ∈ c.parents, ∀ j < b.2.ncols, x b.1 j = y b.1 j) :
    ∀ j < c.r.nrows, x c.frontal j = y c.frontal j := by
  have hdiag : ∀ i < c.r.nrows, c.triangular.r.entry i i ≠ 0 := fun i hi h0 =>
    hregular i hi (Scalar.isZero_iff.mpr ((Dense.entry_upperPart le_rfl).symm.trans h0))
  refine Dense.eq_of_image_eq c.upper_triangular h.ncols_r hdiag fun i hi => ?_
  have hsum : (c.parents.map fun b => b.2.image (x b.1) i).sum =
      (c.parents.map fun b => b.2.image (y b.1) i).sum :=
    congrArg List.sum (List.map_congr_left fun b hb => b.2.image_congr (hparents b hb) i)
  have hxi : c.triangular.r.image (x c.frontal) i +
      (c.parents.map fun b => b.2.image (x b.1) i).sum - c.d.getD i 0 = 0 := hx i hi
  have hyi : c.triangular.r.image (y c.frontal) i +
      (c.parents.map fun b => b.2.image (y b.1) i).sum - c.d.getD i 0 = 0 := hy i hi
  rw [hsum] at hxi
  linarith

variable [DecidableEq κ]

/-- The right-hand side that is left when the parents are moved over. -/
theorem getD_of_foldlM_moveParent {x : Solution κ ℝ} {n : ℕ} :
    ∀ {parents : List (κ × Dense ℝ)} {rhs moved : List ℝ},
      parents.foldlM (moveParent x) rhs = .ok moved → rhs.length = n →
        moved.length = n ∧ ∀ i < n, moved.getD i 0 =
          rhs.getD i 0 - (parents.map fun b => b.2.image (valuation x b.1) i).sum
  | [], rhs, moved, h, hn => by
    cases h
    exact ⟨hn, fun i _ => by simp⟩
  | b :: parents, rhs, moved, h, hn => by
    rw [List.foldlM_cons] at h
    obtain ⟨next, hnext, h⟩ := Outcome.bind_eq_ok.mp h
    unfold moveParent at hnext
    split at hnext
    · cases hnext
    · next v hv =>
      split_ifs at hnext with hfit
      · cases hnext
        have hlen : (b.2.mulVec v).length = n := by rw [Dense.length_mulVec, hfit.2, hn]
        have hnext : (List.zipWith (· - ·) rhs (b.2.mulVec v)).length = n := by
          rw [List.length_zipWith, hlen, hn, Nat.min_self]
        obtain ⟨hmoved, hget⟩ := getD_of_foldlM_moveParent h hnext
        refine ⟨hmoved, fun i hi => ?_⟩
        rw [hget i hi, Scalar.getD_zipWith _ (hn ▸ hi) (hlen ▸ hi),
          LinearEquation.getD_mulVec _ _ (by rw [hfit.2, hn]; exact hi), List.map_cons,
          List.sum_cons, valuation_of_get? hv]
        ring
      · cases hnext

/-- **A conditional holds at the value it gives its variable.** -/
theorem IsSquare.defect_of_solve (h : c.IsSquare) {x : Solution κ ℝ} {v : List ℝ}
    (hv : c.solve x = .ok v) {y : Valuation κ} (hparents : ∀ k ∈ c.parentKeys, y k = valuation x k)
    (hfrontal : y c.frontal = (v.getD · 0)) {i : ℕ} (hi : i < c.r.nrows) :
    c.triangular.defect y i = 0 := by
  rw [solve, reducedRhs_eq] at hv
  obtain ⟨rhs, hrhs, hv⟩ := Outcome.bind_eq_ok.mp hv
  obtain ⟨hlen, hget⟩ := getD_of_foldlM_moveParent hrhs h.length_d
  have hshort : ¬rhs.length < c.r.nrows := by omega
  have hv := (if_neg hshort).symm.trans hv
  cases hvalue : c.r.solveUpper rhs with
  | none => rw [hvalue] at hv; cases hv
  | some value =>
    rw [hvalue] at hv
    cases hv
    have hvlen := Dense.length_of_solveUpper hvalue
    have himage : c.triangular.r.image (y c.frontal) i = rhs.getD i 0 := by
      have hsolved : c.triangular.r.solveUpper rhs = some value :=
        (Dense.solveUpper_upperPart c.r rhs).trans hvalue
      rw [← Dense.image_solveUpper c.upper_triangular h.ncols_r hsolved hi, hfrontal]
      refine Dense.image_congr c.triangular.r (fun j (hj : j < c.r.ncols) => ?_) i
      exact List.getD_append _ _ _ _ (by rw [hvlen, ← h.ncols_r]; exact hj)
    have hsum : (c.parents.map fun b => b.2.image (y b.1) i).sum =
        (c.parents.map fun b => b.2.image (valuation x b.1) i).sum :=
      congrArg List.sum (List.map_congr_left fun b hb => by
        rw [hparents b.1 (List.mem_map_of_mem hb)])
    show c.triangular.r.image (y c.frontal) i + (c.parents.map fun b => b.2.image (y b.1) i).sum -
      c.d.getD i 0 = 0
    rw [himage, hsum, hget i hi]
    ring

omit [DecidableEq κ] in
/-- A well-formed conditional has zeros below the diagonal. -/
theorem WellFormed.triangular_eq [LT κ] {dim : κ → ℕ} (h : c.WellFormed dim) : c.triangular = c := by
  have hr : c.r.upperPart = c.r := by
    refine Dense.ext_entry rfl rfl fun i j hi hj => ?_
    by_cases hij : j < i
    · rw [Scalar.isZero_iff.mp (h.isZero_below i j hij)]
      exact c.upper_triangular i j hij
    · exact Dense.entry_upperPart (not_lt.mp hij)
  rw [triangular, hr]

end Conditional

namespace BayesNet

variable {κ : Type}

/-- The energies of the conditionals added up. -/
def energy (conditionals : List (Conditional κ ℝ)) (x : Valuation κ) : ℝ :=
  (conditionals.map fun c => c.energy x).sum

theorem energy_cons (c : Conditional κ ℝ) (conditionals : List (Conditional κ ℝ))
    (x : Valuation κ) : energy (c :: conditionals) x = c.energy x + energy conditionals x := rfl

theorem energy_nonneg (conditionals : List (Conditional κ ℝ)) (x : Valuation κ) :
    0 ≤ energy conditionals x :=
  List.sum_nonneg fun e he => by
    obtain ⟨c, -, rfl⟩ := List.mem_map.mp he
    exact c.energy_nonneg x

/-- The energy of a net is zero just if every conditional holds. -/
theorem energy_cons_eq_zero_iff {c : Conditional κ ℝ} {conditionals : List (Conditional κ ℝ)}
    {x : Valuation κ} :
    energy (c :: conditionals) x = 0 ↔ c.energy x = 0 ∧ energy conditionals x = 0 := by
  rw [energy_cons]
  exact add_eq_zero_iff_of_nonneg (c.energy_nonneg x) (energy_nonneg conditionals x)

theorem energy_eq_zero_iff {x : Valuation κ} : ∀ {conditionals : List (Conditional κ ℝ)},
    energy conditionals x = 0 ↔ ∀ c ∈ conditionals, c.energy x = 0
  | [] => by simp [energy]
  | c :: conditionals => by
    rw [energy_cons_eq_zero_iff, energy_eq_zero_iff, List.forall_mem_cons]

/-- The energy of well-formed conditionals is zero just if each of them holds. -/
theorem energy_eq_zero_iff_defect [LT κ] {dim : κ → ℕ} {conditionals : List (Conditional κ ℝ)}
    (hwell : ∀ c ∈ conditionals, c.WellFormed dim) {x : Valuation κ} :
    energy conditionals x = 0 ↔
      ∀ c ∈ conditionals, ∀ i < c.r.nrows, c.triangular.defect x i = 0 := by
  refine energy_eq_zero_iff.trans (forall₂_congr fun c hc => ?_)
  rw [(hwell c hc).triangular_eq]
  exact Conditional.energy_eq_zero_iff

/-- **All conditionals of a solvable net hold at one point only**, by induction from the last
conditional to the first. -/
theorem Agrees.eq_of_defect {x y : Valuation κ} : ∀ {conditionals : List (Conditional κ ℝ)},
    Agrees conditionals → Solvable conditionals →
      (∀ c ∈ conditionals, ∀ i < c.r.nrows, c.triangular.defect x i = 0) →
      (∀ c ∈ conditionals, ∀ i < c.r.nrows, c.triangular.defect y i = 0) →
      ∀ c ∈ conditionals, ∀ j < c.r.nrows, x c.frontal j = y c.frontal j
  | [], _, _, _, _, _, hc => by cases hc
  | c :: conditionals, h, hsolvable, hx, hy, c', hc' => by
    obtain ⟨hready, hsolvable⟩ := solvable_cons.mp hsolvable
    obtain ⟨hcx, hx⟩ := List.forall_mem_cons.mp hx
    obtain ⟨hcy, hy⟩ := List.forall_mem_cons.mp hy
    have hrest := h.tail.eq_of_defect hsolvable hx hy
    rcases List.mem_cons.mp hc' with rfl | hc'
    · refine (h.square _ List.mem_cons_self).frontal_eq hready.regular hcx hcy fun b hb j hj => ?_
      obtain ⟨p, hp, hkey⟩ := List.mem_map.mp (hready.parents b.1 (List.mem_map_of_mem hb))
      rw [← hkey]
      exact hrest p hp j ((List.pairwise_cons.mp h.width).1 p hp b hb hkey.symm ▸ hj)
    · exact hrest c' hc'

/-- **Every conditional holds at the solution of the net.** -/
theorem Agrees.defect_of_solve [DecidableEq κ] [LT κ] [DecidableLT κ] :
    ∀ {conditionals : List (Conditional κ ℝ)} {x : Solution κ ℝ}, Agrees conditionals →
      solve ⟨conditionals⟩ = .ok x →
      ∀ c ∈ conditionals, ∀ i < c.r.nrows, c.triangular.defect (valuation x) i = 0
  | [], _, _, _, _, hc => by cases hc
  | c :: conditionals, x, h, hx, c', hc' => by
    obtain ⟨hready, hlater⟩ := solvable_cons.mp (h.solvable hx)
    rw [solve_cons] at hx
    obtain ⟨before, hbefore, hx⟩ := Outcome.bind_eq_ok.mp hx
    obtain ⟨v, hv, hx⟩ := Outcome.bind_eq_ok.mp hx
    cases hx
    have hnew : c.frontal ∉ conditionals.map Conditional.frontal := (List.nodup_cons.mp h.nodup).1
    have hother : ∀ k ∈ conditionals.map Conditional.frontal,
        valuation (before.insert c.frontal v) k = valuation before k := fun k hk => by
      funext j
      rw [valuation, valuation, Assignment.get?_insert_of_ne _ _ (ne_of_mem_of_not_mem hk hnew).symm]
    rcases List.mem_cons.mp hc' with rfl | hc'
    · exact fun i hi => (h.square _ List.mem_cons_self).defect_of_solve hv
        (fun k hk => hother k (hready.parents k hk))
        (valuation_of_get? (Assignment.get?_insert_self _ _ _)) hi
    · -- what a later conditional says does not involve the variable that is set now
      intro i hi
      have hparents : (c'.parents.map fun b => b.2.image (valuation (before.insert c.frontal v) b.1) i) =
          c'.parents.map fun b => b.2.image (valuation before b.1) i :=
        List.map_congr_left fun b hb => by
          rw [hother b.1 (hlater.closed c' hc' b.1 (List.mem_map_of_mem hb))]
      have hsame : c'.triangular.defect (valuation (before.insert c.frontal v)) i =
          c'.triangular.defect (valuation before) i := by
        show c'.triangular.r.image (valuation (before.insert c.frontal v) c'.frontal) i +
          (c'.parents.map fun b => b.2.image (valuation (before.insert c.frontal v) b.1) i).sum - _ = _
        rw [hother c'.frontal (List.mem_map_of_mem hc'), hparents]
        rfl
      rw [hsame]
      exact h.tail.defect_of_solve hbefore c' hc' i hi

section WellFormed

variable [LT κ] {dim : κ → ℕ} {conditionals : List (Conditional κ ℝ)} (hfwd : Forward conditionals)
  (hwell : ∀ c ∈ conditionals, c.WellFormed dim)

include hfwd hwell

/-- All well-formed conditionals of a closed net hold at one point only. -/
theorem eq_of_energy_eq_zero {x y : Valuation κ} (hclosed : Closed conditionals)
    (hx : energy conditionals x = 0) (hy : energy conditionals y = 0) :
    ∀ k ∈ conditionals.map Conditional.frontal, ∀ j < dim k, x k j = y k j := by
  intro k hk
  obtain ⟨c, hc, rfl⟩ := List.mem_map.mp hk
  rw [← (hwell c hc).nrows_r]
  exact (agrees_of_wellFormed hfwd hwell).eq_of_defect (solvable_of_closed hfwd hwell hclosed)
    ((energy_eq_zero_iff_defect hwell).mp hx) ((energy_eq_zero_iff_defect hwell).mp hy) c hc

/-- All well-formed conditionals hold at the solution of the net. -/
theorem energy_of_solve [DecidableEq κ] [DecidableLT κ] {x : Solution κ ℝ}
    (hx : solve ⟨conditionals⟩ = .ok x) : energy conditionals (valuation x) = 0 :=
  (energy_eq_zero_iff_defect hwell).mpr ((agrees_of_wellFormed hfwd hwell).defect_of_solve hx)

end WellFormed

end BayesNet
end Kinodynamics
