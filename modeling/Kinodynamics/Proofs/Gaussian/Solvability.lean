/-
# What solving a net answers

Let the blocks of a net agree. Then the net has a solution exactly if every parent is the
variable of a later conditional and no pivot is zero. The solution gives each variable one
value, every conditional holds at it, read as upper triangular, and no other values do that
(`BayesNet.solve_of_agrees`). Otherwise the last conditional that cannot be solved is reported:
its first parent without a value and, only if all its parents have one, itself as singular.

Key definitions: `Conditional.Holds`.
Key theorems: `BayesNet.solve_of_agrees`.
-/
import Kinodynamics.Proofs.Gaussian.Solution

namespace Kinodynamics

/-- There is a value of the right size for the variable, and with it
`triu r x_frontal + Σ Sⱼ x_parentⱼ = d`. -/
def Conditional.Holds {κ : Type} [DecidableEq κ] (c : Conditional κ ℝ) (x : Solution κ ℝ) : Prop :=
  (∃ v, x.get? c.frontal = some v ∧ v.length = c.r.nrows) ∧
    ∀ i < c.r.nrows, c.triangular.defect (valuation x) i = 0

namespace BayesNet

variable {κ : Type} [DecidableEq κ] [LT κ] [DecidableLT κ] {conditionals : List (Conditional κ ℝ)}
  {x : Solution κ ℝ}

theorem Agrees.holds_of_solve (h : Agrees conditionals) (hx : solve ⟨conditionals⟩ = .ok x) :
    x.keys.Perm (conditionals.map Conditional.frontal) ∧ ∀ c ∈ conditionals, c.Holds x := by
  rcases h.solve_cases with ⟨-, y, hy, hkeys, hvalues⟩ | ⟨c, after, e, -, -, -, hfail⟩
  · obtain rfl : x = y := Except.ok.inj (hx.symm.trans hy)
    exact ⟨hkeys, fun c hc => ⟨hvalues c hc, h.defect_of_solve hx c hc⟩⟩
  · rw [hfail] at hx
    cases hx

omit [LT κ] [DecidableLT κ] in
/-- All conditionals hold for one choice of values only. -/
theorem Agrees.get?_eq_of_holds (h : Agrees conditionals) (hsolvable : Solvable conditionals)
    {y : Solution κ ℝ} (hx : ∀ c ∈ conditionals, c.Holds x) (hy : ∀ c ∈ conditionals, c.Holds y) {k : κ}
    (hk : k ∈ conditionals.map Conditional.frontal) : y.get? k = x.get? k := by
  obtain ⟨c, hc, rfl⟩ := List.mem_map.mp hk
  obtain ⟨v, hv, hvlen⟩ := (hx c hc).1
  obtain ⟨w, hw, hwlen⟩ := (hy c hc).1
  exact get?_eq_of_length_eq hw hv (hwlen.trans hvlen.symm) fun j hj =>
    h.eq_of_defect hsolvable (fun c hc => (hy c hc).2) (fun c hc => (hx c hc).2) c hc j (hwlen ▸ hj)

/-- **Back substitution.** A net whose blocks agree has a solution exactly if it is solvable:
every parent is the variable of a later conditional, and no pivot is zero. The solution has
exactly the variables of the net, every conditional holds at it, and no other values do that. If
the net is not solvable, the last conditional that is not ready is reported, a missing parent
before a zero pivot. -/
theorem solve_of_agrees (h : Agrees conditionals) :
    ((∃ x, solve ⟨conditionals⟩ = .ok x) ↔ Solvable conditionals) ∧
    (∀ x, solve ⟨conditionals⟩ = .ok x →
      x.keys.Nodup ∧ (∀ k, k ∈ x.keys ↔ k ∈ conditionals.map Conditional.frontal) ∧
      (∀ c ∈ conditionals, c.Holds x) ∧
      ∀ y : Solution κ ℝ, (∀ c ∈ conditionals, c.Holds y) →
        ∀ k ∈ conditionals.map Conditional.frontal, y.get? k = x.get? k) ∧
    (¬Solvable conditionals →
      ∃ c after e, (c :: after) <:+ conditionals ∧ Solvable after ∧
        c.Stops (after.map Conditional.frontal) e ∧ solve ⟨conditionals⟩ = Outcome.fail e) := by
  refine ⟨⟨fun ⟨x, hx⟩ => h.solvable hx, fun hsolvable => ?_⟩, fun x hx => ?_, fun hnot => ?_⟩
  · rcases h.solve_cases with ⟨-, x, hx, -⟩ | ⟨c, after, e, hsuffix, -, hstops, -⟩
    · exact ⟨x, hx⟩
    · exact absurd hsolvable (not_solvable_of_stops hsuffix hstops)
  · obtain ⟨hkeys, hholds⟩ := h.holds_of_solve hx
    exact ⟨hkeys.nodup_iff.mpr h.nodup, fun k => hkeys.mem_iff, hholds,
      fun y hy k hk => h.get?_eq_of_holds (h.solvable hx) hholds hy hk⟩
  · rcases h.solve_cases with ⟨hsolvable, -⟩ | hstopped
    · exact absurd hsolvable hnot
    · exact hstopped

/-- `2 x₀ + y₀ + x₁ = 3`, `4 y₀ - x₁ = 4` and `2 x₁ = 2`. The `7` below the diagonal is not read. -/
noncomputable def slantedPair : List (Conditional ℕ ℝ) :=
  [{ frontal := 0, r := .ofRows 2 [[2.0, 1.0], [7.0, 4.0]], parents := [(1, .ofRows 1 [[1.0], [-1.0]])],
     d := [3.0, 4.0] },
    { frontal := 1, r := .ofRows 1 [[2.0]], parents := [], d := [2.0] }]

/-- The pair is solvable, and its conditionals hold at its solution. -/
theorem solve_slantedPair : Agrees slantedPair ∧ Solvable slantedPair ∧
    ∃ x, solve ⟨slantedPair⟩ = .ok x ∧ (∀ k, k ∈ x.keys ↔ k ∈ [0, 1]) ∧
      ∀ c ∈ slantedPair, c.Holds x := by
  have hagrees : Agrees slantedPair := by
    refine ⟨by decide, ?_, ?_⟩
    · simp only [slantedPair, List.forall_mem_cons]
      exact ⟨⟨rfl, rfl, by simp [Dense.ofRows]⟩, ⟨rfl, rfl, by simp⟩, by simp⟩
    · simp [slantedPair, Dense.ofRows]
  have hsolvable : Solvable slantedPair := by
    refine solvable_cons.mpr ⟨⟨by simp [Conditional.parentKeys], fun i hi hzero => ?_⟩,
      solvable_cons.mpr ⟨⟨by simp [Conditional.parentKeys], fun i hi hzero => ?_⟩, solvable_nil⟩⟩
    · have hi : i < 2 := hi
      have hzero := Scalar.isZero_iff.mp hzero
      interval_cases i <;> norm_num [Dense.ofRows, Dense.entry_ofFn] at hzero
    · obtain rfl : i = 0 := Nat.lt_one_iff.mp hi
      have hzero := Scalar.isZero_iff.mp hzero
      norm_num [Dense.ofRows, Dense.entry_ofFn] at hzero
  obtain ⟨hiff, hsolution, -⟩ := solve_of_agrees hagrees
  obtain ⟨x, hx⟩ := hiff.mpr hsolvable
  obtain ⟨-, hkeys, hholds, -⟩ := hsolution x hx
  exact ⟨hagrees, hsolvable, x, hx, hkeys, hholds⟩

end BayesNet
end Kinodynamics
