/-
# What a step reads of right-hand sides

Take two stacks that have the same energy at every vector that leaves the right-hand side
out. Their factors have the same pivots, one after another, and as far as pivots pass the
same coefficients in the first rows (`entry_eq_of_pivots`). So every test of a step comes
out the same on both: it stops with the same error, or answers with rows whose
coefficients agree and remainders that are again alike (`alike_stepSoft`).

Key definitions: `Alike`, `Elimination.SameCoefficients`, `Elimination.SameRows`,
`Decompositions.IsComplete`.
Key theorems: `Elimination.requirePivots_eq`, `Elimination.entry_eq_of_pivots`,
`Elimination.alike_stepSoft`.
-/
import Kinodynamics.Proofs.Elimination.HardStep

namespace Kinodynamics

open Finset

/-- Both computations stop with one error, or both answer, with related answers. -/
inductive Alike {ε α β : Type} (R : α → β → Prop) : Except ε α → Except ε β → Prop
  | ok {a : α} {b : β} (h : R a b) : Alike R (.ok a) (.ok b)
  | error (e : ε) : Alike R (.error e) (.error e)

namespace Alike

variable {ε α β α' β' : Type} {R : α → β → Prop} {S : α' → β' → Prop}

theorem bind_ok {x : Except ε α} {y : Except ε β} {f : α → Except ε α'} {g : β → Except ε β'}
    (h : Alike R x y) (hf : ∀ a b, x = .ok a → y = .ok b → R a b → Alike S (f a) (g b)) :
    Alike S (x >>= f) (y >>= g) := by
  cases h with
  | ok hab => exact hf _ _ rfl rfl hab
  | error e => exact Alike.error e

theorem bind {x : Except ε α} {y : Except ε β} {f : α → Except ε α'} {g : β → Except ε β'}
    (h : Alike R x y) (hf : ∀ a b, x = .ok a → R a b → Alike S (f a) (g b)) :
    Alike S (x >>= f) (y >>= g) :=
  h.bind_ok fun a b ha _ => hf a b ha

/-- Equal tests go first. -/
theorem bind_eq {x : Except ε α} {y : Except ε α} {f : α → Except ε α'} {g : α → Except ε β'}
    (h : x = y) (hf : ∀ a, x = .ok a → Alike S (f a) (g a)) : Alike S (x >>= f) (y >>= g) := by
  subst h
  cases x with
  | ok a => exact hf a rfl
  | error e => exact Alike.error e

/-- Tests that come out the same lead to computations that are alike. -/
theorem ite {p q : Prop} [Decidable p] [Decidable q] (h : p ↔ q) {x x' : Except ε α}
    {y y' : Except ε β} (hthen : p → Alike R x y) (helse : ¬p → Alike R x' y') :
    Alike R (if p then x else x') (if q then y else y') := by
  by_cases hp : p
  · rw [if_pos hp, if_pos (h.mp hp)]
    exact hthen hp
  · rw [if_neg hp, if_neg (mt h.mpr hp)]
    exact helse hp

theorem isOk_iff {x : Except ε α} {y : Except ε β} (h : Alike R x y) :
    (∃ a, x = .ok a) ↔ ∃ b, y = .ok b := by
  cases h with
  | ok _ => exact ⟨fun _ => ⟨_, rfl⟩, fun _ => ⟨_, rfl⟩⟩
  | error e => exact ⟨fun ⟨_, h⟩ => (nomatch h), fun ⟨_, h⟩ => nomatch h⟩

theorem error_iff {x : Except ε α} {y : Except ε β} (h : Alike R x y) (e : ε) :
    x = .error e ↔ y = .error e := by
  cases h with
  | ok _ => exact ⟨fun h => (nomatch h), fun h => nomatch h⟩
  | error e' => rw [Except.error.injEq, Except.error.injEq]

end Alike

/-- The spectrum has as many eigenpairs as the matrix has rows. -/
def Decompositions.IsComplete {α : Type} (D : Decompositions α) : Prop :=
  ∀ g, (D.spectrum g).length = g.nrows

theorem Decompositions.standard_isComplete {α : Type} [Scalar α] :
    (standard : Decompositions α).IsComplete := fun g => by
  show (Dense.spectrum g).length = g.nrows
  rw [Dense.spectrum, List.length_map, List.length_range]

namespace Elimination

/-- Matrices of one shape, `m` coefficient columns and one for the right-hand side, that have
the same energy where the right-hand side is left out. -/
structure SameCoefficients (m : ℕ) (a b : Dense ℝ) : Prop where
  nrows_eq : a.nrows = b.nrows
  ncols_left : a.ncols = m + 1
  ncols_right : b.ncols = m + 1
  energy_eq : ∀ v : ℕ → ℝ, (∀ j, m ≤ j → v j = 0) → a.energy v = b.energy v

variable {κ : Type} {D : Decompositions ℝ} {key : κ} {m n tail : ℕ} {a b : Dense ℝ}

theorem SameCoefficients.gram_eq (h : SameCoefficients m a b) {j k : ℕ} (hj : j < m) (hk : k < m) :
    a.gram j k = b.gram j k :=
  Dense.gram_eq_of_energy (by rw [h.ncols_left]; omega) (by rw [h.ncols_right]; omega) h.energy_eq
    hj hk

/-- Matrices with the same coefficients entry by entry. -/
theorem SameCoefficients.of_entry (hm : a.nrows = b.nrows) (ha : a.ncols = m + 1)
    (hb : b.ncols = m + 1) (h : ∀ i < a.nrows, ∀ j < m, a.entry i j = b.entry i j) :
    SameCoefficients m a b := by
  refine ⟨hm, ha, hb, fun v hv => ?_⟩
  unfold Dense.energy
  rw [← hm]
  refine sum_congr rfl fun i hi => ?_
  have hi := mem_range.mp hi
  rw [Dense.image, Dense.image, ha, hb, sum_range_succ, sum_range_succ, hv m le_rfl, mul_zero, mul_zero]
  congr 2
  exact sum_congr rfl fun j hj => by rw [h i hi j (mem_range.mp hj)]

/-! ### Factors -/

theorem SameCoefficients.upperFactor (hD : D.IsExact) (h : SameCoefficients m a b) :
    SameCoefficients m (upperFactor D a) (upperFactor D b) where
  nrows_eq := by
    rw [nrows_upperFactor hD.toIsTriangular, nrows_upperFactor hD.toIsTriangular, h.nrows_eq,
      h.ncols_left, h.ncols_right]
  ncols_left := (ncols_upperFactor hD.toIsTriangular a).trans h.ncols_left
  ncols_right := (ncols_upperFactor hD.toIsTriangular b).trans h.ncols_right
  energy_eq := fun v hv => by
    rw [energy_upperFactor hD, energy_upperFactor hD, h.energy_eq v hv]

/-- The pivots of a factor are nonnegative in its coefficient columns. -/
theorem pivot_nonneg (hD : D.IsTriangular) (ha : a.ncols = m + 1) {i : ℕ} (him : i < m)
    (hi : i < (upperFactor D a).nrows) : 0 ≤ (upperFactor D a).entry i i := by
  refine not_lt.mp (not_lt_entry_upperFactor (by omega) hi ?_)
  rw [ncols_upperFactor hD, ha]
  omega

/-- Pivots that pass are positive. -/
theorem pivot_pos (hD : D.IsTriangular) (ha : a.ncols = m + 1) (hn : n ≤ m)
    (hok : requirePivots key (upperFactor D a) n = .ok ()) {i : ℕ} (hi : i < n) :
    0 < (upperFactor D a).entry i i := by
  have hnonneg := pivot_nonneg hD ha (hi.trans_le hn) (hi.trans_le (le_nrows_of_requirePivots hok))
  refine lt_of_le_of_ne hnonneg fun h0 => ?_
  have hpivot := (requirePivots_eq_ok_iff.mp hok i hi).2.2
  rw [← h0] at hpivot
  exact hpivot (Scalar.Signed.abs_le_of_isZero (Scalar.isZero_iff.mpr rfl))

/-- **As far as pivots pass, the first rows agree in their coefficients.** -/
theorem entry_eq_of_pivots (hD : D.IsExact) (h : SameCoefficients m a b) (hn : n ≤ m)
    (hok : requirePivots key (Elimination.upperFactor D a) n = .ok ()) :
    n ≤ (Elimination.upperFactor D a).nrows ∧ ∀ i < n, ∀ j < m,
      (Elimination.upperFactor D a).entry i j = (Elimination.upperFactor D b).entry i j := by
  have hfactor := h.upperFactor hD
  have hrows := le_nrows_of_requirePivots hok
  exact ⟨hrows, Dense.entry_eq_of_gram (fun i j hij => entry_upperFactor_below hD.toIsTriangular a hij)
    (fun i j hij => entry_upperFactor_below hD.toIsTriangular b hij) hfactor.nrows_eq
    (fun j hj k hk => hfactor.gram_eq hj hk) hrows hn
    (fun i hi => pivot_pos hD.toIsTriangular h.ncols_left hn hok hi)
    fun i hi => pivot_nonneg hD.toIsTriangular h.ncols_right (hi.trans_le hn)
      (hfactor.nrows_eq ▸ hi.trans_le hrows)⟩

/-- **The pivots pass on both or fail alike.** -/
theorem requirePivots_eq (hD : D.IsExact) (h : SameCoefficients m a b) (hn : n ≤ m) :
    requirePivots key (Elimination.upperFactor D a) n =
      requirePivots key (Elimination.upperFactor D b) n := by
  have hfactor := h.upperFactor hD
  induction n with
  | zero => rfl
  | succ n ih =>
    rw [requirePivots_succ, requirePivots_succ, ← ih (by omega)]
    cases hok : requirePivots key (Elimination.upperFactor D a) n with
    | error e => rfl
    | ok u =>
      obtain ⟨-, habove⟩ := entry_eq_of_pivots hD h (by omega) hok
      show (if _ then _ else _) = (if _ then _ else _)
      by_cases hlt : n < (Elimination.upperFactor D a).nrows
      · have hpivot : (Elimination.upperFactor D a).entry n n = (Elimination.upperFactor D b).entry n n :=
          Dense.pivot_eq_of_gram
            (fun i j hij => entry_upperFactor_below hD.toIsTriangular a hij)
            (fun i j hij => entry_upperFactor_below hD.toIsTriangular b hij) hfactor.nrows_eq
            (fun j hj k hk => hfactor.gram_eq hj hk) hlt (by omega) habove
            (pivot_nonneg hD.toIsTriangular h.ncols_left (by omega) hlt)
            (pivot_nonneg hD.toIsTriangular h.ncols_right (by omega) (hfactor.nrows_eq ▸ hlt))
        rw [hpivot, hfactor.nrows_eq, hfactor.ncols_left, hfactor.ncols_right]
      · rw [if_neg fun hc => hlt hc.1, if_neg fun hc => hlt (hfactor.nrows_eq ▸ hc.1)]

/-- The rows below pivots that pass are alike. -/
theorem sameCoefficients_rest (hD : D.IsExact) (h : SameCoefficients (n + tail) a b)
    (hok : requirePivots key (Elimination.upperFactor D a) n = .ok ()) :
    SameCoefficients tail (splitBelow (Elimination.upperFactor D a) n).2
      (splitBelow (Elimination.upperFactor D b) n).2 := by
  have hfactor := h.upperFactor hD
  obtain ⟨hrows, hentry⟩ := entry_eq_of_pivots hD h (by omega) hok
  have hok' : requirePivots key (Elimination.upperFactor D b) n = .ok () := by
    rw [← requirePivots_eq hD h (by omega), hok]
  refine ⟨?_, ?_, ?_, fun u hu => ?_⟩
  · show (Elimination.upperFactor D a).nrows - n = (Elimination.upperFactor D b).nrows - n
    rw [hfactor.nrows_eq]
  · show (Elimination.upperFactor D a).ncols - n = tail + 1
    rw [hfactor.ncols_left]
    omega
  · show (Elimination.upperFactor D b).ncols - n = tail + 1
    rw [hfactor.ncols_right]
    omega
  · have hv : ∀ j, n + tail ≤ j → glue n (fun _ => 0) u j = 0 := fun j hj => by
      obtain ⟨j, rfl⟩ := Nat.exists_eq_add_of_le (show n ≤ j by omega)
      rw [glue_add, hu j (by omega)]
    have hsplit := energy_splitBelow hD (h.ncols_left.trans (Nat.add_assoc _ _ _)) hok (fun _ => 0) u
    have hsplit' := energy_splitBelow hD (h.ncols_right.trans (Nat.add_assoc _ _ _)) hok' (fun _ => 0) u
    have htop : SameCoefficients (n + tail) (splitBelow (Elimination.upperFactor D a) n).1
        (splitBelow (Elimination.upperFactor D b) n).1 := by
      refine SameCoefficients.of_entry rfl hfactor.ncols_left hfactor.ncols_right fun i hi j hj => ?_
      have hi : i < n := hi
      rw [splitBelow, splitBelow,
        Dense.entry_view _ hi (by rw [hfactor.ncols_left]; omega),
        Dense.entry_view _ hi (by rw [hfactor.ncols_right]; omega), Nat.zero_add, Nat.zero_add,
        hentry i hi j hj]
    rw [h.energy_eq _ hv, hsplit', htop.energy_eq _ hv] at hsplit
    linarith

/-! ### The steps -/

/-- The rows of two steps: the same coefficients in the rows of the conditional, and
remainders that are alike. -/
structure SameRows (n tail : ℕ) (out out' : StepRows ℝ) : Prop where
  ncols_left : out.conditional.ncols = n + tail + 1
  ncols_right : out'.conditional.ncols = n + tail + 1
  entry_eq : ∀ i < n, ∀ j < n + tail, out.conditional.entry i j = out'.conditional.entry i j
  hard : SameCoefficients tail out.hard out'.hard
  soft : SameCoefficients tail out.soft out'.soft

/-- **Without hard rows** a step does the same. -/
theorem alike_stepSoft (hD : D.IsExact) (h : SameCoefficients (n + tail) a b) :
    Alike (SameRows n tail) (stepSoft D key n a) (stepSoft D key n b) := by
  have hfactor := h.upperFactor hD
  refine Alike.bind_eq (requirePivots_eq hD h (by omega)) fun _ hok => Alike.ok ?_
  obtain ⟨-, hentry⟩ := entry_eq_of_pivots hD h (by omega) hok
  refine ⟨hfactor.ncols_left, hfactor.ncols_right, fun i hi j hj => ?_, ?_,
    sameCoefficients_rest hD h hok⟩
  · show ((Elimination.upperFactor D a).view 0 0 n _).entry i j =
      ((Elimination.upperFactor D b).view 0 0 n _).entry i j
    rw [Dense.entry_view _ hi (by rw [hfactor.ncols_left]; omega),
      Dense.entry_view _ hi (by rw [hfactor.ncols_right]; omega), Nat.zero_add, Nat.zero_add,
      hentry i hi j hj]
  · refine SameCoefficients.of_entry rfl ?_ ?_ fun i hi => absurd hi (Nat.not_lt_zero i)
    · show a.ncols - n = tail + 1
      rw [h.ncols_left]
      omega
    · show b.ncols - n = tail + 1
      rw [h.ncols_right]
      omega

end Elimination
end Kinodynamics
