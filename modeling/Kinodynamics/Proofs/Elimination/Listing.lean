/-
# Elimination does not see how a system is listed

List the equations of a system in another order, and the blocks of each in another order.
Then the stacks of a step have their rows permuted and nothing else: their columns are in
key order already. Permuted rows leave the Gram matrices as they were, so the step gives
the same conditional, and the remainders it puts back have one Gram matrix again though
not the same rows. What a run carries along is therefore not a permutation but equations
of the same energies in some order (`Elimination.Listed`).

Key definitions: `LinearEquation.Matching`, `Elimination.Listed`, `LinearSystem.Rearranged`.
Key theorems: `Elimination.Listed.eliminateNext`, `Elimination.Listed.eliminateAll`,
`Elimination.eliminate_eq_of_rearranged`.
-/
import Kinodynamics.Proofs.Elimination.GramMatrices
import Kinodynamics.Proofs.Elimination.RightHandSides

namespace Kinodynamics

open Finset
open List (Forall₂)

variable {κ : Type}

namespace LinearEquation

/-- Equations on the same variables, of one number of rows and one kind, with the same energy
everywhere. -/
structure Matching (r r' : LinearEquation κ ℝ) : Prop where
  shape_perm : r.shape.Perm r'.shape
  rows_eq : r.rows = r'.rows
  isHard_eq : r.isHard = r'.isHard
  energy_eq : ∀ t x, r.energy t x = r'.energy t x

theorem Matching.mem_keys_iff {r r' : LinearEquation κ ℝ} (h : Matching r r') {k : κ} :
    k ∈ r.keys ↔ k ∈ r'.keys := by
  rw [← map_fst_shape, ← map_fst_shape]
  exact (h.shape_perm.map Prod.fst).mem_iff

theorem Matching.mentions_eq [DecidableEq κ] {r r' : LinearEquation κ ℝ} (h : Matching r r') (k : κ) :
    r.mentions k = r'.mentions k := by
  rw [Bool.eq_iff_iff, LinearEquation.mentions_iff, LinearEquation.mentions_iff, h.mem_keys_iff]

/-- The blocks of an equation in another order. -/
theorem matching_of_blocks_perm {r r' : LinearEquation κ ℝ} (hblocks : r.blocks.Perm r'.blocks)
    (hrhs : r.rhs = r'.rhs) (hhard : r.isHard = r'.isHard) : Matching r r' := by
  refine ⟨hblocks.map _, congrArg List.length hrhs, hhard, fun t x => ?_⟩
  rw [energy, energy, rows, rows, hrhs]
  refine sum_congr rfl fun i _ => ?_
  rw [defect, defect, (hblocks.map _).sum_eq, hrhs]

end LinearEquation

open LinearEquation (Matching matching_of_blocks_perm)

namespace Elimination

/-! ### Lists of equations -/

/-- Equations that match those of another list one by one, in some order. -/
def Listed (a b : List (LinearEquation κ ℝ)) : Prop := ∃ c, a.Perm c ∧ Forall₂ Matching c b

namespace Listed

variable {a a' b b' : List (LinearEquation κ ℝ)}

theorem of_forall₂ (h : Forall₂ Matching a b) : Listed a b := ⟨a, List.Perm.refl a, h⟩

theorem append (h : Listed a b) (h' : Listed a' b') : Listed (a ++ a') (b ++ b') := by
  obtain ⟨c, hperm, hmatch⟩ := h
  obtain ⟨c', hperm', hmatch'⟩ := h'
  exact ⟨c ++ c', hperm.append hperm', List.rel_append hmatch hmatch'⟩

theorem filter {p : LinearEquation κ ℝ → Bool} (hp : ∀ r r', Matching r r' → p r = p r')
    (h : Listed a b) : Listed (a.filter p) (b.filter p) := by
  obtain ⟨c, hperm, hmatch⟩ := h
  exact ⟨c.filter p, hperm.filter p,
    List.rel_filter (fun r r' hr => iff_of_eq (congrArg (· = true) (hp r r' hr))) hmatch⟩

theorem length_eq (h : Listed a b) : a.length = b.length := by
  obtain ⟨c, hperm, hmatch⟩ := h
  exact hperm.length_eq.trans hmatch.length_eq

theorem isEmpty_eq (h : Listed a b) : a.isEmpty = b.isEmpty := by
  rw [Bool.eq_iff_iff, List.isEmpty_iff_length_eq_zero, List.isEmpty_iff_length_eq_zero, h.length_eq]

/-- Sums over the equations are the same. -/
theorem sum_eq {M : Type} [AddCommMonoid M] {f : LinearEquation κ ℝ → M}
    (hf : ∀ r r', Matching r r' → f r = f r') (h : Listed a b) : (a.map f).sum = (b.map f).sum := by
  obtain ⟨c, hperm, hmatch⟩ := h
  have hmap : c.map f = b.map f := by
    rw [← List.forall₂_eq_eq_eq, List.forall₂_map_left_iff, List.forall₂_map_right_iff]
    exact hmatch.imp hf
  rw [(hperm.map f).sum_eq, hmap]

theorem totalRows_eq (h : Listed a b) : totalRows a = totalRows b := by
  have hsum : ∀ l : List (LinearEquation κ ℝ), totalRows l = (l.map LinearEquation.rows).sum := fun l => by
    induction l with
    | nil => rfl
    | cons r l ih => rw [totalRows, ih, List.map_cons, List.sum_cons]
  rw [hsum, hsum, h.sum_eq fun _ _ hr => hr.rows_eq]

theorem totalEnergy_eq (h : Listed a b) (t : ℝ) (x : Valuation κ) :
    totalEnergy a t x = totalEnergy b t x :=
  h.sum_eq fun _ _ hr => hr.energy_eq t x

/-- The blocks have the same keys and widths. -/
theorem exists_mem_shape_iff (h : Listed a b) {l : κ × ℕ} :
    (∃ r ∈ a, l ∈ r.shape) ↔ ∃ r ∈ b, l ∈ r.shape := by
  obtain ⟨c, hperm, hmatch⟩ := h
  simp only [hperm.mem_iff]
  clear hperm
  induction hmatch with
  | nil => rfl
  | cons hr _ ih =>
    simp only [List.mem_cons, exists_eq_or_imp]
    rw [hr.shape_perm.mem_iff, ih]

theorem mem_mentioned_iff (h : Listed a b) {k : κ} : k ∈ mentioned a ↔ k ∈ mentioned b := by
  have hshape : ∀ l : List (LinearEquation κ ℝ), k ∈ mentioned l ↔ ∃ n, ∃ r ∈ l, (k, n) ∈ r.shape := by
    intro l
    simp only [mem_mentioned, ← LinearEquation.map_fst_shape, List.mem_map, Prod.exists]
    grind
  rw [hshape, hshape]
  exact exists_congr fun n => h.exists_mem_shape_iff

end Listed

/-! ### Stacks and remainders -/

/-- Stacks of equations that match have one Gram matrix. -/
theorem sameGram_stackRows [DecidableEq κ] {layout : Layout κ}
    (hnodup : (layout.map Prod.fst).Nodup) {a b : List (LinearEquation κ ℝ)} (h : Listed a b)
    (ha : ∀ r ∈ a, ∀ l ∈ r.blocks, (l.1, l.2.ncols) ∈ layout)
    (hb : ∀ r ∈ b, ∀ l ∈ r.blocks, (l.1, l.2.ncols) ∈ layout) :
    SameGram (width layout + 1) (stackRows layout a) (stackRows layout b) := by
  refine ⟨?_, rfl, rfl, fun v => ?_⟩
  · rw [nrows_stackRows, nrows_stackRows, h.totalRows_eq]
  set t := -v (width layout)
  have hspread : ∀ j < width layout + 1, v j = spread t (valuationOver layout v) layout j := by
    intro j hj
    rcases Nat.lt_succ_iff_lt_or_eq.mp hj with hj | rfl
    · exact (spread_valuationOver t v hnodup j hj).symm
    · rw [spread_width, neg_neg]
  calc (stackRows layout a).energy v
      = (stackRows layout a).energy (spread t (valuationOver layout v) layout) :=
        Dense.energy_congr _ hspread
    _ = totalEnergy a t (valuationOver layout v) := energy_stackRows hnodup ha t _
    _ = totalEnergy b t (valuationOver layout v) := h.totalEnergy_eq t _
    _ = (stackRows layout b).energy (spread t (valuationOver layout v) layout) :=
        (energy_stackRows hnodup hb t _).symm
    _ = (stackRows layout b).energy v := (Dense.energy_congr _ hspread).symm

/-- Remainders of rows with one Gram matrix match. -/
theorem matching_of_isRemainder {layout : Layout κ} (hl : layout ≠ []) {rest rest' : Dense ℝ}
    (hrest : SameGram (width layout + 1) rest rest') {noise : ℕ → Noise ℝ}
    {equations equations' : List (LinearEquation κ ℝ)} (h : IsRemainder layout rest noise equations)
    (h' : IsRemainder layout rest' noise equations') : Forall₂ Matching equations equations' := by
  have henergy : ∀ t x, totalEnergy equations t x = totalEnergy equations' t x := fun t x => by
    have hempty : layout.isEmpty = false := by simpa using hl
    have hleft := h.energy_eq hrest.ncols_left t x
    have hright := h'.energy_eq hrest.ncols_right t x
    rw [hempty, if_neg Bool.false_ne_true, add_zero] at hleft hright
    rw [← hleft, ← hright, hrest.energy_eq]
  rcases h with ⟨rfl, h⟩ | ⟨r, rfl, -, hrows, hblocks, hrhs, hnoise⟩ <;>
    rcases h' with ⟨rfl, h'⟩ | ⟨r', rfl, -, hrows', hblocks', hrhs', hnoise'⟩
  · exact Forall₂.nil
  · exact absurd (hrest.nrows_eq ▸ h.resolve_left hl) hrows'
  · exact absurd (hrest.nrows_eq.trans (h'.resolve_left hl)) hrows
  · refine Forall₂.cons ⟨?_, ?_, ?_, fun t x => ?_⟩ Forall₂.nil
    · rw [LinearEquation.shape, LinearEquation.shape, hblocks, hblocks', map_shape_cut, map_shape_cut]
    · rw [LinearEquation.rows, LinearEquation.rows, hrhs, hrhs', Dense.length_column,
        Dense.length_column, hrest.nrows_eq]
    · rw [LinearEquation.isHard, LinearEquation.isHard, hnoise, hnoise', hrest.nrows_eq]
    · simpa using henergy t x

/-! ### Steps -/

section Steps

variable [LinearOrder κ] {D : Decompositions ℝ} {w w' : Assignment κ ℕ}
  {remaining remaining' : List (LinearEquation κ ℝ)} {frontal : κ}

theorem Listed.touching (h : Listed remaining remaining') (frontal : κ) :
    Listed (touching remaining frontal) (touching remaining' frontal) :=
  h.filter fun _ _ hr => hr.mentions_eq frontal

theorem Listed.untouched (h : Listed remaining remaining') (frontal : κ) :
    Listed (untouched remaining frontal) (untouched remaining' frontal) :=
  h.filter fun _ _ hr => by rw [hr.mentions_eq frontal]

/-- Fitted widths agree on the variables. -/
theorem Listed.widthOf_eq (h : Listed remaining remaining') (hfit : Fitted w remaining)
    (hfit' : Fitted w' remaining') {k : κ} (hk : k ∈ mentioned remaining) : widthOf w k = widthOf w' k := by
  obtain ⟨r, hr, hk⟩ := mem_mentioned.mp hk
  obtain ⟨b, hb, rfl⟩ := mem_keys_iff.mp hk
  obtain ⟨r', hr', hb'⟩ := h.exists_mem_shape_iff.mp ⟨r, hr, List.mem_map.mpr ⟨b, hb, rfl⟩⟩
  obtain ⟨b', hb', heq⟩ := List.mem_map.mp hb'
  obtain ⟨hkey, hwidth⟩ := Prod.mk.inj heq
  rw [hfit.widthOf_eq hr hb, ← hkey, hfit'.widthOf_eq hr' hb', hwidth]

/-- The separator is in key order, whatever the order of the equations. -/
theorem Listed.separating_eq (h : Listed remaining remaining') (hfit : Fitted w remaining)
    (hfit' : Fitted w' remaining') (frontal : κ) :
    separating w remaining frontal = separating w' remaining' frontal := by
  have hkeys : separator frontal (Elimination.touching remaining frontal) =
      separator frontal (Elimination.touching remaining' frontal) := by
    rw [separator, separator]
    refine (pairwise_sortedKeys _).eq_of_mem_iff (pairwise_sortedKeys _) fun k => ?_
    rw [mem_sortedKeys_iff, mem_sortedKeys_iff, List.mem_filter, List.mem_filter]
    exact and_congr_left fun _ => (h.touching frontal).mem_mentioned_iff
  rw [separating, separating, ← hkeys]
  refine List.map_congr_left fun k hk => ?_
  obtain ⟨r, hr, hk⟩ := mem_mentioned.mp (List.mem_of_mem_filter (mem_sortedKeys_iff.mp hk))
  rw [h.widthOf_eq hfit hfit' (mem_mentioned.mpr ⟨r, (mem_touching.mp hr).1, hk⟩)]

/-- The rows of a step are those of the other listing, whichever way it goes. -/
theorem Listed.reduced (hD : D.IsExact) (hS : D.IsComplete) (h : Listed remaining remaining')
    (hfit : Fitted w remaining) (hfit' : Fitted w' remaining') (hf : frontal ∈ mentioned remaining) :
    Alike (SameStep (width (separating w remaining frontal))) (reduced D w remaining frontal)
      (reduced D w' remaining' frontal) := by
  have hwidth := h.widthOf_eq hfit hfit' hf
  have hlayout : layoutOf w remaining frontal = layoutOf w' remaining' frontal := by
    rw [layoutOf, layoutOf, hwidth, h.separating_eq hfit hfit']
  have hstack : ∀ {p : LinearEquation κ ℝ → Bool}, (∀ r r', Matching r r' → p r = p r') →
      SameGram (widthOf w frontal + width (separating w remaining frontal) + 1)
        (stackRows (layoutOf w remaining frontal) ((Elimination.touching remaining frontal).filter p))
        (stackRows (layoutOf w' remaining' frontal)
          ((Elimination.touching remaining' frontal).filter p)) := fun {p} hp => by
    rw [← hlayout]
    refine sameGram_stackRows nodup_layoutOf ((h.touching frontal).filter hp) (fun r hr l hl =>
      hfit.mem_layoutOf (List.mem_of_mem_filter hr) hl) fun r hr l hl => ?_
    rw [hlayout]
    exact hfit'.mem_layoutOf (List.mem_of_mem_filter hr) hl
  have hkind : ∀ r r' : LinearEquation κ ℝ, Matching r r' → r.isHard = r'.isHard :=
    fun _ _ hr => hr.isHard_eq
  have hhard := hstack hkind
  have hsoft := hstack (p := fun r => !r.isHard) fun r r' hr => by rw [hr.isHard_eq]
  have hempty : (hardOn remaining frontal).isEmpty = (hardOn remaining' frontal).isEmpty :=
    ((h.touching frontal).filter hkind).isEmpty_eq
  rw [Elimination.reduced, Elimination.reduced, ← hempty, ← hwidth]
  exact Alike.ite Iff.rfl (fun _ => hsoft.stepSoft hD) fun _ => hhard.stepHard hD hS hsoft

/-- The remainders of a step match. -/
theorem Listed.remainders (h : Listed remaining remaining') (hfit : Fitted w remaining)
    (hfit' : Fitted w' remaining') {out out' : StepRows ℝ}
    (hout : SameStep (width (separating w remaining frontal)) out out') :
    Alike (Forall₂ Matching) (remainders w remaining frontal out)
      (remainders w' remaining' frontal out') := by
  rw [Elimination.remainders, Elimination.remainders, ← h.separating_eq hfit hfit']
  refine Alike.ite Iff.rfl (fun _ => Alike.ok Forall₂.nil) fun hempty => ?_
  have hl : separating w remaining frontal ≠ [] := fun h0 => hempty (by rw [h0]; rfl)
  have hnodup : ((separating w remaining frontal).map Prod.fst).Nodup :=
    pairwise_separating.imp fun hlt => hlt.ne
  have hpart : ∀ noise : ℕ → Noise ℝ, (∀ n, (noise n).dim = n) → ∀ {rest rest' : Dense ℝ},
      SameGram (width (separating w remaining frontal) + 1) rest rest' →
      ∃ equations equations', Forall₂ Matching equations equations' ∧
        remainder (separating w remaining frontal) rest noise = .ok equations ∧
        remainder (separating w remaining frontal) rest' noise = .ok equations' := by
    intro noise hnoise rest rest' hrest
    obtain ⟨equations, hok, hrem⟩ := exists_remainder hl hnodup noise hnoise rest
    obtain ⟨equations', hok', hrem'⟩ := exists_remainder hl hnodup noise hnoise rest'
    exact ⟨equations, equations', matching_of_isRemainder hl hrest hrem hrem', hok, hok'⟩
  obtain ⟨hard, hard', hhard, hok, hok'⟩ := hpart .constrained (fun _ => rfl) hout.hard
  obtain ⟨soft, soft', hsoft, hok₂, hok₂'⟩ := hpart .unit (fun _ => rfl) hout.soft
  rw [hok, hok', hok₂, hok₂']
  exact Alike.ok (List.rel_append hhard hsoft)

/-- **One step** gives one conditional and leaves equations that match. -/
theorem Listed.eliminateNext (hD : D.IsExact) (hS : D.IsComplete) (h : Listed remaining remaining')
    (hfit : Fitted w remaining) (hfit' : Fitted w' remaining') (frontal : κ) :
    Alike (fun x y => x.1 = y.1 ∧ Listed x.2 y.2) (eliminateNext D w remaining frontal)
      (eliminateNext D w' remaining' frontal) := by
  have htouching := h.touching frontal
  rw [eliminateNext_eq, eliminateNext_eq, ← htouching.isEmpty_eq, ← htouching.totalRows_eq]
  refine Alike.ite Iff.rfl (fun _ => Alike.error _) fun hempty => ?_
  obtain ⟨r, hr⟩ := List.exists_mem_of_ne_nil _ fun h0 => hempty (List.isEmpty_iff.mpr h0)
  have hf : frontal ∈ mentioned remaining := mem_mentioned.mpr ⟨r, mem_touching.mp hr⟩
  have hwidth := h.widthOf_eq hfit hfit' hf
  rw [← hwidth]
  refine Alike.ite Iff.rfl (fun _ => Alike.error _) fun _ => ?_
  refine Alike.bind (h.reduced hD hS hfit hfit' hf) fun out out' _ hout => ?_
  refine Alike.bind (h.remainders hfit hfit' hout) fun more more' _ hmore => Alike.ok ⟨?_, ?_⟩
  · rw [conditionalOf, conditionalOf, layoutOf, layoutOf, hout.conditional_eq, hwidth,
      h.separating_eq hfit hfit']
  · exact (h.untouched frontal).append (Listed.of_forall₂ hmore)

/-- **A run** gives the same conditionals, by induction on the ordering. -/
theorem Listed.eliminateAll (hD : D.IsExact) (hS : D.IsComplete) : ∀ {ordering : List κ}
    {remaining remaining' : List (LinearEquation κ ℝ)}, Listed remaining remaining' →
    Fitted w remaining → Fitted w' remaining' →
      Alike (fun x y => x.1 = y.1 ∧ Listed x.2 y.2) (eliminateAll D w ordering remaining)
        (eliminateAll D w' ordering remaining')
  | [], _, _, h, _, _ => Alike.ok ⟨rfl, h⟩
  | frontal :: ordering, remaining, remaining', h, hfit, hfit' => by
    rw [Elimination.eliminateAll, Elimination.eliminateAll]
    refine Alike.bind_ok (h.eliminateNext hD hS hfit hfit' frontal) fun first first' hnext hnext' hsame => ?_
    obtain ⟨c, rest⟩ := first
    obtain ⟨c', rest'⟩ := first'
    obtain ⟨rfl, hrest⟩ := hsame
    obtain ⟨_, _, _, hstep⟩ := isStep_of_eliminateNext hnext
    obtain ⟨_, _, _, hstep'⟩ := isStep_of_eliminateNext hnext'
    refine Alike.bind (Listed.eliminateAll hD hS hrest (hstep.fitted hfit) (hstep'.fitted hfit'))
      fun later later' _ hlater => Alike.ok ?_
    exact ⟨congrArg (c :: ·) hlater.1, hlater.2⟩

end Steps

end Elimination

open Elimination

/-! ### Systems -/

namespace LinearSystem

/-- The equations of a system in another order, with their blocks in another order. -/
def Rearranged {α : Type} (s s' : LinearSystem κ α) : Prop :=
  ∃ e, s.equations.Perm e ∧
    Forall₂ (fun r r' => r.blocks.Perm r'.blocks ∧ r.rhs = r'.rhs ∧ r.noise = r'.noise) e s'.equations

theorem Rearranged.symm {α : Type} {s s' : LinearSystem κ α} (h : s.Rearranged s') :
    s'.Rearranged s := by
  obtain ⟨e, hperm, hmatch⟩ := h
  obtain ⟨e', hmatch', hperm'⟩ := List.perm_comp_forall₂ hperm hmatch
  refine ⟨e', hperm'.symm, hmatch'.flip.imp fun r r' hr => ?_⟩
  exact ⟨hr.1.symm, hr.2.1.symm, hr.2.2.symm⟩

variable {s s' : LinearSystem κ ℝ}

theorem Rearranged.listed (h : s.Rearranged s') : Listed s.equations s'.equations := by
  obtain ⟨e, hperm, hmatch⟩ := h
  exact ⟨e, hperm, hmatch.imp fun r r' hr => matching_of_blocks_perm hr.1 hr.2.1
    (by rw [LinearEquation.isHard, LinearEquation.isHard, hr.2.2])⟩

/-- Weighting keeps the order. -/
theorem Rearranged.listed_prepared (h : s.Rearranged s') : Listed (prepared s) (prepared s') := by
  obtain ⟨e, hperm, hmatch⟩ := h
  refine ⟨_, hperm.map _, ?_⟩
  rw [prepared, List.forall₂_map_left_iff, List.forall₂_map_right_iff]
  refine hmatch.imp fun r r' hr => ?_
  obtain ⟨hblocks, hrhs, hnoise⟩ := hr
  have hkind : r.isHard = r'.isHard := by rw [LinearEquation.isHard, LinearEquation.isHard, hnoise]
  rw [← hkind]
  split_ifs
  · exact matching_of_blocks_perm hblocks hrhs hkind
  · refine matching_of_blocks_perm ?_ ?_ rfl
    · show (r.blocks.map fun b => (b.1, r.noise.weighRows b.2)).Perm
        (r'.blocks.map fun b => (b.1, r'.noise.weighRows b.2))
      rw [hnoise]
      exact hblocks.map _
    · show r.noise.weigh r.rhs = r'.noise.weigh r'.rhs
      rw [hnoise, hrhs]

/-- Whether the blocks of a variable agree does not depend on their order. -/
theorem Rearranged.consistent (h : s.Rearranged s') (hs : s.Consistent) : s'.Consistent := by
  have hblock : ∀ b ∈ s'.equations.flatMap LinearEquation.blocks,
      ∃ c ∈ s.equations.flatMap LinearEquation.blocks, (c.1, c.2.ncols) = (b.1, b.2.ncols) := by
    intro b hb
    obtain ⟨r', hr', hb⟩ := List.mem_flatMap.mp hb
    obtain ⟨r, hr, hmem⟩ := h.listed.exists_mem_shape_iff.mpr ⟨r', hr', List.mem_map.mpr ⟨b, hb, rfl⟩⟩
    obtain ⟨c, hc, heq⟩ := List.mem_map.mp hmem
    exact ⟨c, List.mem_flatMap.mpr ⟨r, hr, hc⟩, heq⟩
  intro b hb b' hb' hkey
  obtain ⟨c, hc, heq⟩ := hblock b hb
  obtain ⟨c', hc', heq'⟩ := hblock b' hb'
  obtain ⟨hk, hn⟩ := Prod.mk.inj heq
  obtain ⟨hk', hn'⟩ := Prod.mk.inj heq'
  rw [← hn, ← hn', hs c hc c' hc' (hk.trans (hkey.trans hk'.symm))]

end LinearSystem

namespace Elimination

variable [LinearOrder κ] {D : Decompositions ℝ} {s s' : LinearSystem κ ℝ}

/-- **Elimination does not see how a system is listed.** With its equations in another order,
and the blocks of each in another order, a system has the same nets: the same triangular
factors, parents and right-hand sides in every conditional. -/
theorem eliminate_eq_of_rearranged (hD : D.IsExact) (hS : D.IsComplete) (h : s.Rearranged s')
    (ordering : List κ) (net : BayesNet κ ℝ) :
    eliminate D s ordering = .ok net ↔ eliminate D s' ordering = .ok net := by
  suffices hone : ∀ {s s' : LinearSystem κ ℝ}, s.Rearranged s' → eliminate D s ordering = .ok net →
      eliminate D s' ordering = .ok net from ⟨hone h, hone h.symm⟩
  intro s s' h hnet
  obtain ⟨w, final, hw, hrun, hend⟩ := eliminate_eq_ok_iff.mp hnet
  obtain ⟨w', hw'⟩ := exists_widths (h.consistent (exists_widths_iff.mp ⟨w, hw⟩))
  have hruns : Alike (fun x y => x.1 = y.1 ∧ Listed x.2 y.2) (eliminateAll D w ordering (prepared s))
      (eliminateAll D w' ordering (prepared s')) :=
    h.listed_prepared.eliminateAll hD hS (fitted_prepared (widths_eq_ok hw).1)
      (fitted_prepared (widths_eq_ok hw').1)
  rw [hrun] at hruns
  generalize hrun' : eliminateAll D w' ordering (prepared s') = x at hruns
  cases hruns with
  | ok hsame =>
    rename_i answer
    obtain ⟨conditionals, final'⟩ := answer
    obtain ⟨rfl, hlisted⟩ := hsame
    refine eliminate_eq_ok_iff.mpr ⟨w', final', hw', hrun', ?_⟩
    rw [List.eq_nil_iff_forall_not_mem] at hend ⊢
    exact fun k hk => hend k (hlisted.mem_mentioned_iff.mpr hk)

/-- The hard equation `x₀ = 1` and the soft equation `x₀ + x₁ = 1`. -/
noncomputable def pinnedSum : LinearSystem ℕ ℝ :=
  ⟨[sumEquation true [0] 1, sumEquation false [0, 1] 1]⟩

/-- The same from last to first. -/
noncomputable def reversedSum : LinearSystem ℕ ℝ :=
  ⟨[sumEquation false [1, 0] 1, sumEquation true [0] 1]⟩

/-- The net with `x₁` eliminated before `x₀`. -/
theorem exists_eliminate_pinnedSum : ∃ net, eliminate .standard pinnedSum [1, 0] = .ok net := by
  obtain ⟨w, hw⟩ : ∃ w, widths pinnedSum = .ok w := ⟨_, rfl⟩
  obtain ⟨hfit, hdims⟩ := widths_eq_ok hw
  have hfit := fitted_prepared hfit
  -- one row on `x₁` is used up
  have hlong : negligiblePivot ^ 2 < totalEnergy (pivotal (prepared pinnedSum) 1) 0 (unitAt 1) := by
    have hpivotal : pivotal (prepared pinnedSum) 1 = [(sumEquation false [0, 1] 1).weighted] := rfl
    rw [hpivotal, totalEnergy_cons, totalEnergy_nil, energy_weighted_sumEquation, negligiblePivot]
    norm_num [unitAt]
  obtain ⟨c, rest, hnext⟩ := exists_eliminateNext_one hfit (hdims 1) hlong
  obtain ⟨_, _, _, hstep⟩ := isStep_of_eliminateNext hnext
  obtain rfl : rest = [sumEquation true [0] 1] :=
    hstep.rest_eq_untouched Decompositions.standard_isTriangular (hdims 1).symm
  -- and the row on `x₀` after it
  have hlong' : negligiblePivot ^ 2 <
      totalEnergy (pivotal [sumEquation true [0] 1] 0) 0 (unitAt 0) := by
    have hpivotal : pivotal [sumEquation true [0] (1 : ℝ)] 0 = [sumEquation true [0] 1] := rfl
    rw [hpivotal, totalEnergy_cons, totalEnergy_nil, energy_sumEquation, negligiblePivot]
    norm_num [unitAt]
  obtain ⟨c', rest', hnext'⟩ := exists_eliminateNext_one (hstep.fitted hfit) (hdims 0) hlong'
  obtain ⟨_, _, _, hstep'⟩ := isStep_of_eliminateNext hnext'
  obtain rfl : rest' = [] :=
    hstep'.rest_eq_untouched Decompositions.standard_isTriangular (hdims 0).symm
  refine ⟨⟨[c, c']⟩, eliminate_eq_ok_iff.mpr ⟨w, [], hw, ?_, rfl⟩⟩
  rw [eliminateAll_cons_eq_bind hnext, eliminateAll_cons_eq_bind hnext']
  rfl

/-- It is the net of the reversed listing. -/
theorem eliminate_reversedSum : ∃ net, eliminate .standard pinnedSum [1, 0] = .ok net ∧
    eliminate .standard reversedSum [1, 0] = .ok net := by
  obtain ⟨net, hnet⟩ := exists_eliminate_pinnedSum
  have hrearranged : pinnedSum.Rearranged reversedSum := by
    refine ⟨[sumEquation false [0, 1] 1, sumEquation true [0] 1], List.Perm.swap _ _ _, ?_⟩
    exact .cons ⟨List.Perm.swap _ _ _, rfl, rfl⟩ (.cons ⟨List.Perm.refl _, rfl, rfl⟩ .nil)
  exact ⟨net, hnet, (eliminate_eq_of_rearranged Decompositions.standard_isExact
    Decompositions.standard_isComplete hrearranged [1, 0] net).mp hnet⟩

end Elimination
end Kinodynamics
