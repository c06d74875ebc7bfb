/-
# Stacks, remainders and conditionals as equations

A valuation spread out over a layout is the vector that the columns of a stack meet
(`spread`). On it a stack has the energies of its equations added up
(`energy_stackRows`), a remainder equation has the energy of the rows it was cut from
(`IsRemainder.energy_eq`), and a conditional that of its rows
(`energy_conditionalOf`). A wrong offset, a row left out or a column cut in the wrong
place would show here.

Key definitions: `Elimination.spread`, `Elimination.valuationOver`.
Key theorems: `Elimination.energy_stackRows`, `Elimination.IsRemainder.energy_eq`,
`Elimination.energy_conditionalOf`.
-/
import Kinodynamics.Proofs.Gaussian.Solution

namespace Kinodynamics
namespace Elimination

open Finset

variable {κ : Type}

/-- A valuation over the columns of a layout, with `-t` for the right-hand side. -/
def spread (t : ℝ) (x : Valuation κ) : Layout κ → ℕ → ℝ
  | [], _ => -t
  | (key, n) :: layout, j => if j < n then x key j else spread t x layout (j - n)

theorem spread_cons_of_lt (t : ℝ) (x : Valuation κ) (key : κ) {n j : ℕ} (layout : Layout κ)
    (h : j < n) : spread t x ((key, n) :: layout) j = x key j := if_pos h

theorem spread_cons_add (t : ℝ) (x : Valuation κ) (key : κ) (n j : ℕ) (layout : Layout κ) :
    spread t x ((key, n) :: layout) (n + j) = spread t x layout j := by
  rw [spread, if_neg (by omega), Nat.add_sub_cancel_left]

theorem spread_width (t : ℝ) (x : Valuation κ) : ∀ layout : Layout κ,
    spread t x layout (width layout) = -t
  | [] => rfl
  | (key, n) :: layout => by
    rw [width, spread_cons_add, spread_width t x layout]

/-- Without right-hand sides a valuation is zero beyond the layout. -/
theorem spread_zero_of_le (x : Valuation κ) : ∀ {layout : Layout κ} {j : ℕ}, width layout ≤ j →
    spread 0 x layout j = 0
  | [], _, _ => neg_zero
  | (key, n) :: layout, j, h => by
    rw [width] at h
    obtain ⟨j, rfl⟩ := Nat.exists_eq_add_of_le (show n ≤ j by omega)
    rw [spread_cons_add, spread_zero_of_le x (by omega)]

/-- The valuation that a vector over a layout comes from. -/
def valuationOver [DecidableEq κ] : Layout κ → (ℕ → ℝ) → κ → ℕ → ℝ
  | [], _, _, _ => 0
  | (key, n) :: layout, v, k, j =>
    if k = key then v j else valuationOver layout (fun j => v (n + j)) k j

theorem spread_congr {t : ℝ} {x y : Valuation κ} : ∀ {layout : Layout κ},
    (∀ l ∈ layout, x l.1 = y l.1) → spread t x layout = spread t y layout
  | [], _ => rfl
  | (key, n) :: layout, h => by
    funext j
    rw [spread, spread, h _ List.mem_cons_self,
      spread_congr fun l hl => h l (List.mem_cons_of_mem _ hl)]

/-- Every vector over a layout comes from a valuation. -/
theorem spread_valuationOver [DecidableEq κ] (t : ℝ) : ∀ {layout : Layout κ} (v : ℕ → ℝ),
    (layout.map Prod.fst).Nodup → ∀ j < width layout, spread t (valuationOver layout v) layout j = v j
  | [], _, _, j, hj => absurd hj (Nat.not_lt_zero j)
  | (key, n) :: layout, v, hnodup, j, hj => by
    obtain ⟨hkey, hnodup⟩ := List.nodup_cons.mp hnodup
    by_cases hjn : j < n
    · rw [spread_cons_of_lt t _ key layout hjn, valuationOver, if_pos rfl]
    · obtain ⟨j, rfl⟩ := Nat.exists_eq_add_of_le (not_lt.mp hjn)
      have hrest : spread t (valuationOver ((key, n) :: layout) v) layout =
          spread t (valuationOver layout fun j => v (n + j)) layout := by
        refine spread_congr fun l hl => ?_
        have hne : l.1 ≠ key := fun heq => hkey (List.mem_map.mpr ⟨l, hl, heq⟩)
        funext i
        rw [valuationOver, if_neg hne]
      rw [width] at hj
      rw [spread_cons_add, hrest, spread_valuationOver t _ hnodup j (by omega)]

/-! ### One row -/

/-- The product of a row with a vector. -/
def rowProduct (row : List ℝ) (v : ℕ → ℝ) : ℝ := ∑ j ∈ range row.length, row.getD j 0 * v j

theorem rowProduct_append (a b : List ℝ) (v : ℕ → ℝ) :
    rowProduct (a ++ b) v = rowProduct a v + rowProduct b fun j => v (a.length + j) := by
  rw [rowProduct, List.length_append, sum_range_add]
  congr 1
  · exact sum_congr rfl fun j hj => by rw [List.getD_append _ _ _ _ (mem_range.mp hj)]
  · refine sum_congr rfl fun j _ => ?_
    rw [List.getD_append_right _ _ _ _ (Nat.le_add_right _ _), Nat.add_sub_cancel_left]

theorem rowProduct_map_range (n : ℕ) (f : ℕ → ℝ) (v : ℕ → ℝ) :
    rowProduct ((List.range n).map f) v = ∑ j ∈ range n, f j * v j := by
  rw [rowProduct, List.length_map, List.length_range]
  exact sum_congr rfl fun j hj => by
    have hj := mem_range.mp hj
    simp [List.getD_eq_getElem?_getD, hj]

section Row

variable [DecidableEq κ]

/-- Entry `(i, j)` of the block of a key among `blocks`, zero if it has none. -/
def blockEntry (blocks : List (κ × Dense ℝ)) (key : κ) (i j : ℕ) : ℝ :=
  ((blocks.find? fun b => b.1 = key).map fun b => b.2.entry i j).getD 0

theorem blockEntry_cons (b : κ × Dense ℝ) (blocks : List (κ × Dense ℝ)) (key : κ) (i j : ℕ) :
    blockEntry (b :: blocks) key i j =
      if b.1 = key then b.2.entry i j else blockEntry blocks key i j := by
  unfold blockEntry
  by_cases h : b.1 = key <;> simp [h]

theorem blockEntry_of_notMem {blocks : List (κ × Dense ℝ)} {key : κ}
    (h : key ∉ blocks.map Prod.fst) (i j : ℕ) : blockEntry blocks key i j = 0 := by
  have hnone : blocks.find? (fun b => b.1 = key) = none := by
    refine List.find?_eq_none.mpr fun b hb heq => h ?_
    rw [← of_decide_eq_true heq]
    exact List.mem_map_of_mem hb
  rw [blockEntry, hnone]
  rfl

theorem rowOver_eq (layout : Layout κ) (r : LinearEquation κ ℝ) (i : ℕ) :
    rowOver layout r i =
      (layout.flatMap fun l => (List.range l.2).map (blockEntry r.blocks l.1 i)) ++ [r.rhs.getD i 0] := by
  rw [rowOver]
  congr 2
  funext l
  refine List.map_congr_left fun j _ => ?_
  rw [LinearEquation.coefficient?, blockEntry]
  cases r.blocks.find? fun b => b.1 = l.1 <;> rfl

theorem length_rowOver (r : LinearEquation κ ℝ) (i : ℕ) : ∀ layout : Layout κ,
    (rowOver layout r i).length = width layout + 1 := by
  intro layout
  rw [rowOver_eq, List.length_append, List.length_singleton]
  congr 1
  induction layout with
  | nil => rfl
  | cons l layout ih =>
    rw [List.flatMap_cons, List.length_append, ih, List.length_map, List.length_range, width]

omit [DecidableEq κ] in
/-- A row over a layout meets each variable in its columns. -/
theorem rowProduct_layout (f : κ → ℕ → ℝ) (b t : ℝ) (x : Valuation κ) : ∀ layout : Layout κ,
    rowProduct ((layout.flatMap fun l => (List.range l.2).map (f l.1)) ++ [b]) (spread t x layout) =
      (layout.map fun l => ∑ j ∈ range l.2, f l.1 j * x l.1 j).sum - t * b
  | [] => by
    simp [rowProduct, spread]
    ring
  | (key, n) :: layout => by
    have hlen : ((List.range n).map (f key)).length = n := by simp
    rw [List.flatMap_cons, List.append_assoc, rowProduct_append, hlen, rowProduct_map_range,
      List.map_cons, List.sum_cons, add_sub_assoc, ← rowProduct_layout f b t x layout]
    congr 1
    · exact sum_congr rfl fun j hj => by
        rw [spread_cons_of_lt t x key layout (mem_range.mp hj)]
    · simp only [spread_cons_add]

/-- A sum over the variables of a layout that has one term. -/
theorem sum_layout_ite {key : κ} {n : ℕ} (g : κ × ℕ → ℝ) : ∀ {layout : Layout κ},
    (layout.map Prod.fst).Nodup → (key, n) ∈ layout →
      (layout.map fun l => if key = l.1 then g l else 0).sum = g (key, n)
  | [], _, h => by cases h
  | l :: layout, hnodup, h => by
    obtain ⟨hl, hnodup⟩ := List.nodup_cons.mp hnodup
    rw [List.map_cons, List.sum_cons]
    rcases List.mem_cons.mp h with rfl | h
    · have hzero : (layout.map fun l => if key = l.1 then g l else 0).sum = 0 := by
        refine List.sum_eq_zero fun e he => ?_
        obtain ⟨l, hmem, rfl⟩ := List.mem_map.mp he
        rw [if_neg]
        exact fun heq => hl (List.mem_map.mpr ⟨l, hmem, heq.symm⟩)
      rw [if_pos rfl, hzero, add_zero]
    · have hne : key ≠ l.1 := fun heq => hl (List.mem_map.mpr ⟨(key, n), h, heq⟩)
      rw [if_neg hne, zero_add, sum_layout_ite g hnodup h]

/-- Summed over the layout or over the blocks, an equation is the same. -/
theorem sum_layout_blockEntry {layout : Layout κ} (hnodup : (layout.map Prod.fst).Nodup)
    (x : Valuation κ) (i : ℕ) : ∀ {blocks : List (κ × Dense ℝ)}, (blocks.map Prod.fst).Nodup →
      (∀ b ∈ blocks, (b.1, b.2.ncols) ∈ layout) →
      (layout.map fun l => ∑ j ∈ range l.2, blockEntry blocks l.1 i j * x l.1 j).sum =
        (blocks.map fun b => b.2.image (x b.1) i).sum
  | [], _, _ => by simp [blockEntry]
  | b :: blocks, hkeys, hmem => by
    obtain ⟨hb, hkeys⟩ := List.nodup_cons.mp hkeys
    have hsplit : ∀ l : κ × ℕ, ∑ j ∈ range l.2, blockEntry (b :: blocks) l.1 i j * x l.1 j =
        (if b.1 = l.1 then ∑ j ∈ range l.2, b.2.entry i j * x l.1 j else 0) +
          ∑ j ∈ range l.2, blockEntry blocks l.1 i j * x l.1 j := by
      intro l
      simp only [blockEntry_cons]
      by_cases hl : b.1 = l.1
      · have hzero : ∑ j ∈ range l.2, blockEntry blocks l.1 i j * x l.1 j = 0 :=
          sum_eq_zero fun j _ => by rw [blockEntry_of_notMem (hl ▸ hb), zero_mul]
        simp only [if_pos hl, hzero, add_zero]
      · simp only [if_neg hl, zero_add]
    simp only [hsplit]
    rw [List.sum_map_add, sum_layout_ite _ hnodup (hmem b List.mem_cons_self),
      sum_layout_blockEntry hnodup x i hkeys fun b' hb' => hmem b' (List.mem_cons_of_mem _ hb'),
      List.map_cons, List.sum_cons]
    rfl

/-- **A row of a stack meets a spread valuation in the defect of its equation.** -/
theorem rowProduct_rowOver {layout : Layout κ} (hnodup : (layout.map Prod.fst).Nodup)
    {r : LinearEquation κ ℝ} (hmem : ∀ b ∈ r.blocks, (b.1, b.2.ncols) ∈ layout) (t : ℝ)
    (x : Valuation κ) (i : ℕ) :
    rowProduct (rowOver layout r i) (spread t x layout) = r.defect t x i := by
  rw [rowOver_eq, rowProduct_layout (fun k j => blockEntry r.blocks k i j),
    sum_layout_blockEntry hnodup x i r.keys_nodup hmem]
  rfl

end Row

/-! ### Stacks -/

/-- The energy of a matrix given by rows. -/
theorem energy_ofRows {n : ℕ} (v : ℕ → ℝ) {rows : List (List ℝ)} (h : ∀ row ∈ rows, row.length = n) :
    (Dense.ofRows n rows).energy v = (rows.map fun row => rowProduct row v ^ 2).sum := by
  rw [Scalar.list_sum_eq_sum_getD, List.length_map]
  refine sum_congr rfl fun i hi => ?_
  have hi : i < rows.length := mem_range.mp hi
  have hrow : rows.getD i [] = rows[i] := List.getD_eq_getElem _ _ hi
  have himage : (Dense.ofRows n rows).image v i = rowProduct rows[i] v := by
    rw [rowProduct, h _ (List.getElem_mem hi)]
    refine sum_congr rfl fun j hj => ?_
    rw [Dense.ofRows, Dense.entry_ofFn_of_lt _ hi (mem_range.mp hj), hrow]
  rw [himage, List.getD_eq_getElem _ _ (by rwa [List.length_map]), List.getElem_map]

/-- **A stack has the energies of its equations.** -/
theorem energy_stackRows [DecidableEq κ] {layout : Layout κ} (hnodup : (layout.map Prod.fst).Nodup)
    {equations : List (LinearEquation κ ℝ)}
    (hmem : ∀ r ∈ equations, ∀ b ∈ r.blocks, (b.1, b.2.ncols) ∈ layout) (t : ℝ) (x : Valuation κ) :
    (stackRows layout equations).energy (spread t x layout) = totalEnergy equations t x := by
  rw [stackRows, energy_ofRows]
  · induction equations with
    | nil => rfl
    | cons r equations ih =>
      have hr : (((List.range r.rows).map (rowOver layout r)).map
          fun row => rowProduct row (spread t x layout) ^ 2).sum = r.energy t x := by
        rw [Scalar.list_sum_eq_sum_getD, List.length_map, List.length_map, List.length_range]
        refine sum_congr rfl fun i hi => ?_
        have hi := mem_range.mp hi
        rw [List.getD_eq_getElem _ _ (by simpa using hi), List.getElem_map, List.getElem_map,
          List.getElem_range, rowProduct_rowOver hnodup (hmem r List.mem_cons_self)]
      rw [List.flatMap_cons, List.map_append, List.sum_append, hr, totalEnergy_cons,
        ih fun r' hr' => hmem r' (List.mem_cons_of_mem _ hr')]
  · intro row hrow
    obtain ⟨r, -, hrow⟩ := List.mem_flatMap.mp hrow
    obtain ⟨i, -, rfl⟩ := List.mem_map.mp hrow
    exact length_rowOver r i layout

/-! ### Cut rows -/

/-- Blocks cut from the columns of a layout meet a valuation as the columns meet it spread out. -/
theorem sum_cut (a : Dense ℝ) (t : ℝ) (x : Valuation κ) {i : ℕ} (hi : i < a.nrows) :
    ∀ (c : ℕ) (layout : Layout κ),
      ((cut a c layout).map fun b => b.2.image (x b.1) i).sum =
        ∑ j ∈ range (width layout), a.entry i (c + j) * spread t x layout j
  | _, [] => by simp [cut, width]
  | c, (key, n) :: layout => by
    rw [cut, List.map_cons, List.sum_cons, sum_cut a t x hi (c + n) layout, width, sum_range_add,
      Dense.image_view _ hi]
    congr 1
    · refine sum_congr rfl fun j hj => ?_
      rw [spread_cons_of_lt t x key layout (mem_range.mp hj), Nat.zero_add]
    · refine sum_congr rfl fun j _ => ?_
      rw [spread_cons_add, Nat.add_assoc]

/-- **A remainder has the energy of its rows.** Rows over no variables are not handed on. -/
theorem IsRemainder.energy_eq {layout : Layout κ} {rest : Dense ℝ} {noise : ℕ → Noise ℝ}
    {equations : List (LinearEquation κ ℝ)} (h : IsRemainder layout rest noise equations)
    (hn : rest.ncols = width layout + 1) (t : ℝ) (x : Valuation κ) :
    rest.energy (spread t x layout) =
      totalEnergy equations t x + if layout.isEmpty then rest.energy fun _ => -t else 0 := by
  rcases h with ⟨rfl, rfl | hrows⟩ | ⟨r, rfl, hlayout, -, hblocks, hrhs, -⟩
  · rw [totalEnergy_nil, zero_add, List.isEmpty_nil, if_pos rfl]
    exact rest.energy_congr fun j _ => rfl
  · rw [totalEnergy_nil, zero_add, Dense.energy_of_nrows_eq_zero hrows,
      Dense.energy_of_nrows_eq_zero hrows, ite_self]
  · have hlen : r.rows = rest.nrows := by rw [LinearEquation.rows, hrhs, Dense.length_column]
    have hempty : layout.isEmpty = false := by simpa using hlayout
    rw [totalEnergy_cons, totalEnergy_nil, add_zero, hempty, if_neg Bool.false_ne_true, add_zero,
      LinearEquation.energy, hlen]
    refine sum_congr rfl fun i hi => ?_
    rw [LinearEquation.defect, hblocks, sum_cut rest t x (mem_range.mp hi), hrhs, Dense.getD_column,
      Dense.image, hn, sum_range_succ, spread_width]
    simp only [Nat.zero_add]
    ring

/-- Without right-hand sides nothing is lost with rows over no variables. -/
theorem IsRemainder.totalEnergy_zero_eq {layout : Layout κ} {rows : Dense ℝ} {noise : ℕ → Noise ℝ}
    {equations : List (LinearEquation κ ℝ)} (h : IsRemainder layout rows noise equations)
    (hn : rows.ncols = width layout + 1) (x : Valuation κ) :
    totalEnergy equations 0 x = rows.energy (spread 0 x layout) := by
  have hlost : (if layout.isEmpty then rows.energy fun _ => -0 else 0) = 0 := by
    split_ifs
    · exact Dense.energy_eq_zero_iff.mpr fun i _ => sum_eq_zero fun j _ => by rw [neg_zero, mul_zero]
    · rfl
  rw [h.energy_eq hn, hlost, add_zero]

/-- **A conditional has the energy of its rows.** -/
theorem energy_conditionalOf [LinearOrder κ] {widths : Assignment κ ℕ}
    {remaining : List (LinearEquation κ ℝ)} {frontal : κ} {rows : Dense ℝ}
    (hn : rows.ncols = width (layoutOf widths remaining frontal) + 1) (x : Valuation κ) :
    (conditionalOf widths remaining frontal rows).energy x =
      (rows.view 0 0 (widthOf widths frontal) rows.ncols).energy
        (spread 1 x (layoutOf widths remaining frontal)) := by
  set n := widthOf widths frontal with hwidth
  set sep := separating widths remaining frontal with hsep
  set top := rows.view 0 0 n rows.ncols with htop
  have hlayout : layoutOf widths remaining frontal = (frontal, n) :: sep := rfl
  refine sum_congr rfl fun i hi => ?_
  have hi : i < top.nrows := mem_range.mp hi
  have hd : (top.column (width (layoutOf widths remaining frontal))).getD i 0 =
      top.entry i (n + width sep) := Dense.getD_column _ _ _
  have hr : (top.view 0 0 n n).image (x frontal) i = ∑ j ∈ range n, top.entry i j * x frontal j := by
    have hi : i < n := hi
    rw [Dense.image_view _ hi]
    simp only [Nat.zero_add]
  have hdefect : (conditionalOf widths remaining frontal rows).defect x i =
      (top.view 0 0 n n).image (x frontal) i +
        ((cut top n sep).map fun b => b.2.image (x b.1) i).sum -
          (top.column (width (layoutOf widths remaining frontal))).getD i 0 := rfl
  have himage : top.image (spread 1 x (layoutOf widths remaining frontal)) i =
      ∑ j ∈ range n, top.entry i j * x frontal j +
        (∑ j ∈ range (width sep), top.entry i (n + j) * spread 1 x sep j +
          top.entry i (n + width sep) * -1) := by
    rw [Dense.image, show top.ncols = n + (width sep + 1) from hn, sum_range_add, sum_range_succ,
      hlayout]
    simp only [spread_cons_add, spread_width]
    congr 1
    exact sum_congr rfl fun j hj => by rw [spread_cons_of_lt 1 x frontal sep (mem_range.mp hj)]
  rw [hdefect, himage, hr, hd, sum_cut top 1 x hi]
  ring

end Elimination
end Kinodynamics
