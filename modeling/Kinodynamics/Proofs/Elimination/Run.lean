/-
# Keys and widths along a run

A run takes its variables out one by one. What it needs of the equations that
remain is that their blocks have the widths listed at the start (`Fitted`) and
that they mention no variable already taken out. A step keeps the first and adds
its variable to the second: the remainders are over the separator, which is in
key order and leaves the frontal variable out.

Key definitions: `LinearSystem.dim`, `LinearSystem.Consistent`, `LinearSystem.Fits`,
`Elimination.mentioned`, `Elimination.Fitted`.
Key theorems: `Elimination.widths_eq_ok`, `Elimination.exists_widths_iff`, `Elimination.IsStep.fitted`,
`Elimination.IsStep.mem_mentioned_rest`, `Elimination.eliminate_eq_ok_iff`.
-/
import Mathlib
import Kinodynamics.Key
import Kinodynamics.Proofs.Elimination.Step

namespace Kinodynamics

/-! ### Keys in order -/

section Keys

variable {κ : Type} [LinearOrder κ]

theorem pairwise_insertKey (k : κ) : ∀ {ks : List κ}, ks.Pairwise (· < ·) →
    (insertKey k ks).Pairwise (· < ·)
  | [], _ => List.pairwise_singleton _ _
  | x :: xs, h => by
    obtain ⟨hx, hxs⟩ := List.pairwise_cons.mp h
    unfold insertKey
    split_ifs with h1 h2
    · refine List.pairwise_cons.mpr ⟨fun y hy => ?_, h⟩
      rcases List.mem_cons.mp hy with rfl | hy
      · exact h1
      · exact h1.trans (hx y hy)
    · refine List.pairwise_cons.mpr ⟨fun y hy => ?_, pairwise_insertKey k hxs⟩
      rcases (mem_insertKey fun a b h h' => le_antisymm (not_lt.mp h') (not_lt.mp h)).mp hy with
        rfl | hy
      · exact h2
      · exact hx y hy
    · exact h

theorem pairwise_sortedKeys (ks : List κ) : (sortedKeys ks).Pairwise (· < ·) := by
  suffices h : ∀ sorted : List κ, sorted.Pairwise (· < ·) →
      (ks.foldl (fun sorted k => insertKey k sorted) sorted).Pairwise (· < ·) from
    h [] List.Pairwise.nil
  induction ks with
  | nil => exact fun _ h => h
  | cons k ks ih => exact fun sorted h => ih _ (pairwise_insertKey k h)

theorem mem_sortedKeys_iff {k : κ} {ks : List κ} : k ∈ sortedKeys ks ↔ k ∈ ks :=
  mem_sortedKeys fun _ _ h h' => le_antisymm (not_lt.mp h') (not_lt.mp h)

end Keys

/-- The keys of the program are in a linear order. -/
instance : LinearOrder Key where
  le k l := k.code ≤ l.code
  le_refl k := le_refl k.code
  le_trans _ _ _ h h' := le_trans (α := List ℕ) h h'
  le_antisymm _ _ h h' := Key.code_injective (le_antisymm h h')
  le_total k l := le_total k.code l.code
  lt_iff_le_not_ge k l := lt_iff_le_not_ge (a := k.code) (b := l.code)
  toDecidableLE k l := inferInstanceAs (Decidable (k.code ≤ l.code))
  toDecidableEq := inferInstance
  toDecidableLT := inferInstance

theorem LinearEquation.mentions_iff {κ α : Type} [DecidableEq κ] {r : LinearEquation κ α} {k : κ} :
    r.mentions k = true ↔ k ∈ r.keys := by
  simp [mentions, keys]

theorem LinearEquation.rows_weighted {κ α : Type} [Scalar α] (r : LinearEquation κ α) :
    r.weighted.rows = r.rows := by
  show (r.noise.weigh r.rhs).length = r.rhs.length
  rw [Noise.length_weigh, r.noise_dim, Nat.min_self]

namespace LinearSystem

variable {κ α : Type} [DecidableEq κ]

/-- The number of entries of a variable: the width of its first block, zero if it has
none. -/
def dim (s : LinearSystem κ α) (key : κ) : ℕ :=
  (((s.equations.flatMap LinearEquation.blocks).find? fun b => b.1 = key).map
    fun b => b.2.ncols).getD 0

/-- All blocks of a variable have one width. -/
def Consistent (s : LinearSystem κ α) : Prop :=
  ∀ b ∈ s.equations.flatMap LinearEquation.blocks,
    ∀ b' ∈ s.equations.flatMap LinearEquation.blocks, b.1 = b'.1 → b.2.ncols = b'.2.ncols

/-- A solution has a value of the right size for each key. -/
def Fits (s : LinearSystem κ α) (x : Solution κ α) : Prop :=
  ∀ k ∈ s.keys, ∃ v, x.get? k = some v ∧ v.length = s.dim k

/-- The keys of a system are the keys of its equations. -/
theorem mem_keys {s : LinearSystem κ α} {k : κ} :
    k ∈ s.keys ↔ k ∈ s.equations.flatMap LinearEquation.keys := by
  suffices h : ∀ (ks seen : List κ),
      k ∈ ks.foldl (fun keys k => if k ∈ keys then keys else keys ++ [k]) seen ↔
        k ∈ seen ∨ k ∈ ks by
    simpa [keys] using h (s.equations.flatMap LinearEquation.keys) []
  intro ks
  induction ks with
  | nil => simp
  | cons l ks ih =>
    intro seen
    rw [List.foldl_cons, ih, List.mem_cons]
    split_ifs with hl
    · constructor
      · rintro (h | h)
        · exact Or.inl h
        · exact Or.inr (Or.inr h)
      · rintro (h | rfl | h)
        · exact Or.inl h
        · exact Or.inl hl
        · exact Or.inr h
    · rw [List.mem_append, List.mem_singleton, or_assoc]

/-- Each key of a system is listed once. -/
theorem nodup_keys (s : LinearSystem κ α) : s.keys.Nodup := by
  suffices h : ∀ ks seen : List κ, seen.Nodup →
      (ks.foldl (fun keys k => if k ∈ keys then keys else keys ++ [k]) seen).Nodup from
    h _ [] List.nodup_nil
  intro ks
  induction ks with
  | nil => exact fun _ h => h
  | cons k ks ih =>
    intro seen hseen
    rw [List.foldl_cons]
    refine ih _ ?_
    split_ifs with hk
    · exact hseen
    · exact List.nodup_append.mpr ⟨hseen, List.nodup_singleton k, fun l hl l' hl' hll' =>
        hk (List.mem_singleton.mp hl' ▸ hll' ▸ hl)⟩

end LinearSystem

namespace Elimination

variable {κ α : Type}

/-- The variables that some equation involves. -/
def mentioned (equations : List (LinearEquation κ α)) : List κ :=
  equations.flatMap LinearEquation.keys

theorem mem_mentioned {equations : List (LinearEquation κ α)} {k : κ} :
    k ∈ mentioned equations ↔ ∃ r ∈ equations, k ∈ r.keys := List.mem_flatMap

theorem mem_keys_iff {r : LinearEquation κ α} {k : κ} : k ∈ r.keys ↔ ∃ b ∈ r.blocks, b.1 = k :=
  List.mem_map

theorem keys_weighted [Scalar α] (r : LinearEquation κ α) : r.weighted.keys = r.keys := by
  simp only [LinearEquation.keys, LinearEquation.weighted, List.map_map]
  rfl

theorem mentioned_prepared [Scalar α] (s : LinearSystem κ α) :
    mentioned (prepared s) = mentioned s.equations := by
  simp only [mentioned, prepared, List.flatMap_map]
  congr 1
  funext r
  split_ifs
  · rfl
  · exact keys_weighted r

/-- The keys of a system are the variables that its prepared equations involve. -/
theorem mem_keys_iff_prepared [DecidableEq κ] [Scalar α] {s : LinearSystem κ α} {k : κ} :
    k ∈ s.keys ↔ k ∈ mentioned (prepared s) := by
  rw [mentioned_prepared]
  exact LinearSystem.mem_keys

/-- The blocks of a remainder are those of its layout. -/
theorem IsRemainder.mem_layout [Scalar α] {layout : Layout κ} {rows : Dense α} {noise : ℕ → Noise α}
    {equations : List (LinearEquation κ α)} (h : IsRemainder layout rows noise equations)
    {r : LinearEquation κ α} (hr : r ∈ equations) {b : κ × Dense α} (hb : b ∈ r.blocks) :
    (b.1, b.2.ncols) ∈ layout := by
  rcases h with ⟨rfl, -⟩ | ⟨r', rfl, -, -, hblocks, -⟩
  · cases hr
  · obtain rfl := List.mem_singleton.mp hr
    rw [hblocks] at hb
    exact (shape_of_mem_cut hb).2

/-! ### Widths -/

variable [LinearOrder κ]

/-- Every block has the width listed for its variable. -/
def Fitted (widths : Assignment κ ℕ) (equations : List (LinearEquation κ α)) : Prop :=
  ∀ r ∈ equations, ∀ b ∈ r.blocks, widths.get? b.1 = some b.2.ncols

/-- The width of one more block listed, or compared with the one listed. -/
def addWidth (widths : Assignment κ ℕ) (b : κ × Dense α) : Except (Mismatch κ) (Assignment κ ℕ) :=
  match widths.get? b.1 with
  | none => .ok (widths.insert b.1 b.2.ncols)
  | some n => if n = b.2.ncols then .ok widths else .error (.width b.1 n b.2.ncols)

theorem widths_eq_foldlM (s : LinearSystem κ α) :
    widths s = (s.equations.flatMap LinearEquation.blocks).foldlM addWidth Assignment.empty := rfl

/-- What one block adds: its own width, and nothing else changes. -/
theorem addWidth_eq_ok {before after : Assignment κ ℕ} {b : κ × Dense α}
    (h : addWidth before b = .ok after) :
    (∀ k n, before.get? k = some n → after.get? k = some n) ∧
      after.get? b.1 = some b.2.ncols ∧
      ∀ k n, after.get? k = some n → before.get? k = some n ∨ b.1 = k := by
  unfold addWidth at h
  cases hkey : before.get? b.1 with
  | none =>
    rw [hkey] at h
    cases h
    refine ⟨fun k n hk => ?_, Assignment.get?_insert_self _ _ _, fun k n hk => ?_⟩
    · have hne : b.1 ≠ k := fun hne => by
        rw [hne, hk] at hkey
        cases hkey
      rw [Assignment.get?_insert_of_ne _ _ hne, hk]
    · by_cases hne : b.1 = k
      · exact Or.inr hne
      · exact Or.inl (by rwa [Assignment.get?_insert_of_ne _ _ hne] at hk)
  | some m =>
    simp only [hkey] at h
    split_ifs at h with hm
    cases h
    exact ⟨fun _ _ hk => hk, hkey.trans (congrArg some hm), fun _ _ hk => Or.inl hk⟩

/-- Listing widths from `before` on keeps those, lists each block's, and no others. -/
theorem foldlM_addWidth_eq_ok {blocks : List (κ × Dense α)} : ∀ {before after : Assignment κ ℕ},
    blocks.foldlM addWidth before = .ok after →
      (∀ k n, before.get? k = some n → after.get? k = some n) ∧
        (∀ b ∈ blocks, after.get? b.1 = some b.2.ncols) ∧
        ∀ k n, after.get? k = some n → before.get? k = some n ∨ ∃ b ∈ blocks, b.1 = k := by
  induction blocks with
  | nil =>
    intro before after h
    cases h
    exact ⟨fun _ _ h => h, by simp, fun _ _ h => Or.inl h⟩
  | cons b blocks ih =>
    intro before after h
    rw [List.foldlM_cons] at h
    cases hnext : addWidth before b with
    | error e => rw [hnext] at h; cases h
    | ok next =>
      rw [hnext] at h
      obtain ⟨hkeep, hown, honly⟩ := addWidth_eq_ok hnext
      obtain ⟨h1, h2, h3⟩ := ih h
      refine ⟨fun k n hk => h1 k n (hkeep k n hk), List.forall_mem_cons.mpr ⟨h1 _ _ hown, h2⟩,
        fun k n hk => ?_⟩
      rcases h3 k n hk with hk | ⟨b', hb', hbk⟩
      · rcases honly k n hk with hk | hbk
        · exact Or.inl hk
        · exact Or.inr ⟨b, List.mem_cons_self, hbk⟩
      · exact Or.inr ⟨b', List.mem_cons_of_mem _ hb', hbk⟩

/-- Widths that are listed are those of the blocks, and no others. -/
theorem widths_eq_ok {s : LinearSystem κ α} {w : Assignment κ ℕ} (h : widths s = .ok w) :
    Fitted w s.equations ∧ ∀ k, widthOf w k = s.dim k := by
  rw [widths_eq_foldlM] at h
  obtain ⟨-, h2, h3⟩ := foldlM_addWidth_eq_ok h
  refine ⟨fun r hr b hb => h2 b (List.mem_flatMap.mpr ⟨r, hr, hb⟩), fun k => ?_⟩
  unfold widthOf LinearSystem.dim
  cases hf : (s.equations.flatMap LinearEquation.blocks).find? fun b => b.1 = k with
  | some b =>
    have hk : b.1 = k := by simpa using List.find?_some hf
    rw [← hk, h2 b (List.mem_of_find?_eq_some hf)]
    rfl
  | none =>
    cases hw : w.get? k with
    | none => rfl
    | some n =>
      rcases h3 k n hw with h | ⟨b, hb, hbk⟩
      · cases h
      · simpa [hbk] using List.find?_eq_none.mp hf b hb

/-- Blocks of one width for each variable can all be listed, if the widths listed before are
theirs. -/
theorem exists_foldlM_addWidth : ∀ {blocks : List (κ × Dense α)} {before : Assignment κ ℕ},
    (∀ b ∈ blocks, ∀ b' ∈ blocks, b.1 = b'.1 → b.2.ncols = b'.2.ncols) →
    (∀ b ∈ blocks, ∀ n, before.get? b.1 = some n → n = b.2.ncols) →
      ∃ after, blocks.foldlM addWidth before = .ok after
  | [], before, _, _ => ⟨before, rfl⟩
  | b :: blocks, before, hagree, hlisted => by
    obtain ⟨next, hnext⟩ : ∃ next, addWidth before b = .ok next := by
      unfold addWidth
      cases hkey : before.get? b.1 with
      | none => exact ⟨_, rfl⟩
      | some n =>
        simp only [if_pos (hlisted b List.mem_cons_self n hkey)]
        exact ⟨_, rfl⟩
    obtain ⟨-, hown, honly⟩ := addWidth_eq_ok hnext
    have hrest : ∀ b' ∈ blocks, ∀ n, next.get? b'.1 = some n → n = b'.2.ncols := fun b' hb' n hn => by
      rcases honly _ n hn with hn' | heq
      · exact hlisted b' (List.mem_cons_of_mem _ hb') n hn'
      · rw [← heq, hown] at hn
        rw [← Option.some.inj hn]
        exact hagree b List.mem_cons_self b' (List.mem_cons_of_mem _ hb') heq
    obtain ⟨after, hafter⟩ := exists_foldlM_addWidth (fun b' hb' b'' hb'' =>
      hagree b' (List.mem_cons_of_mem _ hb') b'' (List.mem_cons_of_mem _ hb'')) hrest
    exact ⟨after, by rw [List.foldlM_cons, hnext]; exact hafter⟩

/-- The widths of a consistent system can be listed. -/
theorem exists_widths {s : LinearSystem κ α} (h : s.Consistent) : ∃ w, widths s = .ok w :=
  exists_foldlM_addWidth h fun _ _ _ hn => by cases hn

theorem Fitted.widthOf_eq {w : Assignment κ ℕ} {equations : List (LinearEquation κ α)}
    (h : Fitted w equations) {r : LinearEquation κ α} (hr : r ∈ equations) {b : κ × Dense α}
    (hb : b ∈ r.blocks) : widthOf w b.1 = b.2.ncols := by
  rw [widthOf, h r hr b hb]
  rfl

/-- A variable that is mentioned has its width listed. -/
theorem Fitted.get?_eq_widthOf {w : Assignment κ ℕ} {equations : List (LinearEquation κ α)}
    (h : Fitted w equations) {k : κ} (hk : k ∈ mentioned equations) :
    w.get? k = some (widthOf w k) := by
  obtain ⟨r, hr, hk⟩ := mem_mentioned.mp hk
  obtain ⟨b, hb, rfl⟩ := mem_keys_iff.mp hk
  rw [h.widthOf_eq hr hb, h r hr b hb]

/-- Fitted blocks of one variable have one width. -/
theorem consistent_of_fitted {s : LinearSystem κ α} {w : Assignment κ ℕ} (h : Fitted w s.equations) :
    s.Consistent := by
  intro b hb b' hb' heq
  obtain ⟨r, hr, hb⟩ := List.mem_flatMap.mp hb
  obtain ⟨r', hr', hb'⟩ := List.mem_flatMap.mp hb'
  have hwidth := h r hr b hb
  rw [heq, h r' hr' b' hb'] at hwidth
  exact (Option.some.inj hwidth).symm

/-- **Widths can be listed just if all blocks of a variable have one.** -/
theorem exists_widths_iff {s : LinearSystem κ α} : (∃ w, widths s = .ok w) ↔ s.Consistent :=
  ⟨fun ⟨_, hw⟩ => consistent_of_fitted (widths_eq_ok hw).1, exists_widths⟩

/-- Lists of widths that fit the same blocks agree on their variables. -/
theorem Fitted.widthOf_congr {w w' : Assignment κ ℕ} {equations : List (LinearEquation κ α)}
    (h : Fitted w equations) (h' : Fitted w' equations) {k : κ}
    (hk : k ∈ mentioned equations) : widthOf w k = widthOf w' k := by
  obtain ⟨r, hr, hk⟩ := mem_mentioned.mp hk
  obtain ⟨b, hb, rfl⟩ := mem_keys_iff.mp hk
  rw [h.widthOf_eq hr hb, h'.widthOf_eq hr hb]

/-- Weighting keeps keys and widths. -/
theorem fitted_prepared [Scalar α] {s : LinearSystem κ α} {w : Assignment κ ℕ} (h : Fitted w s.equations) :
    Fitted w (prepared s) := by
  intro r hr b hb
  obtain ⟨r, hr', rfl⟩ := List.mem_map.mp hr
  split_ifs at hb with hh
  · exact h r hr' b hb
  · obtain ⟨b, hb', rfl⟩ := List.mem_map.mp hb
    exact h r hr' b hb'

/-! ### The separator -/

variable {D : Decompositions α} {widths : Assignment κ ℕ} {remaining rest : List (LinearEquation κ α)}
  {frontal : κ} {out : StepRows α} {hardRest softRest : List (LinearEquation κ α)}
  {c : Conditional κ α}

theorem mem_touching {r : LinearEquation κ α} :
    r ∈ touching remaining frontal ↔ r ∈ remaining ∧ frontal ∈ r.keys := by
  rw [touching, List.mem_filter, LinearEquation.mentions_iff]

theorem mem_untouched {r : LinearEquation κ α} :
    r ∈ untouched remaining frontal ↔ r ∈ remaining ∧ frontal ∉ r.keys := by
  rw [untouched, List.mem_filter, ← LinearEquation.mentions_iff, Bool.not_eq_true',
    Bool.not_eq_true]

/-- Equations on a variable mention it. -/
theorem frontal_mem_mentioned (h : touching remaining frontal ≠ []) : frontal ∈ mentioned remaining := by
  obtain ⟨r, hr⟩ := List.exists_mem_of_ne_nil _ h
  exact mem_mentioned.mpr ⟨r, mem_touching.mp hr⟩

theorem mentioned_of_touching {k : κ} (h : k ∈ mentioned (touching remaining frontal)) :
    k ∈ mentioned remaining := by
  obtain ⟨r, hr, hkr⟩ := mem_mentioned.mp h
  exact mem_mentioned.mpr ⟨r, (mem_touching.mp hr).1, hkr⟩

theorem map_fst_separating : (separating widths remaining frontal).map Prod.fst =
    separator frontal (touching remaining frontal) := by
  rw [separating, List.map_map]
  exact List.map_id _

theorem pairwise_separating :
    ((separating widths remaining frontal).map Prod.fst).Pairwise (· < ·) := by
  rw [map_fst_separating]
  exact pairwise_sortedKeys _

/-- The separator has the other keys of the equations on the frontal variable. -/
theorem mem_separating {k : κ} : k ∈ (separating widths remaining frontal).map Prod.fst ↔
    k ≠ frontal ∧ k ∈ mentioned (touching remaining frontal) := by
  rw [map_fst_separating, separator, mem_sortedKeys_iff, List.mem_filter, decide_eq_true_eq,
    and_comm]
  rfl

theorem widthOf_of_mem_separating {l : κ × ℕ} (h : l ∈ separating widths remaining frontal) :
    widthOf widths l.1 = l.2 := by
  obtain ⟨k, -, rfl⟩ := List.mem_map.mp h
  rfl

/-- The layout has each variable once. -/
theorem nodup_layoutOf : ((layoutOf widths remaining frontal).map Prod.fst).Nodup := by
  refine List.nodup_cons.mpr ⟨fun h => (mem_separating.mp h).1 rfl, ?_⟩
  exact pairwise_separating.imp fun h => h.ne

/-- Every block of an equation on the frontal variable has its place in the layout. -/
theorem Fitted.mem_layoutOf (h : Fitted widths remaining) {r : LinearEquation κ α}
    (hr : r ∈ touching remaining frontal) {b : κ × Dense α} (hb : b ∈ r.blocks) :
    (b.1, b.2.ncols) ∈ layoutOf widths remaining frontal := by
  have hw := h.widthOf_eq (mem_touching.mp hr).1 hb
  by_cases hf : b.1 = frontal
  · rw [← hw, hf]
    exact List.mem_cons_self
  · refine List.mem_cons_of_mem _ (List.mem_map.mpr ⟨b.1, ?_, by rw [hw]⟩)
    exact mem_sortedKeys_iff.mpr (List.mem_filter.mpr
      ⟨mem_mentioned.mpr ⟨r, hr, mem_keys_iff.mpr ⟨b, hb, rfl⟩⟩, decide_eq_true hf⟩)

/-! ### What a step needs -/

variable [Scalar α]

/-- Remainders over a separator always form equations. -/
theorem exists_remainders (widths : Assignment κ ℕ) (remaining : List (LinearEquation κ α)) (frontal : κ)
    (out : StepRows α) : ∃ more, remainders widths remaining frontal out = .ok more := by
  unfold remainders
  split_ifs with hempty
  · exact ⟨[], rfl⟩
  have hl : separating widths remaining frontal ≠ [] := fun h0 => hempty (by rw [h0]; rfl)
  have hnodup : ((separating widths remaining frontal).map Prod.fst).Nodup :=
    pairwise_separating.imp fun h => h.ne
  obtain ⟨hard, hhard, -⟩ := exists_remainder hl hnodup .constrained (fun _ => rfl) out.hard
  obtain ⟨soft, hsoft, -⟩ := exists_remainder hl hnodup .unit (fun _ => rfl) out.soft
  rw [hhard, hsoft]
  exact ⟨hard ++ soft, rfl⟩

/-- So a step succeeds if there are enough rows on its variable and their reduction succeeds. -/
theorem exists_eliminateNext (hne : touching remaining frontal ≠ [])
    (hrows : widthOf widths frontal ≤ totalRows (touching remaining frontal))
    (hreduced : ∃ out, reduced D widths remaining frontal = .ok out) :
    ∃ c rest, eliminateNext D widths remaining frontal = .ok (c, rest) := by
  obtain ⟨out, hout⟩ := hreduced
  obtain ⟨more, hmore⟩ := exists_remainders widths remaining frontal out
  refine ⟨conditionalOf widths remaining frontal out.conditional,
    untouched remaining frontal ++ more, ?_⟩
  rw [eliminateNext_eq, if_neg fun h => hne (List.isEmpty_iff.mp h), if_neg (not_lt.mpr hrows), hout]
  show remainders widths remaining frontal out >>= _ = _
  rw [hmore]
  rfl

/-! ### What a step keeps -/

/-- An equation of a step's remainders has blocks over the separator. -/
theorem IsStep.mem_separating (h : IsStep D widths remaining frontal out hardRest softRest c rest)
    {r : LinearEquation κ α} (hr : r ∈ hardRest ++ softRest) {b : κ × Dense α} (hb : b ∈ r.blocks) :
    (b.1, b.2.ncols) ∈ separating widths remaining frontal := by
  rcases List.mem_append.mp hr with hr | hr
  · exact h.isHardRest.mem_layout hr hb
  · exact h.isSoftRest.mem_layout hr hb

theorem IsStep.frontal_mem (h : IsStep D widths remaining frontal out hardRest softRest c rest) :
    frontal ∈ mentioned remaining :=
  frontal_mem_mentioned h.touching_ne

theorem IsStep.frontal_eq (h : IsStep D widths remaining frontal out hardRest softRest c rest) :
    c.frontal = frontal := by
  rw [h.conditional_eq]
  rfl

/-- The parents of the conditional are the separator. -/
theorem IsStep.parents_eq (h : IsStep D widths remaining frontal out hardRest softRest c rest) :
    c.parents.map Prod.fst = (separating widths remaining frontal).map Prod.fst := by
  rw [h.conditional_eq]
  exact map_fst_cut _ _ _

/-- **A step takes its variable out of the equations** and brings in none. -/
theorem IsStep.mem_mentioned_rest
    (h : IsStep D widths remaining frontal out hardRest softRest c rest) {k : κ}
    (hk : k ∈ mentioned rest) : k ∈ mentioned remaining ∧ k ≠ frontal := by
  obtain ⟨r, hr, hkr⟩ := mem_mentioned.mp hk
  rw [h.rest_eq, List.mem_append] at hr
  rcases hr with hr | hr
  · obtain ⟨hr, hf⟩ := mem_untouched.mp hr
    exact ⟨mem_mentioned.mpr ⟨r, hr, hkr⟩, fun hkf => hf (hkf ▸ hkr)⟩
  · obtain ⟨b, hb, rfl⟩ := mem_keys_iff.mp hkr
    obtain ⟨hne, hm⟩ := Elimination.mem_separating.mp
      (List.mem_map.mpr ⟨_, h.mem_separating hr hb, rfl⟩)
    exact ⟨mentioned_of_touching hm, hne⟩

/-- A variable that leaves the equations in a step is taken out or becomes a parent. -/
theorem IsStep.mem_of_mem_mentioned
    (h : IsStep D widths remaining frontal out hardRest softRest c rest) {k : κ}
    (hk : k ∈ mentioned remaining) :
    k = frontal ∨ k ∈ mentioned rest ∨ k ∈ c.parents.map Prod.fst := by
  obtain ⟨r, hr, hkr⟩ := mem_mentioned.mp hk
  by_cases hf : frontal ∈ r.keys
  · by_cases hkf : k = frontal
    · exact Or.inl hkf
    · refine Or.inr (Or.inr ?_)
      rw [h.parents_eq]
      exact Elimination.mem_separating.mpr
        ⟨hkf, mem_mentioned.mpr ⟨r, mem_touching.mpr ⟨hr, hf⟩, hkr⟩⟩
  · refine Or.inr (Or.inl (mem_mentioned.mpr ⟨r, ?_, hkr⟩))
    rw [h.rest_eq]
    exact List.mem_append_left _ (mem_untouched.mpr ⟨hr, hf⟩)

/-- **A step keeps the widths.** -/
theorem IsStep.fitted (h : IsStep D widths remaining frontal out hardRest softRest c rest)
    (hfit : Fitted widths remaining) : Fitted widths rest := by
  intro r hr b hb
  rw [h.rest_eq, List.mem_append] at hr
  rcases hr with hr | hr
  · exact hfit r (mem_untouched.mp hr).1 b hb
  · have hmem := h.mem_separating hr hb
    obtain ⟨-, hm⟩ := Elimination.mem_separating.mp (List.mem_map.mpr ⟨_, hmem, rfl⟩)
    rw [hfit.get?_eq_widthOf (mentioned_of_touching hm), widthOf_of_mem_separating hmem]

/-! ### The run -/

/-- After a step that answers, a run is the run from there. -/
theorem eliminateAll_cons_eq_bind {ordering : List κ}
    (h : eliminateNext D widths remaining frontal = .ok (c, rest)) :
    eliminateAll D widths (frontal :: ordering) remaining =
      eliminateAll D widths ordering rest >>= fun y => .ok (c :: y.1, y.2) := by
  rw [eliminateAll, h]
  rfl

theorem eliminateAll_cons_eq_ok {D : Decompositions α} {widths : Assignment κ ℕ} {frontal : κ}
    {ordering : List κ} {remaining final : List (LinearEquation κ α)}
    {conditionals : List (Conditional κ α)}
    (h : eliminateAll D widths (frontal :: ordering) remaining = .ok (conditionals, final)) :
    ∃ c rest later, eliminateNext D widths remaining frontal = .ok (c, rest) ∧
      eliminateAll D widths ordering rest = .ok (later, final) ∧ conditionals = c :: later := by
  rw [eliminateAll] at h
  obtain ⟨⟨c, rest⟩, h1, h⟩ := Outcome.bind_eq_ok.mp h
  obtain ⟨⟨later, final⟩, h2, h⟩ := Outcome.bind_eq_ok.mp h
  cases h
  exact ⟨c, rest, later, h1, h2, rfl⟩

/-- **A run takes its variables out of the equations** and brings in none. -/
theorem mem_mentioned_final {D : Decompositions α} {widths : Assignment κ ℕ} {k : κ} :
    ∀ {ordering : List κ} {remaining final : List (LinearEquation κ α)}
      {conditionals : List (Conditional κ α)},
      eliminateAll D widths ordering remaining = .ok (conditionals, final) →
        k ∈ mentioned final → k ∈ mentioned remaining ∧ k ∉ ordering
  | [], _, _, _, h, hk => by
    cases h
    exact ⟨hk, List.not_mem_nil⟩
  | frontal :: ordering, remaining, final, conditionals, h, hk => by
    obtain ⟨c, rest, later, hnext, hrun, rfl⟩ := eliminateAll_cons_eq_ok h
    obtain ⟨out, hardRest, softRest, hstep⟩ := isStep_of_eliminateNext hnext
    obtain ⟨hrest, hlater⟩ := mem_mentioned_final hrun hk
    obtain ⟨hbefore, hne⟩ := hstep.mem_mentioned_rest hrest
    exact ⟨hbefore, fun hm => (List.mem_cons.mp hm).elim hne hlater⟩

/-- A net is returned just if the widths agree, each step succeeds and no variable is
mentioned in the end. -/
theorem eliminate_eq_ok_iff {D : Decompositions α} {s : LinearSystem κ α} {ordering : List κ}
    {net : BayesNet κ α} :
    eliminate D s ordering = .ok net ↔
      ∃ w final, Elimination.widths s = .ok w ∧
        eliminateAll D w ordering (prepared s) = .ok (net.conditionals, final) ∧
        mentioned final = [] := by
  unfold eliminate
  rw [Outcome.bind_eq_ok]
  constructor
  · rintro ⟨w, hw, h⟩
    obtain ⟨⟨conditionals, final⟩, hall, h⟩ := Outcome.bind_eq_ok.mp h
    simp only at h
    split at h
    · cases h
    · next hnil =>
      cases h
      exact ⟨w, final, Outcome.wrap_ofExcept_eq_ok.mp hw, hall, hnil⟩
  · rintro ⟨w, final, hw, hall, hnil⟩
    refine ⟨w, Outcome.wrap_ofExcept_eq_ok.mpr hw, Outcome.bind_eq_ok.mpr ⟨_, hall, ?_⟩⟩
    simp only
    split
    · next hcons =>
      rw [mentioned] at hnil
      rw [hnil] at hcons
      cases hcons
    · rfl

/-- A run that takes out every key of a system leaves no variable. -/
theorem eliminate_eq_ok_of_run {D : Decompositions α} {s : LinearSystem κ α} {ordering : List κ}
    {w : Assignment κ ℕ} {conditionals : List (Conditional κ α)} {final : List (LinearEquation κ α)}
    (hw : Elimination.widths s = .ok w)
    (hrun : eliminateAll D w ordering (prepared s) = .ok (conditionals, final))
    (hall : ∀ k ∈ s.keys, k ∈ ordering) : eliminate D s ordering = .ok ⟨conditionals⟩ := by
  refine eliminate_eq_ok_iff.mpr ⟨w, final, hw, hrun, List.eq_nil_iff_forall_not_mem.mpr fun k hk => ?_⟩
  obtain ⟨hbefore, hnot⟩ := mem_mentioned_final hrun hk
  exact hnot (hall k (mem_keys_iff_prepared.mpr hbefore))

end Elimination
end Kinodynamics
