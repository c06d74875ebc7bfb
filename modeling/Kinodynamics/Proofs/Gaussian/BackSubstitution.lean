/-
# When a net can be solved

A conditional gives its variable a value if its parents have values and no pivot is zero
(`Conditional.IsReady`). If not, it reports the first parent without a value or, where all
have one, itself as singular (`Conditional.Stops`). Solving a net goes from the last
conditional to the first, so the net has a solution exactly if each of its conditionals is
ready when the later ones have values, and otherwise the last one that is not is reported
(`BayesNet.Agrees.solve_cases`).

A conditional whose pivots are not negligible can only miss a parent. If no conditional has
a variable of an earlier one as parent, a parent has no value just if it is no variable of
the net: the net has a solution exactly if every parent is a variable of the net
(`BayesNet.solve_eq`).

Key definitions: `Conditional.parentKeys`, `Conditional.IsSquare`, `Conditional.IsReady`,
`Conditional.Stops`, `Conditional.WellFormed`, `BayesNet.Agrees`, `BayesNet.Solvable`,
`BayesNet.Forward`.
Key theorems: `Conditional.IsSquare.solve_cases`, `BayesNet.Agrees.solve_cases`,
`BayesNet.solve_eq`.
-/
import Kinodynamics.Proofs.Dense.Triangular
import Kinodynamics.Proofs.Signs

namespace Kinodynamics

/-! ### Assignments -/

namespace Assignment

variable {κ β : Type} [DecidableEq κ]

theorem get?_isSome_iff {a : Assignment κ β} {k : κ} : (a.get? k).isSome ↔ k ∈ a.keys := by
  simp [get?, keys]

theorem get?_eq_none_iff {a : Assignment κ β} {k : κ} : a.get? k = none ↔ k ∉ a.keys := by
  rw [← get?_isSome_iff, Option.not_isSome_iff_eq_none]

/-- A new key is listed once more, the others as before. -/
theorem keys_insert_perm [LT κ] [DecidableLT κ] {a : Assignment κ β} {k : κ} (v : β)
    (h : k ∉ a.keys) : (a.insert k v).keys.Perm (k :: a.keys) := by
  obtain ⟨entries⟩ := a
  simp only [keys, insert] at h ⊢
  induction entries with
  | nil => exact List.Perm.refl _
  | cons e entries ih =>
    simp only [List.map_cons, List.mem_cons, not_or] at h
    have hne : e.1 ≠ k := Ne.symm h.1
    rw [insertEntry, if_neg hne]
    split_ifs
    · exact List.Perm.refl _
    · exact ((ih h.2).cons e.1).trans (List.Perm.swap _ _ _)

/-- Insertion keeps the keys in order. -/
theorem pairwise_keys_insert [LinearOrder κ] {a : Assignment κ β} {k : κ} (v : β)
    (h : a.keys.Pairwise (· < ·)) : (a.insert k v).keys.Pairwise (· < ·) := by
  obtain ⟨entries⟩ := a
  simp only [keys, insert] at h ⊢
  induction entries with
  | nil => exact List.pairwise_singleton _ _
  | cons e entries ih =>
    obtain ⟨hfirst, hrest⟩ := List.pairwise_cons.mp h
    rw [insertEntry]
    split_ifs with heq hlt
    · rw [List.map_cons, ← heq]
      exact List.pairwise_cons.mpr ⟨hfirst, hrest⟩
    · refine List.pairwise_cons.mpr ⟨fun l hl => ?_, h⟩
      rcases List.mem_cons.mp hl with rfl | hl
      · exact hlt
      · exact hlt.trans (hfirst l hl)
    · have hgt : e.1 < k := lt_of_le_of_ne (not_lt.mp hlt) heq
      refine List.pairwise_cons.mpr ⟨fun l hl => ?_, ih hrest⟩
      by_cases hlk : l = k
      · exact hlk ▸ hgt
      · obtain ⟨v', hv'⟩ := Option.isSome_iff_exists.mp (get?_isSome_iff.mpr hl)
        rw [get?_insertEntry, if_neg (Ne.symm hlk)] at hv'
        exact hfirst l (get?_isSome_iff.mp (by rw [hv']; rfl))

/-- Assignments with their keys in order are equal if they read the same. -/
theorem eq_of_get?_eq [LinearOrder κ] : ∀ {es es' : List (κ × β)},
    (mk es).keys.Pairwise (· < ·) → (mk es').keys.Pairwise (· < ·) →
      (∀ k, (mk es).get? k = (mk es').get? k) → es = es'
  | [], [], _, _, _ => rfl
  | [], e :: es', _, _, h => by simpa [get?_mk_cons, get?] using h e.1
  | e :: es, [], _, _, h => by simpa [get?_mk_cons, get?] using h e.1
  | e :: es, e' :: es', hs, hs', h => by
    obtain ⟨hfirst, hrest⟩ := List.pairwise_cons.mp hs
    obtain ⟨hfirst', hrest'⟩ := List.pairwise_cons.mp hs'
    -- the least key of one list is a key of the other, and so not less than its least key
    have hle : ∀ {d d' : κ × β} {ds ds' : List (κ × β)}, (mk (d :: ds)).get? d.1 = (mk (d' :: ds')).get? d.1 →
        (∀ l ∈ (mk ds').keys, d'.1 < l) → d'.1 ≤ d.1 := fun {d d' ds ds'} heq hleast => by
      have hmem : d.1 ∈ (mk (d' :: ds')).keys := get?_isSome_iff.mp (by
        rw [← heq, get?_mk_cons, if_pos rfl]
        rfl)
      rcases List.mem_cons.mp hmem with hd | hd
      · exact hd.ge
      · exact (hleast _ hd).le
    have hkey : e.1 = e'.1 := le_antisymm (hle (h e'.1).symm hfirst) (hle (h e.1) hfirst')
    have hvalue : e.2 = e'.2 := by
      have := h e.1
      rw [get?_mk_cons, get?_mk_cons, if_pos rfl, if_pos hkey.symm] at this
      exact Option.some.inj this
    have htail : es = es' := eq_of_get?_eq hrest hrest' fun k => by
      by_cases hk : e.1 = k
      · have hnone : (mk es).get? k = none := get?_eq_none_iff.mpr fun hm =>
          lt_irrefl _ (hk ▸ hfirst k hm)
        have hnone' : (mk es').get? k = none := get?_eq_none_iff.mpr fun hm =>
          lt_irrefl _ ((hkey.symm.trans hk) ▸ hfirst' k hm)
        rw [hnone, hnone']
      · have := h k
        rwa [get?_mk_cons, get?_mk_cons, if_neg hk, if_neg (hkey ▸ hk)] at this
    rw [htail, Prod.ext hkey hvalue]

end Assignment

/-! ### One conditional -/

namespace Conditional

variable {κ α : Type}

/-- The keys of the parents, in order. -/
def parentKeys (c : Conditional κ α) : List κ := c.parents.map Prod.fst

/-- All blocks and the right-hand side have as many rows as `r`, which is square. -/
structure IsSquare (c : Conditional κ α) : Prop where
  ncols_r : c.r.ncols = c.r.nrows
  length_d : c.d.length = c.r.nrows
  nrows_parent : ∀ b ∈ c.parents, b.2.nrows = c.r.nrows

variable [Scalar α]

/-- Every parent is among the variables `known`, and no pivot is zero. -/
structure IsReady (c : Conditional κ α) (known : List κ) : Prop where
  parents : ∀ k ∈ c.parentKeys, k ∈ known
  regular : ∀ i < c.r.nrows, ¬Scalar.IsZero (c.r.entry i i)

/-- What stops a conditional where the variables `known` have values: the first parent that
has none; a zero pivot only if all have one. -/
inductive Stops (c : Conditional κ α) (known : List κ) : EliminationError κ → Prop
  | missing {before after : List κ} {k : κ} (parents_eq : c.parentKeys = before ++ k :: after)
      (hbefore : ∀ l ∈ before, l ∈ known) (hk : k ∉ known) : Stops c known (.missingSolution k)
  | singular {i : ℕ} (hall : ∀ k ∈ c.parentKeys, k ∈ known) (hi : i < c.r.nrows)
      (hzero : Scalar.IsZero (c.r.entry i i)) : Stops c known (.singular c.frontal)

theorem Stops.not_isReady {c : Conditional κ α} {known : List κ} {e : EliminationError κ}
    (h : c.Stops known e) : ¬c.IsReady known := fun hready => by
  cases h with
  | missing parents_eq _ hk => exact hk (hready.parents _ (by rw [parents_eq]; simp))
  | singular _ hi hzero => exact hready.regular _ hi hzero

/-- Only which variables have values counts. -/
theorem IsReady.congr {c : Conditional κ α} {known known' : List κ} (h : c.IsReady known)
    (hiff : ∀ k, k ∈ known ↔ k ∈ known') : c.IsReady known' :=
  ⟨fun k hk => (hiff k).mp (h.parents k hk), h.regular⟩

theorem Stops.congr {c : Conditional κ α} {known known' : List κ} {e : EliminationError κ}
    (h : c.Stops known e) (hiff : ∀ k, k ∈ known ↔ k ∈ known') : c.Stops known' e := by
  cases h with
  | missing parents_eq hbefore hk =>
    exact .missing parents_eq (fun l hl => (hiff l).mp (hbefore l hl)) (mt (hiff _).mpr hk)
  | singular hall hi hzero => exact .singular (fun k hk => (hiff k).mp (hall k hk)) hi hzero

/-- A conditional fit for variables of the given sizes: `r` is square and upper triangular
with pivots that are neither negligible nor negative, the parents are in key order, and
all sizes agree. -/
structure WellFormed [LT κ] (dim : κ → ℕ) (c : Conditional κ α) : Prop where
  nrows_r : c.r.nrows = dim c.frontal
  ncols_r : c.r.ncols = dim c.frontal
  isZero_below : ∀ i j, j < i → Scalar.IsZero (c.r.entry i j)
  pivot : ∀ i < dim c.frontal,
    ¬Scalar.abs (c.r.entry i i) ≤ Elimination.negligiblePivot ∧ ¬c.r.entry i i < 0
  parents_sorted : c.parentKeys.Pairwise (· < ·)
  parent_shape : ∀ b ∈ c.parents, b.2.nrows = dim c.frontal ∧ b.2.ncols = dim b.1
  length_d : c.d.length = dim c.frontal

/-- The values in `x` have the sizes of their variables. -/
def FitsSizes [DecidableEq κ] (dim : κ → ℕ) (x : Solution κ α) : Prop :=
  ∀ k v, x.get? k = some v → v.length = dim k

section

variable [DecidableEq κ]

/-- One parent moved over to the right-hand side. -/
def moveParent (x : Solution κ α) (rhs : List α) (b : κ × Dense α) :
    Outcome (EliminationError κ) (List α) :=
  match x.get? b.1 with
  | none => Outcome.fail (.missingSolution b.1)
  | some value =>
    if value.length = b.2.ncols ∧ b.2.nrows = rhs.length then
      .ok (List.zipWith (· - ·) rhs (b.2.mulVec value))
    else Outcome.sizes

theorem reducedRhs_eq (c : Conditional κ α) (x : Solution κ α) :
    c.reducedRhs x = c.parents.foldlM (moveParent x) c.d := rfl

/-- Moving parents over succeeds, or stops at the first parent without a value. -/
theorem foldlM_moveParent {x : Solution κ α} {n : ℕ} {parents : List (κ × Dense α)} :
    ∀ {rhs : List α}, rhs.length = n →
      (∀ b ∈ parents, b.2.nrows = n ∧ ∀ v, x.get? b.1 = some v → v.length = b.2.ncols) →
      ((∀ k ∈ parents.map Prod.fst, k ∈ x.keys) ∧
          ∃ moved, parents.foldlM (moveParent x) rhs = .ok moved ∧ moved.length = n) ∨
        ∃ before k after, parents.map Prod.fst = before ++ k :: after ∧
          (∀ l ∈ before, l ∈ x.keys) ∧ k ∉ x.keys ∧
          parents.foldlM (moveParent x) rhs = Outcome.fail (.missingSolution k) := by
  induction parents with
  | nil => exact fun {rhs} hn _ => Or.inl ⟨by simp, rhs, rfl, hn⟩
  | cons b parents ih =>
    intro rhs hn h
    obtain ⟨hrows, hlen⟩ := h b List.mem_cons_self
    rw [List.foldlM_cons]
    cases hkey : x.get? b.1 with
    | none =>
      refine Or.inr ⟨[], b.1, parents.map Prod.fst, rfl, by simp,
        Assignment.get?_eq_none_iff.mp hkey, ?_⟩
      simp only [moveParent, hkey]
      rfl
    | some v =>
      have hmem : b.1 ∈ x.keys := Assignment.get?_isSome_iff.mp (by rw [hkey]; rfl)
      have hfit : v.length = b.2.ncols ∧ b.2.nrows = rhs.length := ⟨hlen v hkey, by rw [hrows, hn]⟩
      have hmoved : (List.zipWith (· - ·) rhs (b.2.mulVec v)).length = n := by
        rw [List.length_zipWith, Dense.length_mulVec, hn, hrows, Nat.min_self]
      have hstep : moveParent x rhs b = .ok (List.zipWith (· - ·) rhs (b.2.mulVec v)) := by
        simp only [moveParent, hkey, if_pos hfit]
      rw [hstep]
      rcases ih hmoved fun b hb => h b (List.mem_cons_of_mem _ hb) with
        ⟨h1, h2⟩ | ⟨before, k, after, heq, h1, h2⟩
      · exact Or.inl ⟨List.forall_mem_cons.mpr ⟨hmem, h1⟩, h2⟩
      · exact Or.inr ⟨b.1 :: before, k, after, by rw [List.map_cons, heq, List.cons_append],
          List.forall_mem_cons.mpr ⟨hmem, h1⟩, h2⟩

/-- **A square conditional gives its variable a value of the right size if it is ready**, and
otherwise reports what stops it. -/
theorem IsSquare.solve_cases {c : Conditional κ α} {x : Solution κ α} (h : c.IsSquare)
    (hwidth : ∀ b ∈ c.parents, ∀ v, x.get? b.1 = some v → v.length = b.2.ncols) :
    (c.IsReady x.keys ∧ ∃ v, c.solve x = .ok v ∧ v.length = c.r.nrows) ∨
      ∃ e, c.Stops x.keys e ∧ c.solve x = Outcome.fail e := by
  rcases foldlM_moveParent h.length_d fun b hb => ⟨h.nrows_parent b hb, hwidth b hb⟩ with
    ⟨hall, rhs, hrhs, hlen⟩ | ⟨before, k, after, heq, hbefore, hk, hfail⟩
  · have hsolve : c.solve x = (c.r.solveUpper rhs).elim (Outcome.fail (.singular c.frontal))
        fun value => .ok (value ++ rhs.drop c.r.nrows) := by
      rw [solve, reducedRhs_eq, hrhs]
      show (if rhs.length < c.r.nrows then _ else _) = _
      rw [if_neg (by omega)]
      cases c.r.solveUpper rhs <;> rfl
    cases hvalue : c.r.solveUpper rhs with
    | some v =>
      refine Or.inl ⟨⟨hall, Dense.solveUpper_isSome_iff.mp (by rw [hvalue]; rfl)⟩,
        v ++ rhs.drop c.r.nrows, by rw [hsolve, hvalue, Option.elim_some], ?_⟩
      rw [List.length_append, List.length_drop, Dense.length_of_solveUpper hvalue, hlen]
      omega
    | none =>
      have hnot : ¬∀ i < c.r.nrows, ¬Scalar.IsZero (c.r.entry i i) := fun hregular => by
        have hsome := Dense.solveUpper_isSome hregular rhs
        rw [hvalue] at hsome
        cases hsome
      push Not at hnot
      obtain ⟨i, hi, hzero⟩ := hnot
      exact Or.inr ⟨_, .singular hall hi hzero, by rw [hsolve, hvalue, Option.elim_none]⟩
  · refine Or.inr ⟨_, .missing heq hbefore hk, ?_⟩
    rw [solve, reducedRhs_eq, hfail]
    rfl

variable [LT κ] [Scalar.Signed α] {dim : κ → ℕ} {c : Conditional κ α} {x : Solution κ α}

omit [DecidableEq κ] in
/-- No pivot of a well-formed conditional is zero. -/
theorem WellFormed.not_isZero (h : c.WellFormed dim) {i : ℕ} (hi : i < c.r.nrows) :
    ¬Scalar.IsZero (c.r.entry i i) := fun h0 =>
  (h.pivot i (h.nrows_r ▸ hi)).1 (Scalar.Signed.abs_le_of_isZero h0)

omit [DecidableEq κ] in
/-- Every pivot of a well-formed conditional that is a number is above the negligible size. -/
theorem WellFormed.pivot_gt (h : c.WellFormed dim) {i : ℕ} (hi : i < dim c.frontal)
    (hnumber : c.r.entry i i ≤ c.r.entry i i) :
    Elimination.negligiblePivot < c.r.entry i i := by
  obtain ⟨habs, hneg⟩ := h.pivot i hi
  exact Scalar.negligiblePivot_lt hnumber habs hneg

omit [DecidableEq κ] [Scalar.Signed α] in
theorem WellFormed.isSquare (h : c.WellFormed dim) : c.IsSquare where
  ncols_r := h.ncols_r.trans h.nrows_r.symm
  length_d := h.length_d.trans h.nrows_r.symm
  nrows_parent := fun b hb => (h.parent_shape b hb).1.trans h.nrows_r.symm

end

end Conditional

/-! ### The net -/

namespace BayesNet

variable {κ α : Type}

/-- Each conditional is square and gives a variable of its own, and where a parent comes later,
its block is as wide as that variable has entries. -/
structure Agrees (conditionals : List (Conditional κ α)) : Prop where
  nodup : (conditionals.map Conditional.frontal).Nodup
  square : ∀ c ∈ conditionals, c.IsSquare
  width : conditionals.Pairwise fun c c' => ∀ b ∈ c.parents, b.1 = c'.frontal → b.2.ncols = c'.r.nrows

theorem Agrees.tail {c : Conditional κ α} {conditionals : List (Conditional κ α)}
    (h : Agrees (c :: conditionals)) : Agrees conditionals where
  nodup := (List.nodup_cons.mp h.nodup).2
  square := fun c' hc' => h.square c' (List.mem_cons_of_mem _ hc')
  width := (List.pairwise_cons.mp h.width).2

/-- Every conditional is ready when the later ones have values. -/
def Solvable [Scalar α] (conditionals : List (Conditional κ α)) : Prop :=
  ∀ c after, (c :: after) <:+ conditionals → c.IsReady (after.map Conditional.frontal)

theorem solvable_nil [Scalar α] : Solvable ([] : List (Conditional κ α)) := fun _ _ h => by
  cases List.suffix_nil.mp h

theorem solvable_cons [Scalar α] {c : Conditional κ α} {conditionals : List (Conditional κ α)} :
    Solvable (c :: conditionals) ↔
      c.IsReady (conditionals.map Conditional.frontal) ∧ Solvable conditionals := by
  constructor
  · exact fun h => ⟨h c conditionals (List.suffix_refl _),
      fun c' after hsuffix => h c' after (hsuffix.trans (List.suffix_cons _ _))⟩
  · rintro ⟨hfirst, hrest⟩ c' after hsuffix
    rcases List.suffix_cons_iff.mp hsuffix with heq | hsuffix
    · cases heq
      exact hfirst
    · exact hrest c' after hsuffix

/-- A conditional that is stopped by the later ones keeps the net from being solvable. -/
theorem not_solvable_of_stops [Scalar α] {c : Conditional κ α} {after conditionals : List (Conditional κ α)}
    {e : EliminationError κ} (hsuffix : (c :: after) <:+ conditionals)
    (hstops : c.Stops (after.map Conditional.frontal) e) : ¬Solvable conditionals :=
  fun h => hstops.not_isReady (h c after hsuffix)

/-- Each conditional gives a variable of its own, and none has that of an earlier one, or
its own, as parent. -/
structure Forward (conditionals : List (Conditional κ α)) : Prop where
  nodup : (conditionals.map Conditional.frontal).Nodup
  parent_ne : ∀ c ∈ conditionals, c.frontal ∉ c.parentKeys
  later : conditionals.Pairwise fun c c' => c.frontal ∉ c'.parentKeys

/-- Every parent is a variable of the net. -/
def Closed (conditionals : List (Conditional κ α)) : Prop :=
  ∀ c ∈ conditionals, ∀ k ∈ c.parentKeys, k ∈ conditionals.map Conditional.frontal

/-- A parent that is a variable of the net comes later. -/
theorem Forward.mem_of_append {before after : List (Conditional κ α)} {c : Conditional κ α}
    (h : Forward (before ++ c :: after)) {k : κ} (hk : k ∈ c.parentKeys)
    (hm : k ∈ (before ++ c :: after).map Conditional.frontal) :
    k ∈ after.map Conditional.frontal := by
  rw [List.map_append, List.map_cons, List.mem_append, List.mem_cons] at hm
  rcases hm with hm | rfl | hm
  · obtain ⟨c', hc', rfl⟩ := List.mem_map.mp hm
    have := (List.pairwise_append.mp h.later).2.2 c' hc' c List.mem_cons_self
    exact absurd hk this
  · exact absurd hk (h.parent_ne c (List.mem_append_right _ List.mem_cons_self))
  · exact hm

/-- In a solvable net every parent is a variable of the net. -/
theorem Solvable.closed [Scalar α] {conditionals : List (Conditional κ α)} (h : Solvable conditionals) :
    Closed conditionals := fun c hc k hk => by
  obtain ⟨before, after, rfl⟩ := List.append_of_mem hc
  have hlater := (h c after (List.suffix_append _ _)).parents k hk
  rw [List.map_append, List.map_cons]
  exact List.mem_append_right _ (List.mem_cons_of_mem _ hlater)

variable [Scalar α] [DecidableEq κ] [LT κ] [DecidableLT κ]

theorem solve_cons (c : Conditional κ α) (conditionals : List (Conditional κ α)) :
    solve ⟨c :: conditionals⟩ = solve ⟨conditionals⟩ >>= fun x =>
      c.solve x >>= fun v => .ok (x.insert c.frontal v) := rfl

/-- A value for the first variable is added to those of the others. -/
theorem solve_cons_of_ok {c : Conditional κ α} {conditionals : List (Conditional κ α)}
    {x : Solution κ α} {v : List α} (hx : solve ⟨conditionals⟩ = .ok x) (hv : c.solve x = .ok v) :
    solve ⟨c :: conditionals⟩ = .ok (x.insert c.frontal v) := by
  rw [solve_cons, hx]
  show (c.solve x >>= fun v => Except.ok (x.insert c.frontal v)) = _
  rw [hv]
  rfl

/-- A solution lists its keys in order. -/
theorem pairwise_keys_of_solve {κ : Type} [LinearOrder κ] : ∀ {conditionals : List (Conditional κ α)}
    {x : Solution κ α}, solve ⟨conditionals⟩ = .ok x → x.keys.Pairwise (· < ·)
  | [], x, h => by
    cases h
    exact List.Pairwise.nil
  | c :: conditionals, x, h => by
    rw [solve_cons] at h
    cases hrest : solve ⟨conditionals⟩ with
    | error e =>
      rw [hrest] at h
      cases h
    | ok before =>
      rw [hrest] at h
      cases hv : c.solve before with
      | error e =>
        simp only [bind, Except.bind, hv] at h
        cases h
      | ok v =>
        simp only [bind, Except.bind, hv] at h
        cases h
        exact Assignment.pairwise_keys_insert v (pairwise_keys_of_solve hrest)

/-- A conditional that cannot be solved stops the solution. -/
theorem solve_cons_of_fail {c : Conditional κ α} {conditionals : List (Conditional κ α)}
    {x : Solution κ α} {e : EliminationError κ} (hx : solve ⟨conditionals⟩ = .ok x)
    (hv : c.solve x = Outcome.fail e) : solve ⟨c :: conditionals⟩ = Outcome.fail e := by
  rw [solve_cons, hx]
  show (c.solve x >>= fun v => Except.ok (x.insert c.frontal v)) = _
  rw [hv]
  rfl

/-- **A net whose blocks agree has a solution if it is solvable**, one value of the right size
for each of its variables. If not, the last conditional that is not ready is reported. -/
theorem Agrees.solve_cases : ∀ {conditionals : List (Conditional κ α)}, Agrees conditionals →
    (Solvable conditionals ∧ ∃ x, solve ⟨conditionals⟩ = .ok x ∧
        x.keys.Perm (conditionals.map Conditional.frontal) ∧
        ∀ c ∈ conditionals, ∃ v, x.get? c.frontal = some v ∧ v.length = c.r.nrows) ∨
      ∃ c after e, (c :: after) <:+ conditionals ∧ Solvable after ∧
        c.Stops (after.map Conditional.frontal) e ∧ solve ⟨conditionals⟩ = Outcome.fail e
  | [], _ => Or.inl ⟨solvable_nil, Assignment.empty, rfl, List.Perm.refl _, by simp⟩
  | c :: conditionals, h => by
    have hnew : c.frontal ∉ conditionals.map Conditional.frontal := (List.nodup_cons.mp h.nodup).1
    rcases Agrees.solve_cases h.tail with
      ⟨hsolvable, x, hx, hkeys, hvalues⟩ | ⟨c', after, e, hsuffix, hafter, hstops, hfail⟩
    · have hknown : ∀ k, k ∈ x.keys ↔ k ∈ conditionals.map Conditional.frontal :=
        fun k => hkeys.mem_iff
      -- a parent that has a value is the variable of a later conditional
      have hwidth : ∀ b ∈ c.parents, ∀ v, x.get? b.1 = some v → v.length = b.2.ncols := by
        intro b hb v hv
        have hmem : b.1 ∈ x.keys := Assignment.get?_isSome_iff.mp (by rw [hv]; rfl)
        obtain ⟨c', hc', hkey⟩ := List.mem_map.mp ((hknown _).mp hmem)
        obtain ⟨w, hw, hlen⟩ := hvalues c' hc'
        rw [hkey, hv] at hw
        cases hw
        rw [hlen, (List.pairwise_cons.mp h.width).1 c' hc' b hb hkey.symm]
      rcases (h.square c List.mem_cons_self).solve_cases hwidth with
        ⟨hready, v, hv, hlen⟩ | ⟨e, hstops, hfail⟩
      · have hnotin : c.frontal ∉ x.keys := fun hm => hnew ((hknown _).mp hm)
        refine Or.inl ⟨solvable_cons.mpr ⟨hready.congr hknown, hsolvable⟩, x.insert c.frontal v,
          solve_cons_of_ok hx hv, (Assignment.keys_insert_perm v hnotin).trans (hkeys.cons _),
          List.forall_mem_cons.mpr ⟨⟨v, Assignment.get?_insert_self _ _ _, hlen⟩, fun c' hc' => ?_⟩⟩
        have hne : c.frontal ≠ c'.frontal := fun heq => hnew (heq ▸ List.mem_map_of_mem hc')
        rw [Assignment.get?_insert_of_ne _ _ hne]
        exact hvalues c' hc'
      · exact Or.inr ⟨c, conditionals, e, List.suffix_refl _, hsolvable, hstops.congr hknown,
          solve_cons_of_fail hx hfail⟩
    · refine Or.inr ⟨c', after, e, hsuffix.trans (List.suffix_cons _ _), hafter, hstops, ?_⟩
      rw [solve_cons, hfail]
      rfl

/-- A net with a solution is solvable. -/
theorem Agrees.solvable {conditionals : List (Conditional κ α)} (h : Agrees conditionals)
    {x : Solution κ α} (hx : solve ⟨conditionals⟩ = .ok x) : Solvable conditionals := by
  rcases h.solve_cases with ⟨hsolvable, -⟩ | ⟨c, after, e, -, -, -, hfail⟩
  · exact hsolvable
  · rw [hfail] at hx
    cases hx

variable [Scalar.Signed α] {dim : κ → ℕ} {conditionals : List (Conditional κ α)}

omit [DecidableEq κ] [DecidableLT κ] [Scalar.Signed α] in
/-- The blocks of well-formed conditionals agree. -/
theorem agrees_of_wellFormed (hfwd : Forward conditionals) (hwell : ∀ c ∈ conditionals, c.WellFormed dim) :
    Agrees conditionals where
  nodup := hfwd.nodup
  square := fun c hc => (hwell c hc).isSquare
  width := List.pairwise_of_forall_mem_list fun c hc c' hc' b hb hkey => by
    rw [((hwell c hc).parent_shape b hb).2, hkey, (hwell c' hc').nrows_r]

omit [DecidableEq κ] [DecidableLT κ] in
/-- Well-formed conditionals can only miss a parent. -/
theorem solvable_of_closed (hfwd : Forward conditionals) (hwell : ∀ c ∈ conditionals, c.WellFormed dim)
    (hclosed : Closed conditionals) : Solvable conditionals := by
  rintro c after ⟨before, rfl⟩
  have hc : c ∈ before ++ c :: after := List.mem_append_right _ List.mem_cons_self
  exact ⟨fun k hk => hfwd.mem_of_append hk (hclosed c hc k hk), fun i hi => (hwell c hc).not_isZero hi⟩

/-- **Solving a net of well-formed conditionals** gives each of its variables one value of
the right size, unless some parent is no variable of the net; then it reports such a
parent. -/
theorem solve_eq (hfwd : Forward conditionals) (hwell : ∀ c ∈ conditionals, c.WellFormed dim) :
    (Closed conditionals ∧ ∃ x, solve ⟨conditionals⟩ = .ok x ∧
        x.keys.Perm (conditionals.map Conditional.frontal) ∧ Conditional.FitsSizes dim x) ∨
      ∃ c ∈ conditionals, ∃ k ∈ c.parentKeys, k ∉ conditionals.map Conditional.frontal ∧
        solve ⟨conditionals⟩ = Outcome.fail (.missingSolution k) := by
  rcases (agrees_of_wellFormed hfwd hwell).solve_cases with
    ⟨hsolvable, x, hx, hkeys, hvalues⟩ | ⟨c, after, e, ⟨before, heq⟩, -, hstops, hfail⟩
  · refine Or.inl ⟨hsolvable.closed, x, hx, hkeys, fun k v hv => ?_⟩
    have hmem : k ∈ x.keys := Assignment.get?_isSome_iff.mp (by rw [hv]; rfl)
    obtain ⟨c, hc, rfl⟩ := List.mem_map.mp (hkeys.mem_iff.mp hmem)
    obtain ⟨w, hw, hlen⟩ := hvalues c hc
    rw [hv] at hw
    cases hw
    rw [hlen, (hwell c hc).nrows_r]
  · have hc : c ∈ conditionals := heq ▸ List.mem_append_right _ List.mem_cons_self
    cases hstops with
    | @missing _ _ k parents_eq _ hk =>
      have hparent : k ∈ c.parentKeys := by
        rw [parents_eq]
        exact List.mem_append_right _ List.mem_cons_self
      refine Or.inr ⟨c, hc, k, hparent, fun hm => hk ?_, hfail⟩
      exact (heq.symm ▸ hfwd).mem_of_append hparent (heq.symm ▸ hm)
    | singular _ hi hzero => exact absurd hzero ((hwell c hc).not_isZero hi)

end BayesNet
end Kinodynamics
