/-
# Systems that share no variable

Two systems without a common key can be put into one, in any order of equations, and
their orderings run in any order of turns. A step then finds the equations on its
variable in one of the two parts, in that part's order and over the widths listed there,
so it does what it would do on that part alone, and what it puts back is of that part
(`alike_eliminateNext_part`). A run is the two runs taken in turns (`takesTurns_eliminateAll`).
Nothing here depends on the numbers or on what the decompositions return.

Key definitions: `Interleaved`, `Elimination.TakesTurns`.
Key theorems: `Elimination.alike_eliminateNext_part`,
`Elimination.takesTurns_eliminateAll`, `Elimination.eliminate_of_interleaved`.
-/
import Mathlib
import Kinodynamics.Proofs.Elimination.Coefficients
import Kinodynamics.Proofs.Elimination.Structure

namespace Kinodynamics

/-- The last list takes its members from the two others, each in order. -/
inductive Interleaved {α : Type} : List α → List α → List α → Prop
  | nil : Interleaved [] [] []
  | left {a : α} {l₁ l₂ l : List α} (h : Interleaved l₁ l₂ l) : Interleaved (a :: l₁) l₂ (a :: l)
  | right {a : α} {l₁ l₂ l : List α} (h : Interleaved l₁ l₂ l) : Interleaved l₁ (a :: l₂) (a :: l)

namespace Interleaved

variable {α β : Type} {l₁ l₂ l m₁ m₂ m : List α}

theorem symm (h : Interleaved l₁ l₂ l) : Interleaved l₂ l₁ l := by
  induction h with
  | nil => exact nil
  | left _ ih => exact ih.right
  | right _ ih => exact ih.left

theorem only_left : ∀ l : List α, Interleaved l [] l
  | [] => nil
  | _ :: l => (only_left l).left

theorem eq_left (h : Interleaved l₁ [] l) : l = l₁ := by
  induction l generalizing l₁ with
  | nil => cases h; rfl
  | cons a l ih =>
    cases h with
    | left h => rw [ih h]

theorem mem_iff (h : Interleaved l₁ l₂ l) {a : α} : a ∈ l ↔ a ∈ l₁ ∨ a ∈ l₂ := by
  induction h with
  | nil => simp
  | left _ ih => rw [List.mem_cons, List.mem_cons, ih, or_assoc]
  | right _ ih => rw [List.mem_cons, List.mem_cons, ih, or_left_comm]

theorem append (h : Interleaved l₁ l₂ l) (h' : Interleaved m₁ m₂ m) :
    Interleaved (l₁ ++ m₁) (l₂ ++ m₂) (l ++ m) := by
  induction h with
  | nil => exact h'
  | left _ ih => exact ih.left
  | right _ ih => exact ih.right

theorem map (f : α → β) (h : Interleaved l₁ l₂ l) :
    Interleaved (l₁.map f) (l₂.map f) (l.map f) := by
  induction h with
  | nil => exact nil
  | left _ ih => exact ih.left
  | right _ ih => exact ih.right

theorem filter (p : α → Bool) (h : Interleaved l₁ l₂ l) :
    Interleaved (l₁.filter p) (l₂.filter p) (l.filter p) := by
  induction h with
  | nil => exact nil
  | left _ ih =>
    rw [List.filter_cons, List.filter_cons]
    split_ifs
    · exact ih.left
    · exact ih
  | right _ ih =>
    rw [List.filter_cons, List.filter_cons]
    split_ifs
    · exact ih.right
    · exact ih

/-- A filter that passes all of one part and nothing of the other gives that part. -/
theorem filter_eq_left {p : α → Bool} (h : Interleaved l₁ l₂ l) (h₁ : ∀ a ∈ l₁, p a = true)
    (h₂ : ∀ a ∈ l₂, p a = false) : l.filter p = l₁ := by
  have hfilter := h.filter p
  rw [List.filter_eq_self.mpr h₁, List.filter_eq_nil_iff.mpr fun a ha => by simp [h₂ a ha]] at hfilter
  exact hfilter.eq_left

end Interleaved

namespace Elimination

variable {κ α : Type} [LinearOrder κ] {D : Decompositions α} {w w₁ w₂ : Assignment κ ℕ}
  {remaining part other : List (LinearEquation κ α)} {frontal : κ}

/-! ### Widths -/

/-- Parts without a common key are put together consistently just if each is consistent. -/
theorem consistent_of_interleaved {s₁ s₂ s : LinearSystem κ α}
    (h : Interleaved s₁.equations s₂.equations s.equations) (hdisjoint : ∀ k ∈ s₁.keys, k ∉ s₂.keys) :
    s.Consistent ↔ s₁.Consistent ∧ s₂.Consistent := by
  have hmem : ∀ b, b ∈ s.equations.flatMap LinearEquation.blocks ↔
      b ∈ s₁.equations.flatMap LinearEquation.blocks ∨ b ∈ s₂.equations.flatMap LinearEquation.blocks :=
    fun b => by simp only [List.mem_flatMap, h.mem_iff, or_and_right, exists_or]
  have hkey : ∀ {t : LinearSystem κ α}, ∀ b ∈ t.equations.flatMap LinearEquation.blocks,
      b.1 ∈ t.keys := fun b hb => by
    obtain ⟨r, hr, hb⟩ := List.mem_flatMap.mp hb
    exact LinearSystem.mem_keys.mpr (List.mem_flatMap.mpr ⟨r, hr, mem_keys_iff.mpr ⟨b, hb, rfl⟩⟩)
  constructor
  · intro hs
    exact ⟨fun b hb b' hb' => hs b ((hmem b).mpr (.inl hb)) b' ((hmem b').mpr (.inl hb')),
      fun b hb b' hb' => hs b ((hmem b).mpr (.inr hb)) b' ((hmem b').mpr (.inr hb'))⟩
  · rintro ⟨hs₁, hs₂⟩ b hb b' hb' heq
    rcases (hmem b).mp hb with hb | hb <;> rcases (hmem b').mp hb' with hb' | hb'
    · exact hs₁ b hb b' hb' heq
    · exact absurd (heq ▸ hkey b' hb') (hdisjoint _ (hkey b hb))
    · exact absurd (hkey b hb) (hdisjoint _ (heq ▸ hkey b' hb'))
    · exact hs₂ b hb b' hb' heq

/-! ### A step -/

/-- The equations on a variable of one part are found there. -/
theorem touching_of_interleaved (h : Interleaved part other remaining) (hf : frontal ∉ mentioned other) :
    touching remaining frontal = touching part frontal := by
  have hfilter := h.filter fun r => r.mentions frontal
  rw [List.filter_eq_nil_iff.mpr fun r hr hk =>
    hf (mem_mentioned.mpr ⟨r, hr, LinearEquation.mentions_iff.mp hk⟩)] at hfilter
  exact hfilter.eq_left

/-- The other part stays. -/
theorem untouched_of_interleaved (h : Interleaved part other remaining) (hf : frontal ∉ mentioned other) :
    Interleaved (untouched part frontal) other (untouched remaining frontal) := by
  have hfilter := h.filter fun r => !r.mentions frontal
  have hother : (other.filter fun r => !r.mentions frontal) = other :=
    List.filter_eq_self.mpr fun r hr => by
      rw [Bool.not_eq_true', Bool.eq_false_iff]
      exact fun hk => hf (mem_mentioned.mpr ⟨r, hr, LinearEquation.mentions_iff.mp hk⟩)
  rwa [hother] at hfilter

/-- The separator is that of the part, with the widths listed there. -/
theorem separating_of_interleaved (h : Interleaved part other remaining) (hf : frontal ∉ mentioned other)
    (hw : Fitted w remaining) (hw₁ : Fitted w₁ part) :
    separating w remaining frontal = separating w₁ part frontal := by
  have hpart : Fitted w part := fun r hr => hw r (h.mem_iff.mpr (.inl hr))
  rw [separating, separating, touching_of_interleaved h hf]
  refine List.map_congr_left fun k hk => ?_
  obtain ⟨r, hr, hk⟩ := mem_mentioned.mp (List.mem_of_mem_filter (mem_sortedKeys_iff.mp hk))
  rw [hpart.widthOf_congr hw₁ (mem_mentioned.mpr ⟨r, (mem_touching.mp hr).1, hk⟩)]

variable [Scalar α]

/-- **A step on a variable of one part is a step on that part**, and the other part stays. -/
theorem alike_eliminateNext_part (h : Interleaved part other remaining) (hf : frontal ∉ mentioned other)
    (hw : Fitted w remaining) (hw₁ : Fitted w₁ part) :
    Alike (fun x y => x.1 = y.1 ∧ Interleaved x.2 other y.2) (eliminateNext D w₁ part frontal)
      (eliminateNext D w remaining frontal) := by
  have htouching := touching_of_interleaved h hf
  have hsep := separating_of_interleaved h hf hw hw₁
  rw [eliminateNext_eq, eliminateNext_eq, htouching]
  refine Alike.ite Iff.rfl (fun _ => Alike.error _) fun hempty => ?_
  obtain ⟨r, hr⟩ := List.exists_mem_of_ne_nil _ fun h0 => hempty (List.isEmpty_iff.mpr h0)
  have hfrontal : widthOf w frontal = widthOf w₁ frontal :=
    Fitted.widthOf_congr (fun r hr => hw r (h.mem_iff.mpr (.inl hr))) hw₁
      (mem_mentioned.mpr ⟨r, mem_touching.mp hr⟩)
  have hlayout : layoutOf w remaining frontal = layoutOf w₁ part frontal := by
    rw [layoutOf, layoutOf, hfrontal, hsep]
  have hreduced : reduced D w remaining frontal = reduced D w₁ part frontal := by
    unfold reduced hardStack softStack hardOn softOn
    rw [htouching, hlayout, hfrontal]
  have hconditional : conditionalOf w remaining frontal = conditionalOf w₁ part frontal := by
    funext rows
    simp only [conditionalOf, hlayout, hsep, hfrontal]
  have hremainders : remainders w remaining frontal = remainders w₁ part frontal := by
    funext out
    simp only [remainders, hsep]
  rw [hfrontal, hreduced, hconditional, hremainders]
  refine Alike.ite Iff.rfl (fun _ => Alike.error _) fun _ => ?_
  refine Alike.bind_eq rfl fun out _ => Alike.bind_eq rfl fun more _ => Alike.ok ⟨rfl, ?_⟩
  have hback := (untouched_of_interleaved h hf).append (Interleaved.only_left more)
  rwa [List.append_nil] at hback

/-! ### A run -/

/-- A run that answers just if two others do, and then with their conditionals in turns and
their remaining equations among one another. -/
structure TakesTurns {ε : Type}
    (x₁ x₂ x : Except ε (List (Conditional κ α) × List (LinearEquation κ α))) : Prop where
  parts : ∀ y, x = .ok y → ∃ y₁ y₂, x₁ = .ok y₁ ∧ x₂ = .ok y₂ ∧
    Interleaved y₁.1 y₂.1 y.1 ∧ Interleaved y₁.2 y₂.2 y.2
  whole : ∀ y₁ y₂, x₁ = .ok y₁ → x₂ = .ok y₂ → ∃ y, x = .ok y

namespace TakesTurns

omit [LinearOrder κ] [Scalar α] in
theorem symm {ε : Type} {x₁ x₂ x : Except ε (List (Conditional κ α) × List (LinearEquation κ α))}
    (h : TakesTurns x₁ x₂ x) : TakesTurns x₂ x₁ x where
  parts := fun y hy => by
    obtain ⟨y₁, y₂, h₁, h₂, hconditionals, hremaining⟩ := h.parts y hy
    exact ⟨y₂, y₁, h₂, h₁, hconditionals.symm, hremaining.symm⟩
  whole := fun y₂ y₁ h₂ h₁ => h.whole y₁ y₂ h₁ h₂

/-- One more step, on the first part. -/
theorem cons {o₁ o₂ o : List κ}
    (hnext : Alike (fun x y => x.1 = y.1 ∧ Interleaved x.2 other y.2)
      (eliminateNext D w₁ part frontal) (eliminateNext D w remaining frontal))
    (hlater : ∀ c rest₁ rest, eliminateNext D w₁ part frontal = .ok (c, rest₁) →
      eliminateNext D w remaining frontal = .ok (c, rest) → Interleaved rest₁ other rest →
      TakesTurns (eliminateAll D w₁ o₁ rest₁) (eliminateAll D w₂ o₂ other) (eliminateAll D w o rest)) :
    TakesTurns (eliminateAll D w₁ (frontal :: o₁) part) (eliminateAll D w₂ o₂ other)
      (eliminateAll D w (frontal :: o) remaining) := by
  generalize hx₁ : eliminateNext D w₁ part frontal = x₁ at hnext hlater
  generalize hx : eliminateNext D w remaining frontal = x at hnext hlater
  cases hnext with
  | error e =>
    constructor
    · intro y hy
      rw [eliminateAll, hx] at hy
      cases hy
    · intro y₁ y₂ h₁ h₂
      rw [eliminateAll, hx₁] at h₁
      cases h₁
  | ok hnext =>
    rename_i first whole
    obtain ⟨c, rest₁⟩ := first
    obtain ⟨c', rest⟩ := whole
    obtain ⟨rfl, hrest⟩ := hnext
    have hturns := hlater c rest₁ rest rfl rfl hrest
    rw [eliminateAll_cons_eq_bind hx₁, eliminateAll_cons_eq_bind hx]
    constructor
    · intro y hy
      obtain ⟨⟨cs, final⟩, hrun, hy⟩ := Outcome.bind_eq_ok.mp hy
      cases hy
      obtain ⟨⟨cs₁, final₁⟩, y₂, h₁, h₂, hconditionals, hfinal⟩ := hturns.parts _ hrun
      exact ⟨(c :: cs₁, final₁), y₂, Outcome.bind_eq_ok.mpr ⟨_, h₁, rfl⟩, h₂, hconditionals.left,
        hfinal⟩
    · intro y₁ y₂ h₁ h₂
      obtain ⟨z₁, h₁, -⟩ := Outcome.bind_eq_ok.mp h₁
      obtain ⟨z, hz⟩ := hturns.whole z₁ y₂ h₁ h₂
      exact ⟨(c :: z.1, z.2), Outcome.bind_eq_ok.mpr ⟨z, hz, rfl⟩⟩

end TakesTurns

/-- **A run of both parts is the two runs in turns**, by induction on the turns. The parts keep
sharing no variable, since a step brings in none. -/
theorem takesTurns_eliminateAll {o₁ o₂ o : List κ} (ho : Interleaved o₁ o₂ o) :
    ∀ {part other remaining : List (LinearEquation κ α)}, Interleaved part other remaining →
      (∀ k ∈ mentioned part, k ∉ mentioned other) →
      (∀ k ∈ o₁, k ∉ mentioned other) → (∀ k ∈ o₂, k ∉ mentioned part) →
      Fitted w remaining → Fitted w₁ part → Fitted w₂ other →
      TakesTurns (eliminateAll D w₁ o₁ part) (eliminateAll D w₂ o₂ other) (eliminateAll D w o remaining) := by
  induction ho with
  | nil =>
    intro part other remaining h _ _ _ _ _ _
    exact ⟨fun y hy => by cases hy; exact ⟨_, _, rfl, rfl, Interleaved.nil, h⟩,
      fun _ _ _ _ => ⟨_, rfl⟩⟩
  | left _ ih =>
    intro part other remaining h hdisjoint h₁ h₂ hw hw₁ hw₂
    have hf := h₁ _ List.mem_cons_self
    refine TakesTurns.cons (alike_eliminateNext_part h hf hw hw₁) fun c rest₁ rest hpart hwhole hrest => ?_
    obtain ⟨_, _, _, hstep₁⟩ := isStep_of_eliminateNext hpart
    obtain ⟨_, _, _, hstep⟩ := isStep_of_eliminateNext hwhole
    exact ih hrest (fun k hk => hdisjoint k (hstep₁.mem_mentioned_rest hk).1)
      (fun k hk => h₁ k (List.mem_cons_of_mem _ hk))
      (fun k hk hmem => h₂ k hk (hstep₁.mem_mentioned_rest hmem).1) (hstep.fitted hw)
      (hstep₁.fitted hw₁) hw₂
  | right _ ih =>
    intro part other remaining h hdisjoint h₁ h₂ hw hw₁ hw₂
    have hf := h₂ _ List.mem_cons_self
    refine (TakesTurns.cons (alike_eliminateNext_part h.symm hf hw hw₂)
      fun c rest₂ rest hother hwhole hrest => ?_).symm
    obtain ⟨_, _, _, hstep₂⟩ := isStep_of_eliminateNext hother
    obtain ⟨_, _, _, hstep⟩ := isStep_of_eliminateNext hwhole
    exact (ih hrest.symm (fun k hk hmem => hdisjoint k hk (hstep₂.mem_mentioned_rest hmem).1)
      (fun k hk hmem => h₁ k hk (hstep₂.mem_mentioned_rest hmem).1)
      (fun k hk => h₂ k (List.mem_cons_of_mem _ hk)) (hstep.fitted hw) hw₁ (hstep₂.fitted hw₂)).symm

/-! ### The systems -/

/-- The variables of the conditionals of a run are among those it started from. -/
theorem frontal_mem_of_eliminateAll : ∀ {ordering : List κ}
    {remaining final : List (LinearEquation κ α)} {conditionals : List (Conditional κ α)},
    eliminateAll D w ordering remaining = .ok (conditionals, final) →
      ∀ c ∈ conditionals, c.frontal ∈ mentioned remaining
  | [], _, _, _, h, c, hc => by
    cases h
    cases hc
  | frontal :: ordering, remaining, final, conditionals, h, c, hc => by
    obtain ⟨c', rest, later, hnext, hrun, rfl⟩ := eliminateAll_cons_eq_ok h
    obtain ⟨_, _, _, hstep⟩ := isStep_of_eliminateNext hnext
    rcases List.mem_cons.mp hc with rfl | hc
    · rw [hstep.conditional_eq]
      exact hstep.frontal_mem
    · exact (hstep.mem_mentioned_rest (frontal_mem_of_eliminateAll hrun c hc)).1

omit [LinearOrder κ] [Scalar α] in
/-- No variable is left just if none is left in either part. -/
theorem mentioned_eq_nil_of_interleaved (h : Interleaved part other remaining) :
    mentioned remaining = [] ↔ mentioned part = [] ∧ mentioned other = [] := by
  simp only [mentioned, List.flatMap_eq_nil_iff, h.mem_iff, or_imp, forall_and]

section Systems

variable {s₁ s₂ s : LinearSystem κ α} {o₁ o₂ o : List κ}

/-- With widths for all three systems the runs take turns. -/
theorem takesTurns_of_widths (hs : Interleaved s₁.equations s₂.equations s.equations)
    (hdisjoint : ∀ k ∈ s₁.keys, k ∉ s₂.keys) (ho : Interleaved o₁ o₂ o)
    (h₁ : ∀ k ∈ o₁, k ∉ s₂.keys) (h₂ : ∀ k ∈ o₂, k ∉ s₁.keys) (hw : widths s = .ok w)
    (hw₁ : widths s₁ = .ok w₁) (hw₂ : widths s₂ = .ok w₂) :
    TakesTurns (eliminateAll D w₁ o₁ (prepared s₁)) (eliminateAll D w₂ o₂ (prepared s₂))
      (eliminateAll D w o (prepared s)) := by
  simp only [mem_keys_iff_prepared] at hdisjoint h₁ h₂
  exact takesTurns_eliminateAll ho (hs.map _) hdisjoint h₁ h₂ (fitted_prepared (widths_eq_ok hw).1)
    (fitted_prepared (widths_eq_ok hw₁).1) (fitted_prepared (widths_eq_ok hw₂).1)

/-- A net of the whole is made of nets of the parts. -/
theorem exists_parts_of_eliminate (hs : Interleaved s₁.equations s₂.equations s.equations)
    (hdisjoint : ∀ k ∈ s₁.keys, k ∉ s₂.keys) (ho : Interleaved o₁ o₂ o)
    (h₁ : ∀ k ∈ o₁, k ∉ s₂.keys) (h₂ : ∀ k ∈ o₂, k ∉ s₁.keys) {net : BayesNet κ α}
    (h : eliminate D s o = .ok net) :
    ∃ net₁ net₂, eliminate D s₁ o₁ = .ok net₁ ∧ eliminate D s₂ o₂ = .ok net₂ ∧
      Interleaved net₁.conditionals net₂.conditionals net.conditionals := by
  obtain ⟨w, final, hw, hrun, hend⟩ := eliminate_eq_ok_iff.mp h
  obtain ⟨hc₁, hc₂⟩ := (consistent_of_interleaved hs hdisjoint).mp (exists_widths_iff.mp ⟨w, hw⟩)
  obtain ⟨w₁, hw₁⟩ := exists_widths hc₁
  obtain ⟨w₂, hw₂⟩ := exists_widths hc₂
  obtain ⟨⟨cs₁, f₁⟩, ⟨cs₂, f₂⟩, hrun₁, hrun₂, hcs, hf⟩ :=
    (takesTurns_of_widths hs hdisjoint ho h₁ h₂ hw hw₁ hw₂).parts _ hrun
  obtain ⟨hend₁, hend₂⟩ := (mentioned_eq_nil_of_interleaved hf).mp hend
  exact ⟨⟨cs₁⟩, ⟨cs₂⟩, eliminate_eq_ok_iff.mpr ⟨w₁, f₁, hw₁, hrun₁, hend₁⟩,
    eliminate_eq_ok_iff.mpr ⟨w₂, f₂, hw₂, hrun₂, hend₂⟩, hcs⟩

/-- Parts that have nets make a whole that has one. -/
theorem exists_eliminate_of_parts (hs : Interleaved s₁.equations s₂.equations s.equations)
    (hdisjoint : ∀ k ∈ s₁.keys, k ∉ s₂.keys) (ho : Interleaved o₁ o₂ o)
    (h₁ : ∀ k ∈ o₁, k ∉ s₂.keys) (h₂ : ∀ k ∈ o₂, k ∉ s₁.keys) {net₁ net₂ : BayesNet κ α}
    (hnet₁ : eliminate D s₁ o₁ = .ok net₁) (hnet₂ : eliminate D s₂ o₂ = .ok net₂) :
    ∃ net, eliminate D s o = .ok net := by
  obtain ⟨w₁, f₁, hw₁, hrun₁, hend₁⟩ := eliminate_eq_ok_iff.mp hnet₁
  obtain ⟨w₂, f₂, hw₂, hrun₂, hend₂⟩ := eliminate_eq_ok_iff.mp hnet₂
  obtain ⟨w, hw⟩ := exists_widths ((consistent_of_interleaved hs hdisjoint).mpr
    ⟨exists_widths_iff.mp ⟨w₁, hw₁⟩, exists_widths_iff.mp ⟨w₂, hw₂⟩⟩)
  have hturns := takesTurns_of_widths (D := D) hs hdisjoint ho h₁ h₂ hw hw₁ hw₂
  obtain ⟨⟨cs, f⟩, hrun⟩ := hturns.whole _ _ hrun₁ hrun₂
  obtain ⟨_, _, hrun₁', hrun₂', -, hf⟩ := hturns.parts _ hrun
  cases hrun₁.symm.trans hrun₁'
  cases hrun₂.symm.trans hrun₂'
  exact ⟨⟨cs⟩, eliminate_eq_ok_iff.mpr
    ⟨w, f, hw, hrun, (mentioned_eq_nil_of_interleaved hf).mpr ⟨hend₁, hend₂⟩⟩⟩

/-- The conditionals of a net are on variables of its system. -/
theorem frontal_mem_keys_of_eliminate {net : BayesNet κ α} (h : eliminate D s o = .ok net) :
    ∀ c ∈ net.conditionals, c.frontal ∈ s.keys := fun c hc => by
  obtain ⟨_, _, -, hrun, -⟩ := eliminate_eq_ok_iff.mp h
  exact mem_keys_iff_prepared.mpr (frontal_mem_of_eliminateAll hrun c hc)

/-- **Systems that share no variable do not influence each other.** However their equations are
put into one system and their orderings into one ordering, elimination of the whole returns a
net exactly if elimination of both parts does, and then the conditionals on the variables of a
part are, in order, the net of that part. -/
theorem eliminate_of_interleaved {s₁ s₂ s : LinearSystem κ α} {o₁ o₂ o : List κ}
    (hs : Interleaved s₁.equations s₂.equations s.equations)
    (hdisjoint : ∀ k ∈ s₁.keys, k ∉ s₂.keys) (ho : Interleaved o₁ o₂ o)
    (h₁ : ∀ k ∈ o₁, k ∉ s₂.keys) (h₂ : ∀ k ∈ o₂, k ∉ s₁.keys) :
    ((∃ net, eliminate D s o = .ok net) ↔
      (∃ net, eliminate D s₁ o₁ = .ok net) ∧ ∃ net, eliminate D s₂ o₂ = .ok net) ∧
    ∀ net, eliminate D s o = .ok net →
      eliminate D s₁ o₁ = .ok ⟨net.conditionals.filter fun c => c.frontal ∈ s₁.keys⟩ ∧
      eliminate D s₂ o₂ = .ok ⟨net.conditionals.filter fun c => c.frontal ∈ s₂.keys⟩ := by
  refine ⟨⟨?_, ?_⟩, ?_⟩
  · rintro ⟨net, h⟩
    obtain ⟨net₁, net₂, hnet₁, hnet₂, -⟩ := exists_parts_of_eliminate hs hdisjoint ho h₁ h₂ h
    exact ⟨⟨net₁, hnet₁⟩, ⟨net₂, hnet₂⟩⟩
  · rintro ⟨⟨net₁, hnet₁⟩, ⟨net₂, hnet₂⟩⟩
    exact exists_eliminate_of_parts hs hdisjoint ho h₁ h₂ hnet₁ hnet₂
  · intro net h
    obtain ⟨net₁, net₂, hnet₁, hnet₂, hcs⟩ := exists_parts_of_eliminate hs hdisjoint ho h₁ h₂ h
    have hown₁ := frontal_mem_keys_of_eliminate hnet₁
    have hown₂ := frontal_mem_keys_of_eliminate hnet₂
    have hleft : (net.conditionals.filter fun c => decide (c.frontal ∈ s₁.keys)) = net₁.conditionals :=
      hcs.filter_eq_left (fun c hc => decide_eq_true (hown₁ c hc)) fun c hc =>
        decide_eq_false fun hmem => hdisjoint _ hmem (hown₂ c hc)
    have hright : (net.conditionals.filter fun c => decide (c.frontal ∈ s₂.keys)) = net₂.conditionals :=
      hcs.symm.filter_eq_left (fun c hc => decide_eq_true (hown₂ c hc)) fun c hc =>
        decide_eq_false (hdisjoint _ (hown₁ c hc))
    rw [hleft, hright]
    exact ⟨hnet₁, hnet₂⟩

end Systems

/-- The hard equation `x₂ + x₃ = 3` and the soft `x₃ = 1`. -/
def hardLink {α : Type} [Scalar α] : LinearSystem ℕ α :=
  ⟨[sumEquation true [2, 3] 3.0, sumEquation false [3] 1]⟩

/-- The soft triangle with these put in between. -/
def linkedTriangle {α : Type} [Scalar α] : LinearSystem ℕ α :=
  ⟨[sumEquation false [0, 1] 3.0, sumEquation true [2, 3] 3.0, sumEquation false [0] 1,
    sumEquation false [1] 1, sumEquation false [3] 1]⟩

/-- Binary64 numbers, and orderings taken in turns. -/
theorem eliminate_linkedTriangle : ∃ net : BayesNet ℕ Float,
    eliminate .standard linkedTriangle [2, 1, 3, 0] = .ok net ∧
      eliminate .standard softTriangle [1, 0] = .ok ⟨net.conditionals.filter fun c =>
        c.frontal ∈ (softTriangle (α := Float)).keys⟩ ∧
      eliminate .standard hardLink [2, 3] = .ok ⟨net.conditionals.filter fun c =>
        c.frontal ∈ (hardLink (α := Float)).keys⟩ := by
  have hok : (eliminate .standard (linkedTriangle (α := Float)) [2, 1, 3, 0]).isOk = true := by
    decide +kernel
  obtain ⟨net, hnet⟩ := exists_ok_of_isOk hok
  have hkeys : (softTriangle (α := Float)).keys = [0, 1] := rfl
  have hkeys' : (hardLink (α := Float)).keys = [2, 3] := rfl
  have hequations : Interleaved (softTriangle (α := Float)).equations hardLink.equations
      linkedTriangle.equations := .left (.right (.left (.left (.right .nil))))
  obtain ⟨-, hparts⟩ := eliminate_of_interleaved (D := .standard) hequations
    (by rw [hkeys, hkeys']; decide)
    (.right (.left (.right (.left .nil))) : Interleaved [1, 0] [2, 3] [2, 1, 3, 0])
    (by rw [hkeys']; decide) (by rw [hkeys]; decide)
  exact ⟨net, hnet, hparts net hnet⟩

end Elimination
end Kinodynamics
