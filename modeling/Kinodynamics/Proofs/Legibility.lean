/-
# Texts that tell their subjects apart

An error names variables, links and joints by their texts, so a report is as good as the texts are.
A number goes as far as its digits go. It can be taken off the front of a text that does not begin
with a digit itself (`toDigits_append_inj`), and so can whatever consists of numbers with words
between them (`Legible`). The text of a variable does: it is a letter for the quantity, and then
the ids and the time, each with a letter of its own, divided by commas and closed by a parenthesis
(`Key.toList_text`). So does a message about linear equations, for any legible spelling of the
variables, and no two errors of the dynamics have one message. The name of a link or joint may hold
anything, digits and words alike; where a number follows it, that is taken off the end.

Key definitions: `EndsNumber`, `Legible`, `fieldsText`, `Key.symbol`, `Key.fields`.
Key theorems: `toDigits_append_inj`, `fieldsText_append_inj`, `Key.legible_text`, `Key.text_inj`,
`EliminationError.legible_message`, `ModelError.message_injective`.
-/
import Mathlib.Data.List.Basic
import Kinodynamics.ModelError

namespace Kinodynamics

variable {κ : Type} {s t : List Char} {m n : Nat}

/-! ### Numbers -/

/-- A number in front of the text would be at its end. -/
def EndsNumber (rest : List Char) : Prop := ∀ c ∈ rest.head?, c.isDigit = false

@[simp] theorem endsNumber_nil : EndsNumber [] := fun _ h => by cases h

@[simp] theorem endsNumber_cons {c : Char} : EndsNumber (c :: s) ↔ c.isDigit = false :=
  ⟨fun h => h c rfl, fun h _ hc => Option.some.inj hc ▸ h⟩

theorem takeWhile_isDigit_append {digits : List Char} (hdigits : ∀ c ∈ digits, c.isDigit = true)
    (hs : EndsNumber s) : (digits ++ s).takeWhile Char.isDigit = digits := by
  rw [List.takeWhile_append_of_pos hdigits]
  cases s with
  | nil => exact List.append_nil digits
  | cons c s => simp [endsNumber_cons.mp hs]

/-- Digits end where something else begins. -/
theorem digits_append_inj {x y : List Char} (hx : ∀ c ∈ x, c.isDigit = true)
    (hy : ∀ c ∈ y, c.isDigit = true) (hs : EndsNumber s) (ht : EndsNumber t)
    (h : x ++ s = y ++ t) : x = y ∧ s = t := by
  have hdigits : x = y := by
    rw [← takeWhile_isDigit_append hx hs, h, takeWhile_isDigit_append hy ht]
  subst hdigits
  exact ⟨rfl, List.append_cancel_left h⟩

theorem isDigit_of_mem_toDigits {c : Char} : c ∈ Nat.toDigits 10 n → c.isDigit = true :=
  Nat.isDigit_of_mem_toDigits (by decide) (by decide)

@[simp] theorem toDigits_inj : Nat.toDigits 10 m = Nat.toDigits 10 n ↔ m = n := by
  have hinverse : Function.LeftInverse (Nat.ofDigitChars 10 · 0) (Nat.toDigits 10) := fun _ =>
    Nat.ofDigitChars_ten_toDigits
  exact hinverse.injective.eq_iff

/-- **A number in front of a text** that does not go on with a digit is read off it. -/
@[simp] theorem toDigits_append_inj (hs : EndsNumber s) (ht : EndsNumber t) :
    Nat.toDigits 10 m ++ s = Nat.toDigits 10 n ++ t ↔ m = n ∧ s = t := by
  constructor
  · intro h
    obtain ⟨hdigits, hrest⟩ := digits_append_inj (fun _ => isDigit_of_mem_toDigits)
      (fun _ => isDigit_of_mem_toDigits) hs ht h
    exact ⟨toDigits_inj.mp hdigits, hrest⟩
  · rintro ⟨rfl, rfl⟩
    rfl

/-- A number behind a text that does not end with a digit. -/
theorem append_toDigits_inj (hs : EndsNumber s.reverse) (ht : EndsNumber t.reverse) :
    s ++ Nat.toDigits 10 m = t ++ Nat.toDigits 10 n ↔ s = t ∧ m = n := by
  constructor
  · intro h
    have hreverse : (Nat.toDigits 10 m).reverse ++ s.reverse =
        (Nat.toDigits 10 n).reverse ++ t.reverse := by
      rw [← List.reverse_append, h, List.reverse_append]
    obtain ⟨hdigits, hrest⟩ := digits_append_inj
      (fun _ hc => isDigit_of_mem_toDigits (List.mem_reverse.mp hc))
      (fun _ hc => isDigit_of_mem_toDigits (List.mem_reverse.mp hc)) hs ht hreverse
    exact ⟨List.reverse_injective hrest, toDigits_inj.mp (List.reverse_injective hdigits)⟩
  · rintro ⟨rfl, rfl⟩
    rfl

/-! ### Legible texts -/

/-- The texts can be told apart, and from what follows them, unless that begins with a digit. -/
def Legible {ρ : Type} (text : ρ → String) : Prop :=
  ∀ ⦃a b : ρ⦄ ⦃s t : List Char⦄, EndsNumber s → EndsNumber t →
    (text a).toList ++ s = (text b).toList ++ t → a = b ∧ s = t

namespace Legible

variable {ρ : Type} {text : ρ → String} {a b : ρ}

theorem append_inj (h : Legible text) (hs : EndsNumber s) (ht : EndsNumber t) :
    (text a).toList ++ s = (text b).toList ++ t ↔ a = b ∧ s = t :=
  ⟨h hs ht, fun ⟨hab, hst⟩ => hab ▸ hst ▸ rfl⟩

theorem toList_inj (h : Legible text) : (text a).toList = (text b).toList ↔ a = b := by
  simpa using h.append_inj (a := a) (b := b) endsNumber_nil endsNumber_nil

theorem injective (h : Legible text) : Function.Injective text := fun _ _ hab =>
  h.toList_inj.mp (congrArg String.toList hab)

end Legible

/-! ### Labelled numbers -/

/-- What follows a labelled number: more of them, each after a comma, and a parenthesis. -/
def furtherText : List (Char × Nat) → List Char
  | [] => [')']
  | (label, n) :: fields => ',' :: ' ' :: label :: '=' :: (Nat.toDigits 10 n ++ furtherText fields)

/-- Labelled numbers, divided by commas and closed by a parenthesis. -/
def fieldsText : List (Char × Nat) → List Char
  | [] => [')']
  | (label, n) :: fields => label :: '=' :: (Nat.toDigits 10 n ++ furtherText fields)

section

variable {fields fields' : List (Char × Nat)}

theorem endsNumber_furtherText : EndsNumber (furtherText fields ++ s) := by
  cases fields <;> exact endsNumber_cons.mpr rfl

theorem furtherText_append_inj (h : furtherText fields ++ s = furtherText fields' ++ t) :
    fields = fields' ∧ s = t := by
  induction fields generalizing fields' with
  | nil =>
    cases fields' with
    | nil => exact ⟨rfl, List.append_cancel_left h⟩
    | cons field' fields' => simp [furtherText] at h
  | cons field fields ih =>
    cases fields' with
    | nil => simp [furtherText] at h
    | cons field' fields' =>
      simp only [furtherText, List.cons_append, List.append_assoc, List.cons.injEq, true_and] at h
      obtain ⟨hlabel, h⟩ := h
      obtain ⟨hnumber, hrest⟩ :=
        (toDigits_append_inj endsNumber_furtherText endsNumber_furtherText).mp h
      obtain ⟨rfl, hst⟩ := ih hrest
      exact ⟨congrArg (· :: fields) (Prod.ext hlabel hnumber), hst⟩

/-- **Labelled numbers are read off a text** whatever follows them: a parenthesis closes them. -/
theorem fieldsText_append_inj (hfields : fields ≠ []) (hfields' : fields' ≠ [])
    (h : fieldsText fields ++ s = fieldsText fields' ++ t) : fields = fields' ∧ s = t := by
  obtain ⟨field, fields, rfl⟩ := List.exists_cons_of_ne_nil hfields
  obtain ⟨field', fields', rfl⟩ := List.exists_cons_of_ne_nil hfields'
  refine furtherText_append_inj (s := s) (t := t) ?_
  exact congrArg ([',', ' '] ++ ·) h

end

/-! ### Variables -/

namespace Key

variable {k l : Key}

/-- The letter of the quantity. -/
def symbol : Key → Char
  | pose .. => 'p'
  | twist .. => 'V'
  | twistAccel .. => 'A'
  | wrench .. => 'F'
  | angle .. => 'q'
  | velocity .. => 'v'
  | acceleration .. => 'a'
  | torque .. => 'T'

/-- The ids and the time with their letters. -/
def fields : Key → List (Char × Nat)
  | pose link t | twist link t | twistAccel link t => [('l', link.index), ('t', t)]
  | wrench link joint t => [('l', link.index), ('j', joint.index), ('t', t)]
  | angle joint t | velocity joint t | acceleration joint t | torque joint t =>
    [('j', joint.index), ('t', t)]

theorem fields_ne_nil (k : Key) : k.fields ≠ [] := by
  cases k <;> exact List.cons_ne_nil _ _

/-- Nothing is lost in the letter and the fields. -/
theorem eq_of_symbol_eq_of_fields_eq (hsymbol : k.symbol = l.symbol)
    (hfields : k.fields = l.fields) : k = l := by
  cases k <;> cases l <;> simp_all [symbol, fields, LinkId.ext_iff, JointId.ext_iff]

theorem toList_text (k : Key) : k.text.toList = k.symbol :: '(' :: fieldsText k.fields := by
  cases k <;> simp [text, symbol, fields, fieldsText, furtherText, toString]

theorem legible_text : Legible text := by
  intro k l s t _ _ h
  simp only [toList_text, List.cons_append, List.cons.injEq, true_and] at h
  obtain ⟨hsymbol, h⟩ := h
  obtain ⟨hfields, hrest⟩ := fieldsText_append_inj k.fields_ne_nil l.fields_ne_nil h
  exact ⟨eq_of_symbol_eq_of_fields_eq hsymbol hfields, hrest⟩

/-- **A text is the text of one variable only.** -/
theorem text_inj : k.text = l.text ↔ k = l :=
  legible_text.injective.eq_iff

example : (wrench ⟨2⟩ ⟨1⟩ 4).text = "F(l=2, j=1, t=4)" := by decide

end Key

/-! ### Errors of linear equations -/

section

variable {text : κ → String}

theorem Mismatch.legible_message (h : Legible text) : Legible (message text) := by
  intro e f s t hs ht heq
  -- the words in front of the first number or variable tell two forms apart, or those behind it do
  cases e <;> cases f <;> unfold message at heq <;>
    simp [toString, h.append_inj, hs, ht] at heq <;>
    simp [heq]

/-- **A message about linear equations names its cause and its variable**, whatever legible
spelling the variables have. -/
theorem EliminationError.legible_message (h : Legible text) : Legible (message text) := by
  intro e f s t hs ht heq
  have hmismatch := Mismatch.legible_message h
  cases e <;> cases f <;> unfold message at heq <;>
    simp [hmismatch.append_inj, h.append_inj, hs, ht] at heq <;>
    simp [heq]

end

/-! ### Errors of the dynamics -/

/-- The name may hold numbers itself, so the link is read from the end. -/
theorem TopologyError.selfConnection_inj {name name' : String} {link link' : LinkId}
    (h : (selfConnection name link).message = (selfConnection name' link').message) :
    name = name' ∧ link = link' := by
  unfold message at h
  rw [String.append_left_inj] at h
  have heq := congrArg String.toList h
  simp only [String.toList_append, Nat.toString_eq_repr, Nat.toList_repr] at heq
  obtain ⟨hname, hlink⟩ := (append_toDigits_inj (by simp) (by simp)).mp heq
  simp only [← String.toList_append, String.toList_inj, String.append_left_inj,
    String.append_right_inj] at hname
  exact ⟨hname, LinkId.ext hlink⟩

theorem TopologyError.message_injective : Function.Injective message := by
  intro e f h
  have heq := congrArg String.toList h
  cases e <;> cases f
  case selfConnection.selfConnection name link name' link' =>
    obtain ⟨rfl, rfl⟩ := selfConnection_inj h
    rfl
  all_goals
    unfold message at heq
    simp [toString, String.toList_inj] at heq <;>
      simp [heq, LinkId.ext_iff, JointId.ext_iff]

theorem ValueKind.legible_text : Legible text := by
  intro kind kind' s t _ _ h
  cases kind <;> cases kind' <;> simp [text] at h <;> exact ⟨rfl, h⟩

/-- **No two errors have one message.** -/
theorem ModelError.message_injective : Function.Injective message := by
  intro e f h
  have heq := congrArg String.toList h
  have hkey := Key.legible_text
  have hkind := ValueKind.legible_text
  have helimination := EliminationError.legible_message hkey
  cases e <;> cases f <;> unfold message at heq <;>
    simp [toString, hkey.append_inj, hkey.toList_inj, hkind.append_inj, hkind.toList_inj,
      helimination.toList_inj, String.toList_inj, TopologyError.message_injective.eq_iff] at heq <;>
    simp [heq]

end Kinodynamics
