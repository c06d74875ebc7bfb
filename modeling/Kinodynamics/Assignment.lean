/-
# Assignments

A finite map from ordered keys to values, listed in key order. Inserting a key
that is present replaces its value, so each key is listed at most once. What an
assignment means is read by `get?`.

Key definitions: `Assignment`, `Assignment.get?`, `Assignment.insert`,
`insertKey`, `sortedKeys`.
Key theorems: `Assignment.get?_insert_self`, `Assignment.get?_insert_of_ne`,
`mem_sortedKeys`.
-/
namespace Kinodynamics

/-- A list of keys with their values, in key order if made by `insert`. -/
structure Assignment (κ β : Type) where
  entries : List (κ × β)

/-- `k` put at its place in a list in increasing order, unless it is there. -/
def insertKey {κ : Type} [LT κ] [DecidableLT κ] (k : κ) : List κ → List κ
  | [] => [k]
  | x :: xs => if k < x then k :: x :: xs else if x < k then x :: insertKey k xs else x :: xs

/-- The keys in increasing order, each once. -/
def sortedKeys {κ : Type} [LT κ] [DecidableLT κ] (ks : List κ) : List κ :=
  ks.foldl (fun sorted k => insertKey k sorted) []

/-- Inserting a key adds it and keeps the others, where keys that are not ordered
either way are equal. -/
theorem mem_insertKey {κ : Type} [LT κ] [DecidableLT κ]
    (total : ∀ a b : κ, ¬a < b → ¬b < a → a = b) {k l : κ} {ks : List κ} :
    l ∈ insertKey k ks ↔ l = k ∨ l ∈ ks := by
  induction ks with
  | nil => simp [insertKey]
  | cons x xs ih =>
    unfold insertKey
    split
    · simp
    · next h =>
      split
      · rw [List.mem_cons, ih, List.mem_cons]
        constructor
        · rintro (rfl | rfl | hl)
          · exact Or.inr (Or.inl rfl)
          · exact Or.inl rfl
          · exact Or.inr (Or.inr hl)
        · rintro (rfl | rfl | hl)
          · exact Or.inr (Or.inl rfl)
          · exact Or.inl rfl
          · exact Or.inr (Or.inr hl)
      · next h' =>
        obtain rfl := total k x h h'
        simp

/-- Sorting loses no key and adds none. -/
theorem mem_sortedKeys {κ : Type} [LT κ] [DecidableLT κ]
    (total : ∀ a b : κ, ¬a < b → ¬b < a → a = b) {l : κ} {ks : List κ} :
    l ∈ sortedKeys ks ↔ l ∈ ks := by
  suffices h : ∀ sorted : List κ,
      l ∈ ks.foldl (fun sorted k => insertKey k sorted) sorted ↔ l ∈ sorted ∨ l ∈ ks by
    simpa [sortedKeys] using h []
  induction ks with
  | nil => simp
  | cons k ks ih =>
    intro sorted
    rw [List.foldl_cons, ih, mem_insertKey total, List.mem_cons]
    constructor
    · rintro ((rfl | h) | h)
      · exact Or.inr (Or.inl rfl)
      · exact Or.inl h
      · exact Or.inr (Or.inr h)
    · rintro (h | rfl | h)
      · exact Or.inl (Or.inr h)
      · exact Or.inl (Or.inl rfl)
      · exact Or.inr h

namespace Assignment

variable {κ β : Type}

/-- No key has a value. -/
def empty : Assignment κ β := ⟨[]⟩

instance : Inhabited (Assignment κ β) := ⟨empty⟩

/-- The number of keys. -/
def size (a : Assignment κ β) : Nat := a.entries.length

/-- The keys, in order. -/
def keys (a : Assignment κ β) : List κ := a.entries.map Prod.fst

variable [DecidableEq κ]

/-- The value of a key, if it has one. -/
def get? (a : Assignment κ β) (k : κ) : Option β :=
  (a.entries.find? fun e => e.1 = k).map Prod.snd

/-- The key has a value. -/
def contains (a : Assignment κ β) (k : κ) : Bool := (a.get? k).isSome

/-- The value of `k` set to `v` in a list of entries: replaced where `k` is
listed, else put before the first larger key. -/
def insertEntry [LT κ] [DecidableLT κ] (k : κ) (v : β) : List (κ × β) → List (κ × β)
  | [] => [(k, v)]
  | e :: es =>
    if e.1 = k then (k, v) :: es
    else if k < e.1 then (k, v) :: e :: es
    else e :: insertEntry k v es

/-- The assignment that gives `k` the value `v` and agrees elsewhere. -/
def insert [LT κ] [DecidableLT κ] (a : Assignment κ β) (k : κ) (v : β) : Assignment κ β :=
  ⟨insertEntry k v a.entries⟩

/-- The entries inserted one after another, later ones winning. -/
def insertAll [LT κ] [DecidableLT κ] (a : Assignment κ β) (es : List (κ × β)) : Assignment κ β :=
  es.foldl (fun a e => a.insert e.1 e.2) a

/-- The assignment with the given entries, later ones winning. -/
def ofList [LT κ] [DecidableLT κ] (es : List (κ × β)) : Assignment κ β := empty.insertAll es

/-! ### Reading after writing -/

@[simp] theorem get?_empty (k : κ) : (empty : Assignment κ β).get? k = none := rfl

theorem get?_mk_cons (e : κ × β) (es : List (κ × β)) (k : κ) :
    (mk (e :: es)).get? k = if e.1 = k then some e.2 else (mk es).get? k := by
  unfold get?
  by_cases h : e.1 = k <;> simp [h]

variable [LT κ] [DecidableLT κ]

theorem get?_insertEntry (es : List (κ × β)) (k : κ) (v : β) (l : κ) :
    (mk (insertEntry k v es)).get? l = if k = l then some v else (mk es).get? l := by
  induction es with
  | nil => simp [insertEntry, get?_mk_cons]
  | cons e es ih =>
    unfold insertEntry
    split
    · next h =>
      rw [get?_mk_cons, get?_mk_cons, h]
      by_cases hl : k = l <;> simp [hl]
    · next h =>
      split
      · rw [get?_mk_cons]
      · rw [get?_mk_cons, get?_mk_cons, ih]
        by_cases hl : k = l
        · subst hl
          simp [h]
        · simp [hl]

/-- A key inserted reads back as inserted. -/
theorem get?_insert_self (a : Assignment κ β) (k : κ) (v : β) : (a.insert k v).get? k = some v := by
  simp [insert, get?_insertEntry]

/-- Inserting a key changes no other key. -/
theorem get?_insert_of_ne (a : Assignment κ β) {k l : κ} (v : β) (h : k ≠ l) :
    (a.insert k v).get? l = a.get? l := by
  simp [insert, get?_insertEntry, h]

end Assignment

end Kinodynamics
