/-
# JSON documents

A reader for JSON text that keeps what a typed reader needs: the fields of an
object in order with repetitions, the digits of a number, and whether a string
holds a lone surrogate. Nothing but blanks may follow the value.

A number keeps its digits. As a binary64 number it is the nearest one to the exact
decimal; a number without sign, point and exponent is also a natural number of 64
bits if it fits.

Key definitions: `Numeral`, `Numeral.toNat?`, `Numeral.toFloat?`, `Document`,
`Document.parse?`.
-/
import Kinodynamics.Binary

namespace Kinodynamics

/-- A number as written. -/
structure Numeral where
  negative : Bool
  /-- Digits before the point. -/
  whole : List Nat
  /-- Digits after the point. -/
  fraction : List Nat
  exponent : Option Int

/-- A JSON value. A string is absent if it holds a surrogate without its partner. -/
inductive Document where
  | null
  | bool (value : Bool)
  | number (numeral : Numeral)
  | string (text : Option String)
  | list (items : List Document)
  | object (fields : List (Option String × Document))

namespace Numeral

/-- The number that decimal digits spell. -/
def ofDigits (ds : List Nat) : Nat := ds.foldl (fun n d => n * 10 + d) 0

/-- One more than the largest number of 64 bits. -/
def wordBound : Nat := 18446744073709551616

/-- The value of a whole number of at most 64 bits without a sign. -/
def toNat? (n : Numeral) : Option Nat :=
  match n.fraction, n.exponent with
  | [], none =>
    let value := ofDigits n.whole
    if n.negative = false ∧ value < wordBound then some value else none
  | _, _ => none

/-- What is read fits into 64 bits. -/
theorem toNat?_lt {n : Numeral} {value : Nat} (h : n.toNat? = some value) : value < wordBound := by
  unfold toNat? at h
  split at h
  · simp only at h
    split at h
    · next hv =>
      cases h
      exact hv.2
    · cases h
  · cases h

/-- The digits from the first that is not zero. -/
def significantDigits (n : Numeral) : List Nat := (n.whole ++ n.fraction).dropWhile (· = 0)

/-- The exponent of ten that the last digit has. -/
def lastExponent (n : Numeral) : Int := n.exponent.getD 0 - n.fraction.length

/-- The binary64 number nearest to the decimal, a tie to the even mantissa; absent
if that is infinite. A decimal of more than 310 digits before its point is beyond
the finite numbers, and one with 330 zeros behind it is nearest to zero, so that
no larger power of ten is formed. -/
def toFloat? (n : Numeral) : Option Float :=
  let digits := n.significantDigits
  let exponent := n.lastExponent
  let order := digits.length + exponent
  if digits.isEmpty ∨ order < -330 then some (if n.negative then -0.0 else 0.0)
  else if 310 < order then none
  else
    let x := Binary.nearestQuotient n.negative (ofDigits digits * Nat.pow 10 exponent.toNat)
      (Nat.pow 10 (-exponent).toNat)
    if x.isInf then none else some x

end Numeral

namespace Document

/-! ### Lexical parts -/

/-- Blanks between tokens. -/
def isBlank (c : Char) : Bool := c = ' ' || c = '\n' || c = '\t' || c = '\r'

/-- The text after its leading blanks. -/
def skipBlanks (cs : List Char) : List Char := cs.dropWhile isBlank

/-- The leading decimal digits and the rest. -/
def spanDigits (cs : List Char) : List Nat × List Char :=
  let (ds, rest) := cs.span Char.isDigit
  (ds.map fun c => c.toNat - '0'.toNat, rest)

/-- The value of a hexadecimal digit. -/
def hexValue? (c : Char) : Option Nat :=
  if c.isDigit then some (c.toNat - '0'.toNat)
  else if 'a' ≤ c ∧ c ≤ 'f' then some (c.toNat - 'a'.toNat + 10)
  else if 'A' ≤ c ∧ c ≤ 'F' then some (c.toNat - 'A'.toNat + 10)
  else none

/-- A number at the head of the text. A leading zero stands alone, and a point or
an exponent mark has a digit after it. -/
def readNumeral (cs : List Char) : Option (Numeral × List Char) := do
  let (negative, cs) := match cs with
    | '-' :: rest => (true, rest)
    | _ => (false, cs)
  let (whole, cs) := spanDigits cs
  if whole.isEmpty ∨ (whole.head? = some 0 ∧ whole.length > 1) then none
  let (fraction, cs) ← match cs with
    | '.' :: rest =>
      let (ds, rest) := spanDigits rest
      if ds.isEmpty then none else some (ds, rest)
    | _ => some ([], cs)
  let (exponent, cs) ← match cs with
    | c :: rest =>
      if c = 'e' ∨ c = 'E' then
        let (down, rest) := match rest with
          | '-' :: rest => (true, rest)
          | '+' :: rest => (false, rest)
          | _ => (false, rest)
        let (ds, rest) := spanDigits rest
        if ds.isEmpty then none
        else
          let n : Int := Numeral.ofDigits ds
          some (some (if down then -n else n), rest)
      else some (none, cs)
    | [] => some (none, cs)
  return (⟨negative, whole, fraction, exponent⟩, cs)

/-- A unit of a string: a character, or the 16-bit number of an escape. -/
inductive StringUnit where
  | char (c : Char)
  | word (n : Nat)

/-- The units of a string up to its closing quote. Control characters have to be
escaped. -/
def readUnits : List Char → Option (List StringUnit × List Char)
  | [] => none
  | '"' :: rest => some ([], rest)
  | '\\' :: 'u' :: a :: b :: c :: d :: rest => do
    let n := ((← hexValue? a) * 16 + (← hexValue? b)) * 256 + (← hexValue? c) * 16 + (← hexValue? d)
    let (units, rest) ← readUnits rest
    return (.word n :: units, rest)
  | '\\' :: c :: rest => do
    let escaped ← match c with
      | '"' => some '"'
      | '\\' => some '\\'
      | '/' => some '/'
      | 'b' => some '\x08'
      | 'f' => some '\x0c'
      | 'n' => some '\n'
      | 'r' => some '\r'
      | 't' => some '\t'
      | _ => none
    let (units, rest) ← readUnits rest
    return (.char escaped :: units, rest)
  | c :: rest => do
    if c.toNat < 32 ∨ c = '\\' then none
    let (units, rest) ← readUnits rest
    return (.char c :: units, rest)

/-- The characters that units stand for. A pair of surrogates is one character. -/
def decodeUnits : List StringUnit → Option (List Char)
  | [] => some []
  | .char c :: rest => (decodeUnits rest).map (c :: ·)
  | .word high :: .word low :: rest =>
    if 0xD800 ≤ high ∧ high < 0xDC00 then
      if 0xDC00 ≤ low ∧ low < 0xE000 then
        (decodeUnits rest).map (Char.ofNat (0x10000 + (high - 0xD800) * 1024 + (low - 0xDC00)) :: ·)
      else none
    else if 0xDC00 ≤ high ∧ high < 0xE000 then none
    else (decodeUnits (.word low :: rest)).map (Char.ofNat high :: ·)
  | .word n :: rest =>
    if 0xD800 ≤ n ∧ n < 0xE000 then none else (decodeUnits rest).map (Char.ofNat n :: ·)

/-- A string after its opening quote. -/
def readString (cs : List Char) : Option (Option String × List Char) := do
  let (units, rest) ← readUnits cs
  return ((decodeUnits units).map String.ofList, rest)

/-- The rest of the text after the given word. -/
def readWord (word : String) (cs : List Char) : Option (List Char) :=
  if word.toList.isPrefixOf cs then some (cs.drop word.length) else none

/-! ### Values -/

mutual

/-- A value at the head of the text, after blanks. -/
def readValue : Nat → List Char → Option (Document × List Char)
  | 0, _ => none
  | fuel + 1, cs =>
    match skipBlanks cs with
    | '[' :: rest =>
      match skipBlanks rest with
      | ']' :: rest => some (list [], rest)
      | rest => do
        let (items, rest) ← readItems fuel rest
        return (list items, rest)
    | '\x7b' :: rest =>
      match skipBlanks rest with
      | '\x7d' :: rest => some (object [], rest)
      | rest => do
        let (fields, rest) ← readFields fuel rest
        return (object fields, rest)
    | '"' :: rest => do
      let (text, rest) ← readString rest
      return (string text, rest)
    | 'n' :: rest => (readWord "ull" rest).map fun rest => (null, rest)
    | 't' :: rest => (readWord "rue" rest).map fun rest => (bool true, rest)
    | 'f' :: rest => (readWord "alse" rest).map fun rest => (bool false, rest)
    | rest => do
      let (numeral, rest) ← readNumeral rest
      return (number numeral, rest)

/-- One or more items and the closing bracket. -/
def readItems : Nat → List Char → Option (List Document × List Char)
  | 0, _ => none
  | fuel + 1, cs => do
    let (item, rest) ← readValue fuel cs
    match skipBlanks rest with
    | ',' :: rest => do
      let (items, rest) ← readItems fuel rest
      return (item :: items, rest)
    | ']' :: rest => return ([item], rest)
    | _ => none

/-- One or more fields and the closing brace. -/
def readFields : Nat → List Char → Option (List (Option String × Document) × List Char)
  | 0, _ => none
  | fuel + 1, cs =>
    match skipBlanks cs with
    | '"' :: rest => do
      let (name, rest) ← readString rest
      match skipBlanks rest with
      | ':' :: rest => do
        let (value, rest) ← readValue fuel rest
        match skipBlanks rest with
        | ',' :: rest => do
          let (fields, rest) ← readFields fuel rest
          return ((name, value) :: fields, rest)
        | '\x7d' :: rest => return ([(name, value)], rest)
        | _ => none
      | _ => none
    | _ => none

end

/-- The value that the whole text spells. -/
def parse? (text : String) : Option Document := do
  let cs := text.toList
  let (value, rest) ← readValue (cs.length + 1) cs
  if (skipBlanks rest).isEmpty then some value else none

end Document

end Kinodynamics
