/-
# Decimal text of binary numbers

A finite binary64 number is a mantissa times a power of two. Its decimal forms
are computed from that exact value in natural numbers: a fixed number of places,
a fixed number of significant digits, and the fewest digits that read back.

Key definitions: `Decimal.plain`, `Decimal.fixed`, `Decimal.scientific`,
`Decimal.significant`, `Decimal.shortest`.
-/
import Kinodynamics.Binary

namespace Kinodynamics

namespace Decimal

/-- A nonnegative fraction `num / den`. -/
structure Ratio where
  num : Nat
  den : Nat

/-- `mantissa · 2 ^ exponent`. -/
def Ratio.ofBinary (mantissa : Nat) (exponent : Int) : Ratio :=
  ⟨mantissa * Nat.pow 2 exponent.toNat, Nat.pow 2 (-exponent).toNat⟩

/-- The fraction times `10 ^ k`. -/
def Ratio.shift (r : Ratio) (k : Int) : Ratio :=
  ⟨r.num * Nat.pow 10 k.toNat, r.den * Nat.pow 10 (-k).toNat⟩

/-- The nearest integer, a half to the even neighbour. -/
def Ratio.round (r : Ratio) : Nat := roundHalfEven r.num r.den

/-- The digits of a natural number. -/
def digits (n : Nat) : List Char := Nat.toDigits 10 n

/-- The exponent `e` with `10 ^ e ≤ r < 10 ^ (e + 1)`, for a positive fraction. -/
def Ratio.magnitude (r : Ratio) : Int :=
  let guess : Int := (digits r.num).length - (digits r.den).length
  let low := Ratio.shift ⟨r.den, 1⟩ guess
  if low.num ≤ r.num * low.den then guess else guess - 1

/-- The `count` leading digits of a positive fraction, rounded, as a number with
the exponent of its first digit. -/
def Ratio.leading (r : Ratio) (count : Nat) : Nat × Int :=
  let e := r.magnitude
  let n := (r.shift (count - 1 - e)).round
  if n = Nat.pow 10 count then (Nat.pow 10 (count - 1), e + 1) else (n, e)

/-- `n` with at least `width` digits. -/
def padded (width n : Nat) : List Char :=
  let ds := digits n
  List.replicate (width - ds.length) '0' ++ ds

/-- `n · 10 ^ (-places)` with all its places. -/
def withPoint (places n : Nat) : String :=
  let ds := padded (places + 1) n
  let whole := ds.take (ds.length - places)
  if places = 0 then String.ofList whole
  else String.ofList (whole ++ '.' :: ds.drop (ds.length - places))

/-- The number without the zeros at its end, and how many they were at most
`fuel`. -/
def dropZeros : Nat → Nat → Nat × Nat
  | 0, n => (n, 0)
  | fuel + 1, n =>
    if n ≠ 0 ∧ n % 10 = 0 then
      let (m, k) := dropZeros fuel (n / 10)
      (m, k + 1)
    else (n, 0)

/-- `n · 10 ^ k` in positional notation, without zeros at the end of its
fraction. -/
def plain (n : Nat) (k : Int) : String :=
  if 0 ≤ k then withPoint 0 (n * Nat.pow 10 k.toNat)
  else
    let places := (-k).toNat
    let (m, dropped) := dropZeros places n
    if n = 0 then "0" else withPoint (places - dropped) m

/-- The text with a minus sign if `negative`. -/
def signed (negative : Bool) (text : String) : String := if negative then "-" ++ text else text

/-- The number with the given number of places; a zero keeps its sign. -/
def fixed (places : Nat) (x : Float) : String :=
  match Binary.ofFloat x with
  | .nan => "NaN"
  | .infinite negative => signed negative "inf"
  | .finite negative m e =>
    signed negative (withPoint places ((Ratio.ofBinary m e).shift places).round)

/-- One digit, the given number of places, and a power of ten. -/
def scientific (places : Nat) (x : Float) : String :=
  match Binary.ofFloat x with
  | .nan => "NaN"
  | .infinite negative => signed negative "inf"
  | .finite negative m e =>
    let (n, exponent) := if m = 0 then (0, 0) else (Ratio.ofBinary m e).leading (places + 1)
    signed negative (withPoint places n ++ "e" ++ toString exponent)

/-- Nine significant digits in positional notation, but no more than `places`
places. Zeros at the end are left out and a zero has no sign. -/
def significant (places : Nat) (x : Float) : String :=
  match Binary.ofFloat x with
  | .nan => "NaN"
  | .infinite negative => signed negative "Infinity"
  | .finite negative m e =>
    if m = 0 then "0"
    else
      let r := Ratio.ofBinary m e
      let (n, exponent) := r.leading 9
      let (n, k) : Nat × Int :=
        if (places : Int) < 8 - exponent then ((r.shift places).round, -places)
        else (n, exponent - 8)
      signed (negative && n ≠ 0) (plain n k)

/-! ### The fewest digits that read back -/

/-- The digits of the shortest decimal that is nearer to `m · 2 ^ e` than to any
other binary64 number, as a number and a power of ten. Of two such the nearer to
the exact value is taken. -/
def shortestDigits (m : Nat) (e : Int) : Nat × Int :=
  let value := Ratio.ofBinary (4 * m) (e - 2)
  let low := (Ratio.ofBinary (4 * m - if m = hiddenBit ∧ e ≠ -1074 then 1 else 2) (e - 2)).num
  let high := (Ratio.ofBinary (4 * m + 2) (e - 2)).num
  let magnitude := value.magnitude
  let onGrid := fun (count : Nat) =>
    let k : Int := magnitude - (count - 1)
    let scaled := value.shift (-k)
    let floor := scaled.num / scaled.den
    let inside := fun (n : Nat) =>
      let point := (Ratio.shift ⟨n, 1⟩ k)
      let p := point.num * value.den
      if m % 2 = 0 then low * point.den ≤ p ∧ p ≤ high * point.den
      else low * point.den < p ∧ p < high * point.den
    let nearer := scaled.round
    if inside nearer then some (nearer, k)
    else if inside floor then some (floor, k)
    else if inside (floor + 1) then some (floor + 1, k)
    else none
  match (List.range 17).findSome? fun i => onGrid (i + 1) with
  | some r => r
  | none => ((value.shift (16 - magnitude)).round, magnitude - 16)

/-- The shortest text that reads back. It is positional from a hundred thousandth
up to ten to the sixteenth, with a fraction even if that is zero, and has an
exponent with its sign beyond. -/
def shortest (x : Float) : String :=
  match Binary.ofFloat x with
  | .nan => "null"
  | .infinite _ => "null"
  | .finite negative m e =>
    if m = 0 then signed negative "0.0"
    else
      let (n, k) := shortestDigits m e
      let (n, dropped) := dropZeros 20 n
      let k : Int := k + dropped
      let ds := digits n
      let point : Int := ds.length + k
      let text :=
        if 0 ≤ k ∧ point ≤ 16 then withPoint 0 (n * Nat.pow 10 k.toNat) ++ ".0"
        else if -5 < point ∧ point ≤ 16 then withPoint (-k).toNat n
        else withPoint (ds.length - 1) n ++ (if 16 < point then "e+" else "e") ++
          toString (point - 1)
      signed negative text

end Decimal

end Kinodynamics
