/-
# Binary numbers taken apart

A finite binary64 number is a mantissa times a power of two. Going back, any
natural number times a power of two has a nearest binary64 number, and so has any
fraction. Between the two lies exact arithmetic, such as a product and a sum with
one rounding.

Key definitions: `Binary`, `Binary.ofFloat`, `roundHalfEven`, `Binary.nearest`,
`Binary.nearestQuotient`, `Binary.mulAdd`.
Key theorems: `roundHalfEven_le`, `le_roundHalfEven`.
-/
namespace Kinodynamics

/-- A binary64 number taken apart. -/
inductive Binary where
  | nan
  | infinite (negative : Bool)
  /-- The magnitude is `mantissa · 2 ^ exponent`. -/
  | finite (negative : Bool) (mantissa : Nat) (exponent : Int)

/-- The leading bit of a mantissa of 53 bits, which the fraction leaves out. -/
def hiddenBit : Nat := 4503599627370496

/-- The parts of a binary64 number, from its bits: the sign, eleven bits of exponent,
the fraction. -/
def Binary.ofFloat (x : Float) : Binary :=
  let bits := x.toBits.toNat
  let negative := bits / hiddenBit / 2048 = 1
  let exponent : Nat := bits / hiddenBit % 2048
  let fraction := bits % hiddenBit
  if exponent = 2047 then if fraction = 0 then .infinite negative else .nan
  else if exponent = 0 then .finite negative fraction (-1074)
  else .finite negative (hiddenBit + fraction) ((exponent : Int) - 1075)

/-- `num / den` to the nearest integer, a half to the even neighbour. -/
def roundHalfEven (num den : Nat) : Nat :=
  let q := num / den
  let r := num % den
  if 2 * r < den then q else if den < 2 * r then q + 1 else q + q % 2

/-- Rounding goes up by half a unit at most. -/
theorem roundHalfEven_le {num den : Nat} (h : 0 < den) :
    2 * (den * roundHalfEven num den) ≤ 2 * num + den := by
  have hd := Nat.div_add_mod num den
  have hm := Nat.mod_lt num h
  have hq := Nat.mod_lt (num / den) (show 0 < 2 by decide)
  unfold roundHalfEven
  simp only
  split
  · omega
  · split
    · rw [Nat.mul_add]
      omega
    · have : num / den % 2 = 0 ∨ num / den % 2 = 1 := by omega
      rcases this with h0 | h1
      · rw [h0, Nat.add_zero]
        omega
      · rw [h1, Nat.mul_add]
        omega

/-- Rounding goes down by half a unit at most. -/
theorem le_roundHalfEven {num den : Nat} (h : 0 < den) :
    2 * num ≤ 2 * (den * roundHalfEven num den) + den := by
  have hd := Nat.div_add_mod num den
  have hm := Nat.mod_lt num h
  unfold roundHalfEven
  simp only
  split
  · omega
  · split
    · rw [Nat.mul_add]
      omega
    · have : num / den % 2 = 0 ∨ num / den % 2 = 1 := by omega
      rcases this with h0 | h1
      · rw [h0, Nat.add_zero]
        omega
      · rw [h1, Nat.mul_add]
        omega

namespace Binary

/-- The binary64 number nearest to `± m · 2 ^ e`, a tie to the even mantissa: at most
53 bits are kept, and none below `2 ^ (-1074)`. -/
def nearest (negative : Bool) (m : Nat) (e : Int) : Float :=
  let excess := max ((m.log2 : Int) + 1 - 53) (-1074 - e)
  let magnitude :=
    if 0 < excess then
      Float.scaleB (Float.ofNat (roundHalfEven m (Nat.pow 2 excess.toNat))) (e + excess)
    else Float.scaleB (Float.ofNat m) e
  if negative then -magnitude else magnitude

/-- The exponent `e` with `2 ^ e ≤ num / den < 2 ^ (e + 1)`, for a positive fraction. -/
def leadingExponent (num den : Nat) : Int :=
  let e : Int := num.log2 - den.log2
  if num * Nat.pow 2 (-e).toNat < den * Nat.pow 2 e.toNat then e - 1 else e

/-- The binary64 number nearest to `± num / den`, a tie to the even mantissa: at most
53 bits are kept, and none below `2 ^ (-1074)`. It is infinite beyond the finite
numbers. -/
def nearestQuotient (negative : Bool) (num den : Nat) : Float :=
  let e := max (leadingExponent num den - 52) (-1074)
  let mantissa := roundHalfEven (num * Nat.pow 2 (-e).toNat) (den * Nat.pow 2 e.toNat)
  let magnitude := Float.scaleB (Float.ofNat mantissa) e
  if negative then -magnitude else magnitude

/-- The integer `± m · 2 ^ k`. -/
def scaled (negative : Bool) (m : Nat) (k : Int) : Int :=
  if negative then -((m * Nat.pow 2 k.toNat : Nat) : Int) else (m * Nat.pow 2 k.toNat : Nat)

/-- `a * b + c` with one rounding, from the exact sum over the smaller of the two
exponents. Zero terms and numbers that are not finite go through the plain
operations, which give the sign of a zero sum. -/
def mulAdd (a b c : Float) : Float :=
  match ofFloat a, ofFloat b, ofFloat c with
  | .finite sa ma ea, .finite sb mb eb, .finite sc mc ec =>
    if ma = 0 ∨ mb = 0 then a * b + c
    else
      let e := min (ea + eb) ec
      let sum := scaled (sa != sb) (ma * mb) (ea + eb - e) + scaled sc mc (ec - e)
      if sum = 0 then 0.0 else nearest (decide (sum < 0)) sum.natAbs e
  | .finite .., .finite .., _ => c
  | _, _, _ => a * b + c

end Binary

end Kinodynamics
