/- Finite 64-bit floating-point numbers as exact dyadic rationals, and the nearest one to a ratio.
   All arithmetic is unbounded; the only rounding is the one in `nearest`. -/
namespace SchemaGraph

/-- The number `±significand · 2 ^ exponent`. Normal numbers have `2 ^ 52 ≤ significand < 2 ^ 53`,
smaller ones and both zeros have exponent -1074. -/
structure Binary64 where
  negative : Bool
  significand : Nat
  exponent : Int
  deriving DecidableEq, Repr

namespace Binary64

def minExponent : Int := -1074
def maxExponent : Int := 971

def zero (negative : Bool) : Binary64 := ⟨negative, 0, minExponent⟩

def isZero (x : Binary64) : Bool := x.significand == 0

/-- The magnitude as a numerator and a denominator. -/
def magnitude (x : Binary64) : Nat × Nat :=
  if 0 ≤ x.exponent then (x.significand * Nat.pow 2 x.exponent.toNat, 1)
  else (x.significand, Nat.pow 2 (-x.exponent).toNat)

/-- Numeric equality: the two zeros are equal. -/
def sameValue (x y : Binary64) : Bool := x == y || (x.isZero && y.isZero)

/-- `num / (den · 2 ^ e)` as a numerator and a denominator. -/
def scale (num den : Nat) (e : Int) : Nat × Nat :=
  if 0 ≤ e then (num, den * Nat.pow 2 e.toNat) else (num * Nat.pow 2 (-e).toNat, den)

/-- The quotient rounded to the nearest integer, a half going to the even neighbour. -/
def roundDiv (num den : Nat) : Nat :=
  let q := num / den
  let r := num % den
  if 2 * r > den ∨ (2 * r = den ∧ q % 2 = 1) then q + 1 else q

/-- The exponent at which `num / den` has 53 significant bits, but no less than the smallest. -/
def exponentFor (num den : Nat) : Int :=
  let guess : Int := (Nat.log2 num : Int) - Nat.log2 den - 52
  let (n, d) := scale num den guess
  max minExponent (if n < d * Nat.pow 2 52 then guess - 1 else guess)

/-- The number nearest to `±num / den`, ties to an even significand; none beyond the largest. -/
def nearest (negative : Bool) (num den : Nat) : Option Binary64 :=
  if num = 0 then some (zero negative) else
  let e := exponentFor num den
  let (n, d) := scale num den e
  let s := roundDiv n d
  let (s, e) := if s = Nat.pow 2 53 then (Nat.pow 2 52, e + 1) else (s, e)
  if e > maxExponent then none else some ⟨negative, s, e⟩

def digitCount (n : Nat) : Nat := (Nat.toDigits 10 n).length

/-- The number nearest to `±digits · 10 ^ exponent`. Far outside the range the power of ten is not
formed. -/
def ofDecimal (negative : Bool) (digits : Nat) (exponent : Int) : Option Binary64 :=
  if digits = 0 then some (zero negative) else
  let lead := exponent + digitCount digits
  if lead > 310 then none
  else if lead < -330 then some (zero negative)
  else if 0 ≤ exponent then nearest negative (digits * Nat.pow 10 exponent.toNat) 1
  else nearest negative digits (Nat.pow 10 (-exponent).toNat)

def mul (x y : Binary64) : Option Binary64 :=
  let (a, b) := x.magnitude
  let (c, d) := y.magnitude
  nearest (x.negative != y.negative) (a * c) (b * d)

def div (x y : Binary64) : Option Binary64 :=
  let (a, b) := x.magnitude
  let (c, d) := y.magnitude
  nearest (x.negative != y.negative) (a * d) (b * c)

end Binary64
end SchemaGraph
