import SchemaGraph.Decimal.Binary64

/- The fewest decimal digits that read back as a given number, and among those the nearest to it.
   A grid of n digits has a point that reads back exactly when one of the two neighbours of the
   number on that grid does, so the first of the 17 grids with such a neighbour decides. -/
namespace SchemaGraph.Decimal
open Binary64 (digitCount)

/-- The value `digits · 10 ^ exponent`. -/
structure Scientific where
  digits : Nat
  exponent : Int
  deriving DecidableEq, Repr

/-- The position of the decimal point: `10 ^ (p - 1) ≤ num / den < 10 ^ p`. -/
def pointPosition (num den : Nat) : Int :=
  if den ≤ num then digitCount (num / den)
  else
    let q := den / num
    let l := digitCount q
    if q = Nat.pow 10 (l - 1) ∧ den % num = 0 then 2 - (l : Int) else 1 - (l : Int)

/-- `digits · 10 ^ exponent` as a numerator and a denominator. -/
def Scientific.ratio (x : Scientific) : Nat × Nat :=
  if 0 ≤ x.exponent then (x.digits * Nat.pow 10 x.exponent.toNat, 1)
  else (x.digits, Nat.pow 10 (-x.exponent).toNat)

/-- Whether the candidate lies in the interval that rounds to the number. The interval reaches half
way to each neighbour, a quarter below a power of two, and has its ends when the significand is
even. -/
def ReadsBack (x : Binary64) (candidate : Scientific) : Prop :=
  let (a, b) := candidate.ratio
  let below := if x.significand = Nat.pow 2 52 ∧ x.exponent > Binary64.minExponent then 1 else 2
  let (lowNum, lowDen) := Binary64.magnitude ⟨false, 4 * x.significand - below, x.exponent - 2⟩
  let (highNum, highDen) := Binary64.magnitude ⟨false, 4 * x.significand + 2, x.exponent - 2⟩
  if x.significand % 2 = 0 then lowNum * b ≤ a * lowDen ∧ a * highDen ≤ highNum * b
  else lowNum * b < a * lowDen ∧ a * highDen < highNum * b

instance (x : Binary64) (candidate : Scientific) : Decidable (ReadsBack x candidate) := by
  unfold ReadsBack; infer_instance

/-- The neighbour of the number on the grid of `n` digits that reads back; of two the nearer, of two
equally near the even one. -/
def onGrid (x : Binary64) (n : Nat) : Option Scientific :=
  let (num, den) := x.magnitude
  let e : Int := pointPosition num den - n
  let (a, b) :=
    if 0 ≤ e then (num, den * Nat.pow 10 e.toNat) else (num * Nat.pow 10 (-e).toNat, den)
  let low := a / b
  let twice := 2 * (a % b)
  let lowFirst := twice < b ∨ (twice = b ∧ low % 2 = 0)
  let first : Scientific := ⟨if lowFirst then low else low + 1, e⟩
  let second : Scientific := ⟨if lowFirst then low + 1 else low, e⟩
  if ReadsBack x first then some first else if ReadsBack x second then some second else none

def dropZeros : Nat → Scientific → Scientific
  | 0, x => x
  | fuel + 1, x =>
    if x.digits ≠ 0 ∧ x.digits % 10 = 0 then dropZeros fuel ⟨x.digits / 10, x.exponent + 1⟩ else x

/-- The shortest digits of a number other than zero. -/
def shortest (x : Binary64) : Scientific :=
  let found := (List.range 17).findSome? fun n => onGrid x (n + 1)
  dropZeros 20 (found.getD ⟨x.significand, 0⟩)

end SchemaGraph.Decimal
