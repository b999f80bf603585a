import SchemaGraph.Json.Basic

/- Number literals. A literal without fraction and exponent that fits is an integer. Of any other
   literal the digits are gathered while they fit 64 bits; the significand and the power of ten are
   each rounded to the nearest float, and so is their product or quotient. -/
namespace SchemaGraph.Number

def maxSignificand : Nat := Nat.pow 2 64 - 1

def digitValue (c : Char) : Nat := c.toNat - '0'.toNat

def natOfDigits (digits : List Char) : Nat :=
  digits.foldl (fun n c => 10 * n + digitValue c) 0

/-- Gathers digits while the significand fits; answers it with the number of digits left over. -/
def gather : Nat → List Char → Nat × Nat
  | s, [] => (s, 0)
  | s, c :: rest =>
    let next := 10 * s + digitValue c
    if next ≤ maxSignificand then gather next rest else (s, (c :: rest).length)

def powerOfTen (k : Nat) : Binary64 :=
  (Binary64.nearest false (Nat.pow 10 k) 1).getD (Binary64.zero false)

/-- Scales by a power of ten in steps of at most 308; none when the result is too large. -/
def scaleByTen : Nat → Binary64 → Int → Option Binary64
  | fuel, x, e =>
    if 0 ≤ e then
      if e ≤ 308 then x.mul (powerOfTen e.toNat) else if x.isZero then some x else none
    else if -308 ≤ e then x.div (powerOfTen (-e).toNat)
    else if x.isZero then some x
    else match fuel with
      | 0 => some (Binary64.zero false)
      | fuel + 1 => (x.div (powerOfTen 308)).bind fun y => scaleByTen fuel y (e + 308)

def floatOf (negative : Bool) (significand : Nat) (exponent : Int) : Option Number := do
  let whole ← Binary64.nearest false significand 1
  let scaled ← scaleByTen 3 whole exponent
  return .float { scaled with negative }

/-- The parts of a literal: sign, digits before the point, digits after it, exponent. -/
structure Parts where
  negative : Bool
  whole : List Char
  fraction : Option (List Char)
  exponent : Option Int

def Parts.value (p : Parts) : Option Number :=
  let (s, left) := gather 0 p.whole
  match p.fraction, p.exponent with
  | none, none =>
    if left ≠ 0 then floatOf p.negative s left
    else if !p.negative then some (.int s)
    else if 0 < s ∧ minInt ≤ -(s : Int) then some (.int (-(s : Int)))
    else floatOf true s 0
  | fraction, exponent =>
    let digits := fraction.getD []
    let (s, ignored) := gather s digits
    floatOf p.negative s (left - (digits.length - ignored : Nat) + exponent.getD 0)

def isDigit (c : Char) : Bool := '0' ≤ c && c ≤ '9'

/-- The exponent after its mark: an optional sign and at least one digit, to the end. -/
def exponentOf? (cs : List Char) : Option Int :=
  let (negative, digits) := match cs with
    | '+' :: rest => (false, rest)
    | '-' :: rest => (true, rest)
    | rest => (false, rest)
  if digits ≠ [] ∧ digits.all isDigit then
    some (if negative then -(natOfDigits digits : Int) else natOfDigits digits)
  else none

def isMark (c : Char) : Bool := c == 'e' || c == 'E'

/-- What follows the digits before the point. -/
def tailOf? : List Char → Option (Option (List Char) × Option Int)
  | [] => some (none, none)
  | '.' :: rest =>
    let digits := rest.takeWhile isDigit
    if digits = [] then none
    else match rest.dropWhile isDigit with
      | [] => some (some digits, none)
      | c :: after =>
        if isMark c then (exponentOf? after).map fun e => (some digits, some e) else none
  | c :: rest => if isMark c then (exponentOf? rest).map fun e => (none, some e) else none

/-- A leading zero stands alone. -/
def partsOf? (cs : List Char) : Option Parts := do
  let (negative, cs) := match cs with
    | '-' :: rest => (true, rest)
    | rest => (false, rest)
  let whole := cs.takeWhile isDigit
  if whole = [] ∨ (whole.head? = some '0' ∧ whole.length ≠ 1) then none
  let (fraction, exponent) ← tailOf? (cs.dropWhile isDigit)
  return ⟨negative, whole, fraction, exponent⟩

end SchemaGraph.Number
