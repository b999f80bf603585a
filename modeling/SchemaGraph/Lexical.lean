import SchemaGraph.Json.Literal

/- Lexical values: a default or an enumerated value that stands as text becomes the JSON value of
   its declared type. Text that does not read as such a value stays. -/
namespace SchemaGraph.Lexical
open Number (digitValue natOfDigits isDigit isMark exponentOf?)

/-- The characters with the property White_Space. -/
def isBlank (c : Char) : Bool :=
  let n := c.toNat
  (0x9 ≤ n && n ≤ 0xD) || n == 0x20 || n == 0x85 || n == 0xA0 || n == 0x1680 ||
    (0x2000 ≤ n && n ≤ 0x200A) || n == 0x2028 || n == 0x2029 || n == 0x202F || n == 0x205F ||
    n == 0x3000

def trim (cs : List Char) : List Char :=
  ((cs.dropWhile isBlank).reverse.dropWhile isBlank).reverse

def signed : List Char → Bool × List Char
  | '+' :: rest => (false, rest)
  | '-' :: rest => (true, rest)
  | rest => (false, rest)

/-- Digits with an optional sign, within 64 bits with sign. -/
def integer? (cs : List Char) : Option Int :=
  let (negative, digits) := signed cs
  if digits = [] ∨ !digits.all isDigit then none else
  let n : Int := natOfDigits digits
  let value := if negative then -n else n
  if Number.minInt ≤ value ∧ value < -Number.minInt then some value else none

/-- A decimal number: an optional sign, digits with an optional point anywhere among them, and an
optional exponent. The float is the nearest one; beyond the largest there is none. -/
def float? (cs : List Char) : Option Binary64 := do
  let (negative, cs) := signed cs
  let whole := cs.takeWhile isDigit
  let rest := cs.dropWhile isDigit
  let (fraction, rest) := match rest with
    | '.' :: after => (after.takeWhile isDigit, after.dropWhile isDigit)
    | rest => ([], rest)
  if whole = [] ∧ fraction = [] then none
  let exponent ← match rest with
    | [] => some 0
    | c :: after => if isMark c then exponentOf? after else none
  Binary64.ofDecimal negative (natOfDigits (whole ++ fraction)) (exponent - fraction.length)

def number? (cs : List Char) : Option Number :=
  let cs := trim cs
  match integer? cs with
  | some value => some (.int value)
  | none => (float? cs).map .float

def primitive (text : String) : Json :=
  let trimmed := trim text.toList
  if trimmed = "true".toList then .bool true
  else if trimmed = "false".toList then .bool false
  else match number? trimmed with
    | some n => .num n
    | none => .str text

/-- The numbers one and zero stand for true and false. -/
def boolean (value : Json) : Json :=
  let value := match value with
    | .str text => primitive text
    | value => value
  match value with
  | .num n => if n.isOne then .bool true else if n.isZero then .bool false else .num n
  | value => value

def numeric (value : Json) : Json :=
  match value with
  | .str text =>
    match number? text.toList with
    | some n => .num n
    | none => value
  | value => value

def convert (type : String) (value : Json) : Json :=
  if type = "boolean" then boolean value
  else if type = "number" ∨ type = "integer" then numeric value
  else value

end SchemaGraph.Lexical
