import SchemaGraph.Json.Basic
import SchemaGraph.Decimal.Shortest

/- Writing JSON text, compact or indented. Floats have the shortest digits that read back: plain
   notation while the point stands after at most 16 digits or at most four zeros follow it, else
   scientific notation with an explicit sign. -/
namespace SchemaGraph

namespace Binary64

def plainDigits : Int := 16
def plainZeros : Int := 4

def zeros (n : Int) : List Char := List.replicate n.toNat '0'

def magnitudeText (x : Binary64) : List Char :=
  if x.isZero then ['0', '.', '0'] else
  let s := Decimal.shortest x
  let digits := Nat.toDigits 10 s.digits
  let point : Int := digits.length + s.exponent
  if 0 ≤ s.exponent ∧ point ≤ plainDigits then digits ++ zeros s.exponent ++ ['.', '0']
  else if 0 < point ∧ point ≤ plainDigits then
    digits.take point.toNat ++ '.' :: digits.drop point.toNat
  else if -plainZeros ≤ point ∧ point ≤ 0 then ['0', '.'] ++ zeros (-point) ++ digits
  else
    let e := point - 1
    let fraction := digits.drop 1
    digits.take 1 ++ (if fraction = [] then [] else '.' :: fraction) ++
      ['e', if e < 0 then '-' else '+'] ++ Nat.toDigits 10 e.natAbs

def text (x : Binary64) : String :=
  String.ofList ((if x.negative then ['-'] else []) ++ magnitudeText x)

end Binary64

def Number.text : Number → String
  | .int value => toString value
  | .float value => value.text

namespace Json

def hexDigit (n : Nat) : Char := if n < 10 then Char.ofNat (48 + n) else Char.ofNat (87 + n)

def escapeChar (c : Char) : List Char :=
  if c = '"' then ['\\', '"']
  else if c = '\\' then ['\\', '\\']
  else if c = '\x08' then ['\\', 'b']
  else if c = '\x0c' then ['\\', 'f']
  else if c = '\n' then ['\\', 'n']
  else if c = '\r' then ['\\', 'r']
  else if c = '\t' then ['\\', 't']
  else if c.toNat < 0x20 then
    ['\\', 'u', '0', '0', hexDigit (c.toNat / 16), hexDigit (c.toNat % 16)]
  else [c]

def quote (s : String) : String := String.ofList ('"' :: s.toList.flatMap escapeChar ++ ['"'])

/-- The text of a scalar; a container is written as an empty one. -/
def scalarText : Json → String
  | null => "null"
  | bool value => if value then "true" else "false"
  | num value => value.text
  | str text => quote text
  | arr _ => "[]"
  | obj _ => "\x7b\x7d"

mutual
/-- Writes a value behind a text, without blanks. -/
def compactOnto (out : String) : Json → String
  | arr items => compactItemsOnto (out ++ "[") true items ++ "]"
  | obj entries => compactEntriesOnto (out ++ "\x7b") true entries ++ "\x7d"
  | value => out ++ scalarText value

def compactItemsOnto (out : String) (isFirst : Bool) : List Json → String
  | [] => out
  | value :: rest =>
    compactItemsOnto (compactOnto (if isFirst then out else out ++ ",") value) false rest

def compactEntriesOnto (out : String) (isFirst : Bool) : List (String × Json) → String
  | [] => out
  | (key, value) :: rest =>
    let out := (if isFirst then out else out ++ ",") ++ quote key ++ ":"
    compactEntriesOnto (compactOnto out value) false rest
end

def compact (value : Json) : String := compactOnto "" value

mutual
theorem compactOnto_eq (out : String) :
    (value : Json) → compactOnto out value = out ++ compact value
  | arr items => by
    rw [compact, compactOnto, compactOnto, compactItemsOnto_eq (out ++ "["),
      compactItemsOnto_eq ("" ++ "[")]
    simp [String.append_assoc]
  | obj entries => by
    rw [compact, compactOnto, compactOnto, compactEntriesOnto_eq (out ++ "\x7b"),
      compactEntriesOnto_eq ("" ++ "\x7b")]
    simp [String.append_assoc]
  | null => by simp [compact, compactOnto]
  | bool _ => by simp [compact, compactOnto]
  | num _ => by simp [compact, compactOnto]
  | str _ => by simp [compact, compactOnto]

theorem compactItemsOnto_eq (out : String) (isFirst : Bool) :
    (items : List Json) →
      compactItemsOnto out isFirst items = out ++ compactItemsOnto "" isFirst items
  | [] => by simp [compactItemsOnto]
  | value :: rest => by
    rw [compactItemsOnto, compactItemsOnto, compactOnto_eq _ value, compactOnto_eq _ value,
      compactItemsOnto_eq _ false rest, compactItemsOnto_eq (_ ++ compact value) false rest]
    cases isFirst <;> simp [String.append_assoc]

theorem compactEntriesOnto_eq (out : String) (isFirst : Bool) :
    (entries : List (String × Json)) →
      compactEntriesOnto out isFirst entries = out ++ compactEntriesOnto "" isFirst entries
  | [] => by simp [compactEntriesOnto]
  | (key, value) :: rest => by
    rw [compactEntriesOnto, compactEntriesOnto]
    simp only [compactOnto_eq _ value]
    rw [compactEntriesOnto_eq _ false rest]
    conv => rhs; rw [compactEntriesOnto_eq _ false rest]
    cases isFirst <;> simp [String.append_assoc]
end

def indent (level : Nat) : String := String.ofList (List.replicate (2 * level) ' ')

/-- A new line for a member; a comma ends the line of the member before. -/
def newLine (level : Nat) (out : String) (isFirst : Bool) : String :=
  (if isFirst then out else out ++ ",") ++ "\n" ++ indent level

mutual
/-- Writes a value behind a text, the members of a container on lines of their own. -/
def prettyOnto (level : Nat) (out : String) : Json → String
  | arr (first :: rest) =>
    prettyItemsOnto (level + 1) (out ++ "[") true (first :: rest) ++ "\n" ++ indent level ++ "]"
  | obj (first :: rest) =>
    prettyEntriesOnto (level + 1) (out ++ "\x7b") true (first :: rest) ++ "\n" ++ indent level ++
      "\x7d"
  | value => out ++ scalarText value

def prettyItemsOnto (level : Nat) (out : String) (isFirst : Bool) : List Json → String
  | [] => out
  | value :: rest =>
    prettyItemsOnto level (prettyOnto level (newLine level out isFirst) value) false rest

def prettyEntriesOnto (level : Nat) (out : String) (isFirst : Bool) :
    List (String × Json) → String
  | [] => out
  | (key, value) :: rest =>
    let out := newLine level out isFirst ++ quote key ++ ": "
    prettyEntriesOnto level (prettyOnto level out value) false rest
end

def pretty (value : Json) : String := prettyOnto 0 "" value

end Json
end SchemaGraph
