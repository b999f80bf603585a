import SchemaGraph.Json.Literal

/- Values as they are written. The grammar is settled, but the strings and numbers are not read yet
   and no limit is applied: what nobody asks for needs no meaning. -/
namespace SchemaGraph

/-- A character of a string that stands for itself, or the 16-bit unit of an escape. -/
inductive Glyph where
  | char (c : Char)
  | unit (value : Nat)
  deriving DecidableEq, Repr

namespace Glyph

def isFirstHalf (unit : Nat) : Bool := 0xD800 ≤ unit && unit < 0xDC00

def isSecondHalf (unit : Nat) : Bool := 0xDC00 ≤ unit && unit < 0xE000

/-- The characters so far, in reverse, and a first half that waits for its second. -/
structure Reader where
  gathered : List Char := []
  high : Option Nat := none

/-- A first half waits, a second half completes a pair, and neither may stand alone. -/
def read (r : Reader) : Glyph → Option Reader
  | char c => if r.high.isSome then none else some { r with gathered := c :: r.gathered }
  | unit u =>
    match r.high with
    | none =>
      if isFirstHalf u then some { r with high := some u }
      else if isSecondHalf u then none
      else some { r with gathered := Char.ofNat u :: r.gathered }
    | some high =>
      if isSecondHalf u then
        some ⟨Char.ofNat (0x10000 + (high - 0xD800) * 0x400 + (u - 0xDC00)) :: r.gathered, none⟩
      else none

/-- The text of a string. -/
def text? (glyphs : List Glyph) : Option String := do
  let last ← glyphs.foldlM read {}
  if last.high.isSome then none else some (String.ofList last.gathered.reverse)

end Glyph

inductive Written where
  | null
  | bool (value : Bool)
  | num (parts : Number.Parts)
  | str (glyphs : List Glyph)
  | arr (items : List Written)
  | obj (entries : List (List Glyph × Written))

/-- The part of a value that is read: all of it, the named entries of a record, or every entry of
an object. A record may stand as the array of its first entries. -/
inductive Selection where
  | whole
  | record (fields : List (String × Selection))
  | entries (each : Selection)

namespace Selection

/-- A record whose fields are read whole. -/
def ofNames (names : List String) : Selection := record (names.map fun name => (name, whole))

def entry? : Selection → String → Option Selection
  | whole, _ => some whole
  | record fields, key => Table.get? fields key
  | entries each, _ => some each

def items : Selection → List Selection
  | record fields => fields.map Prod.snd
  | _ => []

end Selection

namespace Written

def maxNesting : Nat := 127

mutual
/-- The selected part as a value; at most `nesting` containers stand in each other. Every key is
read, also that of an entry that is left out. -/
def read? (nesting : Nat) (selection : Selection) : Written → Option Json
  | null => some .null
  | bool value => some (.bool value)
  | num parts => parts.value.map .num
  | str glyphs => (Glyph.text? glyphs).map .str
  | arr items =>
    match nesting with
    | 0 => none
    | inner + 1 => (readItems? inner selection.items items).map .arr
  | obj entries =>
    match nesting with
    | 0 => none
    | inner + 1 => (readEntries? inner selection entries).map .obj

def readItems? (nesting : Nat) : List Selection → List Written → Option (List Json)
  | _, [] => some []
  | selections, value :: rest => do
    let value ← read? nesting (selections.head?.getD .whole) value
    return value :: (← readItems? nesting selections.tail rest)

def readEntries? (nesting : Nat) (selection : Selection) :
    List (List Glyph × Written) → Option (List (String × Json))
  | [] => some []
  | (glyphs, value) :: rest => do
    let key ← Glyph.text? glyphs
    let rest ← readEntries? nesting selection rest
    match selection.entry? key with
    | some selected => return (key, ← read? nesting selected value) :: rest
    | none => return rest
end

end Written
end SchemaGraph
