import SchemaGraph.Json.Written

/- Tokens of a JSON text. The scanner is one step function on a mode, folded over the characters:
   between tokens, inside a word, or inside a string with its escapes. -/
namespace SchemaGraph

inductive Token where
  | openObject
  | closeObject
  | openArray
  | closeArray
  | colon
  | comma
  | text (glyphs : List Glyph)
  | scalar (value : Written)

namespace Token

/-- What is gathered stands in reverse. Of an escape by its unit, `left` digits are to come. -/
inductive Mode where
  | between
  | word (gathered : List Char)
  | text (gathered : List Glyph)
  | escape (gathered : List Glyph)
  | unit (gathered : List Glyph) (value : Nat) (left : Nat)

structure Scanner where
  mode : Mode
  /-- The tokens so far, in reverse. -/
  tokens : List Token

def isBlank (c : Char) : Bool := c == ' ' || c == '\n' || c == '\t' || c == '\r'

def ofPunctuation? : Char → Option Token
  | '{' => some openObject
  | '}' => some closeObject
  | '[' => some openArray
  | ']' => some closeArray
  | ':' => some colon
  | ',' => some comma
  | _ => none

def ofWord? (word : List Char) : Option Token :=
  if word = "null".toList then some (scalar .null)
  else if word = "true".toList then some (scalar (.bool true))
  else if word = "false".toList then some (scalar (.bool false))
  else (Number.partsOf? word).map fun parts => scalar (.num parts)

def hexValue? (c : Char) : Option Nat :=
  if '0' ≤ c ∧ c ≤ '9' then some (c.toNat - '0'.toNat)
  else if 'a' ≤ c ∧ c ≤ 'f' then some (c.toNat - 'a'.toNat + 10)
  else if 'A' ≤ c ∧ c ≤ 'F' then some (c.toNat - 'A'.toNat + 10)
  else none

def escaped? : Char → Option Char
  | '"' => some '"'
  | '\\' => some '\\'
  | '/' => some '/'
  | 'b' => some '\x08'
  | 'f' => some '\x0c'
  | 'n' => some '\n'
  | 'r' => some '\r'
  | 't' => some '\t'
  | _ => none

/-- A character that stands between tokens or starts one. -/
def startWith (tokens : List Token) (c : Char) : Scanner :=
  if isBlank c then ⟨.between, tokens⟩
  else if c = '"' then ⟨.text [], tokens⟩
  else match ofPunctuation? c with
    | some token => ⟨.between, token :: tokens⟩
    | none => ⟨.word [c], tokens⟩

def endsWord (c : Char) : Bool := isBlank c || c == '"' || (ofPunctuation? c).isSome

def step (s : Scanner) (c : Char) : Option Scanner :=
  match s.mode with
  | .between => some (startWith s.tokens c)
  | .word gathered =>
    if endsWord c then (ofWord? gathered.reverse).map fun token => startWith (token :: s.tokens) c
    else some { s with mode := .word (c :: gathered) }
  | .text gathered =>
    if c = '"' then some ⟨.between, text gathered.reverse :: s.tokens⟩
    else if c = '\\' then some { s with mode := .escape gathered }
    else if c.toNat < 0x20 then none
    else some { s with mode := .text (.char c :: gathered) }
  | .escape gathered =>
    if c = 'u' then some { s with mode := .unit gathered 0 4 }
    else (escaped? c).map fun e => { s with mode := .text (.char e :: gathered) }
  | .unit gathered value left => do
    let value := value * 16 + (← hexValue? c)
    if left = 1 then return { s with mode := .text (.unit value :: gathered) }
    else return { s with mode := .unit gathered value (left - 1) }

/-- The tokens of a text; an unfinished string is refused. -/
def scan? (cs : List Char) : Option (List Token) := do
  let last ← cs.foldlM step ⟨.between, []⟩
  match last.mode with
  | .between => return last.tokens.reverse
  | .word gathered => return ((← ofWord? gathered.reverse) :: last.tokens).reverse
  | _ => none

end Token
end SchemaGraph
