import SchemaGraph.Json.Token

/- Reading JSON text: the tokens are folded over a stack of open containers. Nothing but one value
   may stand in the text. -/
namespace SchemaGraph.Written

/-- An open container; items and entries stand in reverse. -/
inductive Frame where
  | list (items : List Written)
  | object (entries : List (List Glyph × Written)) (key : List Glyph)

inductive Expected where
  | value
  | valueOrClose
  | key
  | keyOrClose
  | colon
  | commaOrClose
  | nothing (result : Written)

structure Reader where
  stack : List Frame
  expected : Expected

namespace Reader

def complete (stack : List Frame) (value : Written) : Reader :=
  match stack with
  | [] => ⟨[], .nothing value⟩
  | .list items :: rest => ⟨.list (value :: items) :: rest, .commaOrClose⟩
  | .object entries key :: rest => ⟨.object ((key, value) :: entries) key :: rest, .commaOrClose⟩

def startValue (stack : List Frame) : Token → Option Reader
  | .openObject => some ⟨.object [] [] :: stack, .keyOrClose⟩
  | .openArray => some ⟨.list [] :: stack, .valueOrClose⟩
  | .text glyphs => some (complete stack (.str glyphs))
  | .scalar value => some (complete stack value)
  | _ => none

def takeKey : List Frame → List Glyph → Option Reader
  | .object entries _ :: rest, key => some ⟨.object entries key :: rest, .colon⟩
  | _, _ => none

def close : List Frame → Token → Option Reader
  | .list items :: rest, .closeArray => some (complete rest (.arr items.reverse))
  | .object entries _ :: rest, .closeObject => some (complete rest (.obj entries.reverse))
  | _, _ => none

def afterComma : List Frame → Option Reader
  | .list items :: rest => some ⟨.list items :: rest, .value⟩
  | .object entries key :: rest => some ⟨.object entries key :: rest, .key⟩
  | [] => none

def step (r : Reader) (token : Token) : Option Reader :=
  match r.expected, token with
  | .value, token => startValue r.stack token
  | .valueOrClose, .closeArray => close r.stack .closeArray
  | .valueOrClose, token => startValue r.stack token
  | .keyOrClose, .closeObject => close r.stack .closeObject
  | .key, .text key => takeKey r.stack key
  | .keyOrClose, .text key => takeKey r.stack key
  | .colon, .colon => some { r with expected := .value }
  | .commaOrClose, .comma => afterComma r.stack
  | .commaOrClose, token => close r.stack token
  | _, _ => none

end Reader

def parse? (text : String) : Option Written := do
  let tokens ← Token.scan? text.toList
  let last ← tokens.foldlM Reader.step ⟨[], .value⟩
  match last.expected with
  | .nothing result => some result
  | _ => none

end SchemaGraph.Written

namespace SchemaGraph.Json

/-- Reads the selected part of a text and keeps entries with one key apart. -/
def parseEntries? (selection : Selection) (text : String) : Option Json :=
  (Written.parse? text).bind (Written.read? Written.maxNesting selection)

def parse? (text : String) : Option Json := (parseEntries? .whole text).map mergeKeys

end SchemaGraph.Json
