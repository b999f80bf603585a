import SchemaGraph.Error
import SchemaGraph.Reference

/- Reading typed values from JSON. Nothing is coerced; `null` stands for an absent optional
   value. -/
namespace SchemaGraph.Json

def readText : Json → Except Fault String
  | str value => .ok value
  | _ => .error .malformed

def readFlag : Json → Except Fault Bool
  | bool value => .ok value
  | _ => .error .malformed

/-- An integer that is not negative. -/
def readNat : Json → Except Fault Nat
  | num (.int value) => if 0 ≤ value then .ok value.toNat else .error .malformed
  | _ => .error .malformed

def readAny (value : Json) : Except Fault Json := .ok value

def readList {α : Type} (read : Json → Except Fault α) : Json → Except Fault (List α)
  | arr items => items.mapM read
  | _ => .error .malformed

def readTable {α : Type} (read : Json → Except Fault α) : Json → Except Fault (Table α)
  | obj entries => entries.mapM fun (key, value) => do return (key, ← read value)
  | _ => .error .malformed

def readOption {α : Type} (read : Json → Except Fault α) : Json → Except Fault (Option α)
  | null => .ok none
  | value => (read value).map some

/-- The field of an object, absent when there is no such key. -/
def field? {α : Type} (read : Json → Except Fault α) (entries : Table Json) (key : String) :
    Except Fault (Option α) :=
  match entries.get? key with
  | some value => readOption read value
  | none => .ok none

/-- A field that is not nullable but may be missing. -/
def fieldD {α : Type} (read : Json → Except Fault α) (entries : Table Json) (key : String)
    (missing : α) : Except Fault α :=
  match entries.get? key with
  | some value => read value
  | none => .ok missing

/-- The keys that are not named, sorted. -/
def others (entries : Table Json) (named : List String) : Table Json :=
  entries.foldl (fun t (key, value) => if named.contains key then t else t.putSorted key value) []

/-- A record is an object that has no named field twice, or the array of its first fields in
order. -/
def record (names : List String) : Json → Except Fault (Table Json)
  | obj entries =>
    if names.all fun name => (Table.keys entries).count name ≤ 1 then .ok entries
    else .error .malformed
  | arr items => if items.length ≤ names.length then .ok (names.zip items) else .error .malformed
  | _ => .error .malformed

def readReference : Json → Except Fault Reference
  | str raw =>
    match Reference.parse? raw with
    | some r => .ok r
    | none => .error (.reference raw)
  | _ => .error .malformed

/-- The record whose only field is a reference. -/
def readReferenceRecord : Json → Except Fault Reference
  | obj entries =>
    match Table.get? entries "$ref" with
    | some value => readReference value
    | none => .error .malformed
  | arr (value :: rest) => do
    let r ← readReference value
    if rest.isEmpty then .ok r else .error .malformed
  | _ => .error .malformed

/-- The entry of an optional value: none when the value is absent. -/
def present {α : Type} (key : String) (value : Option α) (write : α → Json) : Table Json :=
  match value with
  | some v => [(key, write v)]
  | none => []

def ofReferenceRecord (r : Reference) : Json := obj [("$ref", str r.raw)]

def ofStrings (list : List String) : Json := arr (list.map str)

end SchemaGraph.Json
