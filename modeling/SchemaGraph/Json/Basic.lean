import SchemaGraph.Table
import SchemaGraph.Decimal.Binary64

/- JSON values. Objects keep the order of their keys; equality of values ignores it. -/
namespace SchemaGraph

/-- An integer between `-2 ^ 63` and `2 ^ 64 - 1`, or any other number as a 64-bit float. -/
inductive Number where
  | int (value : Int)
  | float (value : Binary64)
  deriving DecidableEq, Repr

namespace Number

def minInt : Int := -(Nat.pow 2 63 : Nat)

/-- An integer and a float are never equal. -/
def equiv : Number → Number → Bool
  | .int a, .int b => a == b
  | .float a, .float b => a.sameValue b
  | _, _ => false

def isZero : Number → Bool
  | .int value => value == 0
  | .float value => value.isZero

def one : Binary64 := ⟨false, Nat.pow 2 52, -52⟩

def isOne : Number → Bool
  | .int value => value == 1
  | .float value => value == one

end Number

inductive Json where
  | null
  | bool (value : Bool)
  | num (value : Number)
  | str (text : String)
  | arr (items : List Json)
  | obj (entries : List (String × Json))
  deriving Inhabited

namespace Json

def ofNat (n : Nat) : Json := num (.int n)

def entries? : Json → Option (Table Json)
  | obj entries => some entries
  | _ => none

def get? (value : Json) (key : String) : Option Json :=
  value.entries?.bind fun entries => Table.get? entries key

def isNull : Json → Bool
  | null => true
  | _ => false

/-- Only `false`, `null`, a zero and the empty string count as unset. -/
def isTruthy : Json → Bool
  | null => false
  | bool value => value
  | num value => !value.isZero
  | str text => text != ""
  | arr _ => true
  | obj _ => true

mutual
/-- Equality up to the order of keys and the sign of a zero. -/
def equiv : Json → Json → Bool
  | null, null => true
  | bool a, bool b => a == b
  | num a, num b => a.equiv b
  | str a, str b => a == b
  | arr xs, arr ys => equivItems xs ys
  | obj xs, obj ys => xs.length == ys.length && equivEntries xs ys
  | _, _ => false

def equivItems : List Json → List Json → Bool
  | [], [] => true
  | x :: xs, y :: ys => equiv x y && equivItems xs ys
  | _, _ => false

/-- Every entry has an equal one in the other object. -/
def equivEntries : List (String × Json) → List (String × Json) → Bool
  | [], _ => true
  | (key, value) :: rest, others =>
    (match Table.get? others key with
      | some other => equiv value other
      | none => false) && equivEntries rest others
end

mutual
/-- Of two entries with one key the later value stands at the earlier place, at every depth. -/
def mergeKeys : Json → Json
  | arr items => arr (mergeKeysItems items)
  | obj entries => obj (Table.ofList (mergeKeysEntries entries))
  | value => value

def mergeKeysItems : List Json → List Json
  | [] => []
  | value :: rest => mergeKeys value :: mergeKeysItems rest

def mergeKeysEntries : List (String × Json) → List (String × Json)
  | [] => []
  | (key, value) :: rest => (key, mergeKeys value) :: mergeKeysEntries rest
end

end Json
end SchemaGraph
