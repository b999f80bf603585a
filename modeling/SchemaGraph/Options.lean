import SchemaGraph.Json.Reading
import SchemaGraph.Json.Written

/- What a caller can choose about a run. -/
namespace SchemaGraph

structure Options where
  /-- Pruning keeps every definition with an XML name, referenced or not. -/
  keepRootElements : Bool := false
  /-- XML annotations are removed where nobody reads them. -/
  pureXml : Bool := true
  /-- The keyword for nullability: `nullable` when true, `x-nullable` when false, as it is when
  absent. -/
  v3Nullable : Option Bool := none
  /-- The length at which chains of bases, of shapes and of inlined references count as cyclic. -/
  maxDepth : Nat := 64
  deriving DecidableEq, Repr

namespace Options
open Json (readFlag readNat fieldD field?)

def names : List String := ["keep-root-elements", "pure-xml", "v3-nullable", "max-depth"]

/-- What is read of the options. -/
def selection : Selection := .ofNames names

def ofJson (value : Json) : Except Fault Options := do
  let fields ← value.record names
  let missing : Options := {}
  return {
    keepRootElements := ← fieldD readFlag fields "keep-root-elements" missing.keepRootElements
    pureXml := ← fieldD readFlag fields "pure-xml" missing.pureXml
    v3Nullable := ← field? readFlag fields "v3-nullable"
    maxDepth := ← fieldD readNat fields "max-depth" missing.maxDepth }

def toJson (o : Options) : Json :=
  .obj [("keep-root-elements", .bool o.keepRootElements), ("pure-xml", .bool o.pureXml),
    ("v3-nullable", (o.v3Nullable.map .bool).getD .null), ("max-depth", .ofNat o.maxDepth)]

end Options
end SchemaGraph
