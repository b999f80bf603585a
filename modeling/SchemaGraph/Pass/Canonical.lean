import SchemaGraph.Options
import SchemaGraph.Pass.Basic

/- The canonical form: no null or temporary keys, one keyword for nullability, no empty properties
   except on objects, and the definitions sorted by name. -/
namespace SchemaGraph.Canonical

/-- Keys that live only while the schemas are generated. -/
def temporaryKeys : List String := ["x-ibm-basic-choice"]

def cleanExtra (extra : Table Json) : Table Json :=
  extra.filter fun (key, value) => !value.isNull && !temporaryKeys.contains key

def cleanXml (x : Xml) : Xml := { x with extra := cleanExtra x.extra }

/-- Moves nullability to the keyword asked for; the keyword that is given up wins. -/
def chooseNullable (v3 : Option Bool) (k : Keywords) : Keywords :=
  match v3 with
  | some true => { k with nullable := k.xNullable.or k.nullable, xNullable := none }
  | some false => { k with xNullable := k.nullable.or k.xNullable, nullable := none }
  | none => k

def after (v3 : Option Bool) (_ : Position) (s : Schema) : Schema :=
  let k := { s.keywords with
    extra := cleanExtra s.keywords.extra
    xml := s.keywords.xml.map cleanXml
    xsiTypeXml := s.keywords.xsiTypeXml.map cleanXml }
  let s : Schema := { s with keywords := chooseNullable v3 k }
  if !s.isObject && s.children.properties.any List.isEmpty then
    { s with children.properties := none }
  else s

def run (options : Options) (d : Document) : Outcome :=
  (d.changeAfter (after options.v3Nullable)).unreported

def sort (d : Document) : Outcome :=
  Document.unreported { d with definitions := d.definitions.sortByKey }

end SchemaGraph.Canonical
