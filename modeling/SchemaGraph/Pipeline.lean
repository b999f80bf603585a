import SchemaGraph.Integrity
import SchemaGraph.Pass.AnyOf
import SchemaGraph.Pass.Attributes
import SchemaGraph.Pass.Canonical
import SchemaGraph.Pass.Choice
import SchemaGraph.Pass.Defaults
import SchemaGraph.Pass.HierarchyCopies
import SchemaGraph.Pass.NilSplit
import SchemaGraph.Pass.Pruning
import SchemaGraph.Pass.Repetition
import SchemaGraph.Pass.Restriction
import SchemaGraph.Pass.Squash
import SchemaGraph.Pass.TypeExpansion
import SchemaGraph.Pass.Typedefs
import SchemaGraph.Pass.XmlHints

/- The passes by name, and the run of all of them in order. -/
namespace SchemaGraph

inductive Pass where
  | copyHierarchies
  | splitNillable
  | expandTypes
  | restrict
  | squash
  | collapseAnyOf
  | relaxChoices
  | foldRepetition
  | typeDefaults
  | prune
  | cleanTypedefs
  | inlineAttributes
  | placeXmlHints
  | dropEmptyQualifiers
  | canonicalize
  | sort
  deriving DecidableEq, Repr

namespace Pass

def name : Pass → String
  | copyHierarchies => "duplicate_poly_hierarchy"
  | splitNillable => "fixup_nil_and_non_nil"
  | expandTypes => "expand_type_ofs"
  | restrict => "process_complex_content_restriction"
  | squash => "squash_all_ofs"
  | collapseAnyOf => "remove_any_ofs"
  | relaxChoices => "remove_one_ofs"
  | foldRepetition => "remove_unnamed_occurrence"
  | typeDefaults => "adjust_defaults"
  | prune => "remove_unreferenced_definitions"
  | cleanTypedefs => "cleanup_definitions"
  | inlineAttributes => "inline_attributes"
  | placeXmlHints => "c14n_xml_objects"
  | dropEmptyQualifiers => "remove_redundant_prefixes"
  | canonicalize => "c14n_xso"
  | sort => "sort_definitions"

/-- The order of a full run. Folding repetition leaves nested wrappers, which are squashed again. -/
def sequence : List Pass :=
  [copyHierarchies, splitNillable, expandTypes, restrict, squash, collapseAnyOf, relaxChoices,
    foldRepetition, squash, typeDefaults, prune, cleanTypedefs, inlineAttributes, placeXmlHints,
    dropEmptyQualifiers, canonicalize, sort]

def ofName? (name : String) : Option Pass := sequence.find? fun pass => pass.name == name

def run (dictionary : Dictionary) (options : Options) (d : Document) : Pass → Outcome
  | copyHierarchies => HierarchyCopies.run dictionary options d
  | splitNillable => NilSplit.run options d
  | expandTypes => TypeExpansion.run dictionary options d
  | restrict => Restriction.run options d
  | squash => Squash.run d
  | collapseAnyOf => AnyOf.run d
  | relaxChoices => Choice.run d
  | foldRepetition => Repetition.run d
  | typeDefaults => Defaults.run options d
  | prune => Pruning.run options d
  | cleanTypedefs => Typedefs.run d
  | inlineAttributes => Attributes.run d
  | placeXmlHints => XmlHints.run options.pureXml d
  | dropEmptyQualifiers => XmlHints.dropEmptyQualifiers d
  | canonicalize => Canonical.run options d
  | sort => Canonical.sort d

def runNamed (dictionary : Dictionary) (options : Options) (d : Document) (name : String) :
    Outcome :=
  match ofName? name with
  | some pass => pass.run dictionary options d
  | none => (d, .error (.unexpectedTransform name "no such pass"))

/-- Runs passes until one fails, adding up their reports. -/
def runAll (dictionary : Dictionary) (options : Options) :
    List Pass → Report → Document → Outcome
  | [], report, d => (d, .ok report)
  | pass :: rest, report, d =>
    match pass.run dictionary options d with
    | (d, .ok own) => runAll dictionary options rest (report ++ own) d
    | (d, .error e) => (d, .error e)

end Pass

/-- Runs all passes, then checks that every reference means something. -/
def Document.normalize (dictionary : Dictionary) (options : Options) (d : Document) : Outcome :=
  match Pass.runAll dictionary options Pass.sequence {} d with
  | (d, .ok report) => (d, d.verify.map fun _ => report)
  | failed => failed

end SchemaGraph
