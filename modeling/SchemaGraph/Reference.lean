import SchemaGraph.Pointer
import SchemaGraph.Error

/- References to named schemas: a pointer to a definition, possibly going on into it. -/
namespace SchemaGraph

/-- Where a document keeps its named schemas. -/
inductive Flavor where
  | definitions
  | components
  deriving DecidableEq, Repr

namespace Flavor

def segments : Flavor → List String
  | definitions => ["definitions"]
  | components => ["components", "schemas"]

def root (flavor : Flavor) : String := Pointer.render flavor.segments

def label : Flavor → String
  | definitions => "definitions"
  | components => "components-schemas"

def definitionPointer (flavor : Flavor) (name : String) : String :=
  Pointer.render (flavor.segments ++ [name])

end Flavor

/-- The flavor that the segments start with, and the segments after it. -/
def Flavor.ofSegments? : List String → Option (Flavor × List String)
  | "definitions" :: rest => some (.definitions, rest)
  | "components" :: "schemas" :: rest => some (.components, rest)
  | _ => none

theorem Flavor.ofSegments?_segments (flavor : Flavor) (rest : List String) :
    ofSegments? (flavor.segments ++ rest) = some (flavor, rest) := by
  cases flavor <;> rfl

/-- What a pointer within the document leads to: the place of the named schemas, and the segments
from there. -/
def locate? (raw : String) : Option (Flavor × List String) :=
  match raw.toList with
  | '#' :: '/' :: _ => Flavor.ofSegments? (Pointer.split raw)
  | _ => none

theorem locate?_render (flavor : Flavor) (rest : List String) :
    locate? (Pointer.render (flavor.segments ++ rest)) = some (flavor, rest) := by
  have several : flavor.segments ++ rest ≠ [""] := by cases flavor <;> simp [Flavor.segments]
  have absolute : ∃ cs, (Pointer.render (flavor.segments ++ rest)).toList = '#' :: '/' :: cs := by
    cases flavor <;> exact ⟨_, by simp [Pointer.render, Flavor.segments]; rfl⟩
  obtain ⟨cs, written⟩ := absolute
  simp only [locate?, written]
  rw [Pointer.split_render_of_ne several, Flavor.ofSegments?_segments]

/-- A reference as it was written, with what it is read as: `tail` leads from the definition to the
node meant. -/
structure Reference where
  raw : String
  flavor : Flavor
  name : String
  tail : List String
  located : locate? raw = some (flavor, name :: tail)
  deriving DecidableEq, Repr

namespace Reference

/-- A reference is known by its text. -/
theorem eq_of_raw {a b : Reference} (h : a.raw = b.raw) : a = b := by
  obtain ⟨raw, flavor, name, tail, located⟩ := a
  obtain ⟨raw', flavor', name', tail', located'⟩ := b
  subst h
  have same := located.symm.trans located'
  simp only [Option.some.injEq, Prod.mk.injEq, List.cons.injEq] at same
  obtain ⟨rfl, rfl, rfl⟩ := same
  rfl

/-- Only pointers within the document that name a definition are references. -/
def parse? (raw : String) : Option Reference :=
  match located : locate? raw with
  | some (flavor, name :: tail) =>
    if name = "" then none else some ⟨raw, flavor, name, tail, located⟩
  | _ => none

theorem raw_of_parse? {raw : String} {r : Reference} (h : parse? raw = some r) : r.raw = raw := by
  unfold parse? at h
  split at h
  · split at h
    · simp at h
    · rw [← Option.some.inj h]
  · simp at h

def parse (raw : String) : Except Error Reference :=
  match parse? raw with
  | some reference => .ok reference
  | none => .error (.invalidReference raw)

def ofParts (flavor : Flavor) (name : String) (tail : List String) : Reference :=
  ⟨Pointer.render (flavor.segments ++ name :: tail), flavor, name, tail, locate?_render _ _⟩

def toDefinition (name : String) (flavor : Flavor) : Reference := ofParts flavor name []

/-- The same place in another definition. -/
def renamed (r : Reference) (name : String) : Reference := ofParts r.flavor name r.tail

def withSuffix (r : Reference) (suffix : String) : Reference := r.renamed (r.name ++ suffix)

def IsPlain (r : Reference) : Prop := r.tail = []

instance (r : Reference) : Decidable r.IsPlain := inferInstanceAs (Decidable (_ = _))

end Reference
end SchemaGraph
