import Mathlib
import SchemaGraph.CommandLine.Folder
import SchemaGraph.CommandLine.Run
import SchemaGraph.Proofs.Runs
import SchemaGraph.Proofs.Storable

/- Saving and loading again. What passes make of a loaded document is saved as a value that loads as
   the same document, so `verify` accepts what a full run accepted where the saved text is read as
   the value that was saved. A text is not read at all where more than 127 containers stand in each
   other, and a full run can move a value that deep. -/
namespace SchemaGraph

namespace Document

/-- What runs of passes make of a document, also of passes that fail or that nobody knows. -/
inductive Reached (d : Document) : Document → Prop where
  | start : Reached d d
  | pass {before : Document} (reached : Reached d before) (dictionary : Dictionary)
      (options : Options) (name : String) :
      Reached d (Pass.runNamed dictionary options before name).1

variable {d : Document}

theorem Storable.runNamed (h : d.Storable) (dictionary : Dictionary) (options : Options)
    (name : String) : (Pass.runNamed dictionary options d name).1.Storable := by
  rw [Pass.runNamed]
  split
  · exact Pass.storable_run dictionary options h _
  · exact h

theorem Reached.storable {left : Document} (reached : d.Reached left) (h : d.Storable) :
    left.Storable := by
  induction reached with
  | start => exact h
  | pass _ dictionary options name ih => exact ih.runNamed dictionary options name

theorem Reached.leave (dictionary : Dictionary) (options : Options) (passes : List Pass)
    {left : Document} (reached : d.Reached left) :
    d.Reached (Pass.leave dictionary options passes left) := by
  refine List.foldlRecOn (motive := d.Reached) passes _ reached fun left reached pass _ => ?_
  have next := reached.pass dictionary options pass.name
  rwa [Pass.runNamed_name] at next

end Document

namespace CommandLine

section
variable {α β : Type} {x : ExceptT Failure (StateM Folder) α} {folder left : Folder}

end

section
variable {folder : Folder} {path text : String} (present : folder.content path = .text text)
include present

end

end CommandLine

namespace Document
open CommandLine

/-- A flag with a default. -/
def flagged (default : Json) : Document where
  raw := [("definitions", .null)]
  flavor := .definitions
  hasSlot := true
  definitions := [("Security", { keywords := { type := some "boolean", default := some default } })]

end Document

namespace Json

mutual
/-- The characters of the compact text. -/
def characters : Json → List Char
  | arr items => '[' :: itemCharacters true items ++ [']']
  | obj entries => '\x7b' :: entryCharacters true entries ++ ['\x7d']
  | value => value.scalarText.toList

def itemCharacters (isFirst : Bool) : List Json → List Char
  | [] => []
  | value :: rest =>
    (if isFirst then [] else [',']) ++ value.characters ++ itemCharacters false rest

def entryCharacters (isFirst : Bool) : List (String × Json) → List Char
  | [] => []
  | (key, value) :: rest =>
    (if isFirst then [] else [',']) ++ (quote key).toList ++ ':' :: value.characters ++
      entryCharacters false rest
end

mutual
theorem toList_compactOnto (out : String) :
    (value : Json) → (compactOnto out value).toList = out.toList ++ value.characters
  | arr items => by simp [compactOnto, characters, toList_compactItemsOnto _ _ items]
  | obj entries => by simp [compactOnto, characters, toList_compactEntriesOnto _ _ entries]
  | null => by simp [compactOnto, characters]
  | bool _ => by simp [compactOnto, characters]
  | num _ => by simp [compactOnto, characters]
  | str _ => by simp [compactOnto, characters]

theorem toList_compactItemsOnto (out : String) (isFirst : Bool) :
    (items : List Json) →
      (compactItemsOnto out isFirst items).toList = out.toList ++ itemCharacters isFirst items
  | [] => by simp [compactItemsOnto, itemCharacters]
  | value :: rest => by
    rw [compactItemsOnto, toList_compactItemsOnto _ _ rest, toList_compactOnto _ value,
      itemCharacters]
    cases isFirst <;> simp

theorem toList_compactEntriesOnto (out : String) (isFirst : Bool) :
    (entries : List (String × Json)) → (compactEntriesOnto out isFirst entries).toList =
      out.toList ++ entryCharacters isFirst entries
  | [] => by simp [compactEntriesOnto, entryCharacters]
  | (key, value) :: rest => by
    rw [compactEntriesOnto, toList_compactEntriesOnto _ _ rest, toList_compactOnto _ value,
      entryCharacters]
    cases isFirst <;> simp
end

/-- A null in so many arrays. -/
def nested : Nat → Json
  | 0 => null
  | n + 1 => arr [nested n]

end Json

namespace Document
open CommandLine

def typed (name : String) : Schema :=
  { keywords := { typeOf := some (.toDefinition name .definitions) } }

def holding (s : Schema) : Schema := { children := { properties := some [("p", s)] } }

end Document
end SchemaGraph
