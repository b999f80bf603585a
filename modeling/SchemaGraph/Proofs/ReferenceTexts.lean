import SchemaGraph.Proofs.Pointing
import SchemaGraph.Proofs.PointerTexts
import SchemaGraph.Proofs.Renaming

/- References as texts. A text is a reference exactly if it begins with one of the two openings and
   goes on with a name, which is neither missing nor empty; and a reference that is put together from
   such a name and a tail, whatever characters they have, is read from its text as it was made. -/
namespace SchemaGraph

namespace Flavor

/-- What stands in front of the name. -/
def opening : Flavor → String
  | definitions => "#/definitions/"
  | components => "#/components/schemas/"

/-- The segments go on after those of the flavor where the text goes on after the opening. -/
theorem segmentsOf_iff (flavor : Flavor) {cs : List Char} {name : String} {tail : List String} :
    Pointer.segmentsOf cs = flavor.segments ++ name :: tail ↔
      ∃ rest, '#' :: '/' :: cs = flavor.opening.toList ++ rest ∧
        Pointer.segmentsOf rest = name :: tail := by
  cases flavor with
  | definitions =>
    rw [segments, List.singleton_append, Pointer.segmentsOf_eq_word_cons (by decide)]
    simp [opening]
  | components =>
    rw [segments, List.cons_append, List.singleton_append,
      Pointer.segmentsOf_eq_word_cons (by decide)]
    have plain : '~' ∉ "schemas".toList ∧ '/' ∉ "schemas".toList := by decide
    simp [opening, Pointer.segmentsOf_eq_word_cons plain]

end Flavor

/-- A place below the named schemas is read off what follows the opening. -/
theorem locate?_eq_some_iff {raw : String} {flavor : Flavor} {name : String} {tail : List String} :
    locate? raw = some (flavor, name :: tail) ↔
      ∃ text, raw = flavor.opening ++ text ∧ Pointer.segmentsOf text.toList = name :: tail := by
  have nonempty : flavor.segments ++ name :: tail ≠ [] := by simp
  have filled : flavor.segments ++ name :: tail ≠ [""] := by cases flavor <;> simp [Flavor.segments]
  constructor
  · intro located
    unfold locate? at located
    split at located
    · rename_i cs written
      have segments := Flavor.segments_of_ofSegments? located
      rw [Pointer.split_eq_iff_segmentsOf written nonempty filled, flavor.segmentsOf_iff] at segments
      obtain ⟨rest, opened, later⟩ := segments
      refine ⟨String.ofList rest, ?_, by rw [String.toList_ofList, later]⟩
      rw [← String.toList_inj, String.toList_append, String.toList_ofList, written, opened]
    · cases located
  · rintro ⟨text, rfl, later⟩
    obtain ⟨cs, opened⟩ : ∃ cs, flavor.opening.toList = '#' :: '/' :: cs := by
      cases flavor <;> exact ⟨_, rfl⟩
    have written : (flavor.opening ++ text).toList = '#' :: '/' :: (cs ++ text.toList) := by
      rw [String.toList_append, opened]
      rfl
    have segments : Pointer.segmentsOf (cs ++ text.toList) = flavor.segments ++ name :: tail :=
      flavor.segmentsOf_iff.mpr ⟨text.toList, by rw [opened]; rfl, later⟩
    rw [← Pointer.split_eq_iff_segmentsOf written nonempty filled] at segments
    simp only [locate?, written]
    rw [segments, Flavor.ofSegments?_segments]

namespace Reference

theorem parse_eq_ok_iff {raw : String} {r : Reference} :
    parse raw = .ok r ↔ parse? raw = some r := by
  rw [parse]
  cases parse? raw <;> simp

/-- Reading succeeds where a name follows an opening. -/
theorem exists_parse_iff (raw : String) : (∃ r, parse raw = .ok r) ↔
    ∃ flavor text, raw = Flavor.opening flavor ++ text ∧ text ≠ "" ∧
      text.toList.head? ≠ some '/' := by
  constructor
  · rintro ⟨r, parsed⟩
    have read := parse_eq_ok_iff.mp parsed
    obtain ⟨text, opened, segments⟩ := locate?_eq_some_iff.mp r.located
    obtain ⟨name, tail, split, empty⟩ := Pointer.exists_segmentsOf_eq_cons text.toList
    obtain ⟨same, _⟩ := List.cons.inj (segments.symm.trans split)
    have named := mt empty.mpr (same ▸ name_ne_of_parse? read)
    rw [not_or, String.toList_eq_nil_iff] at named
    exact ⟨r.flavor, text, raw_of_parse? read ▸ opened, named.1, named.2⟩
  · rintro ⟨flavor, text, rfl, filled, noSlash⟩
    obtain ⟨name, tail, split, empty⟩ := Pointer.exists_segmentsOf_eq_cons text.toList
    have named : name ≠ "" := by
      rw [ne_eq, empty, not_or, String.toList_eq_nil_iff]
      exact ⟨filled, noSlash⟩
    let r : Reference := ⟨_, flavor, name, tail, locate?_eq_some_iff.mpr ⟨text, rfl, split⟩⟩
    exact ⟨r, parse_eq_ok_iff.mpr (parse?_raw (r := r) named)⟩

/-- The reference has these parts, and its text is read as this reference. -/
structure IsReadBack (r : Reference) (flavor : Flavor) (name : String) (tail : List String) :
    Prop where
  flavor_eq : r.flavor = flavor
  name_eq : r.name = name
  tail_eq : r.tail = tail
  read : parse r.raw = .ok r

theorem isReadBack_ofParts (flavor : Flavor) {name : String} (named : name ≠ "")
    (tail : List String) : (ofParts flavor name tail).IsReadBack flavor name tail where
  flavor_eq := rfl
  name_eq := rfl
  tail_eq := rfl
  read := parse_eq_ok_iff.mpr (parse?_raw named)

/-- Those texts are read as references in which one of the openings is followed by a text that is not
empty and does not begin with a slash. Such a reference keeps its text; what it becomes under another
name or with a suffix is read back with its flavor and its tail, and so is a reference made to a
definition; of two renamings only the last one counts. -/
theorem renamed_read_back :
    (∀ raw, (∃ r, parse raw = .ok r) ↔ ∃ text,
      (raw = "#/definitions/" ++ text ∨ raw = "#/components/schemas/" ++ text) ∧
      text ≠ "" ∧ text.toList.head? ≠ some '/') ∧
    (∀ raw r, parse raw = .ok r → r.raw = raw ∧
      (∀ name, name ≠ "" → (r.renamed name).IsReadBack r.flavor name r.tail) ∧
      (∀ suffix, (r.withSuffix suffix).IsReadBack r.flavor (r.name ++ suffix) r.tail) ∧
      ∀ first last, (r.renamed first).renamed last = r.renamed last) ∧
    ∀ name flavor, name ≠ "" → (toDefinition name flavor).IsReadBack flavor name [] := by
  refine ⟨fun raw => ?_, fun raw r parsed =>
      ⟨raw_of_parse? (parse_eq_ok_iff.mp parsed), fun name named => ?_, fun suffix => ?_,
        fun first last => rfl⟩,
    fun name flavor named => isReadBack_ofParts flavor named []⟩
  · rw [exists_parse_iff]
    constructor
    · rintro ⟨flavor | _, text, opened, named⟩
      · exact ⟨text, .inl opened, named⟩
      · exact ⟨text, .inr opened, named⟩
    · rintro ⟨text, opened | opened, named⟩
      · exact ⟨.definitions, text, opened, named⟩
      · exact ⟨.components, text, opened, named⟩
  · exact isReadBack_ofParts r.flavor named r.tail
  · have named : r.name ++ suffix ≠ "" := fun empty =>
      name_ne_of_parse? (parse_eq_ok_iff.mp parsed) (String.append_eq_empty_iff.mp empty).1
    exact isReadBack_ofParts r.flavor named r.tail

/-- The name has a '~' that escapes nothing, and the tail an empty segment and an escaped '~'. -/
def irregular : Reference where
  raw := "#/definitions/a~2b//~01"
  flavor := .definitions
  name := "a~2b"
  tail := ["", "~1"]
  located := by decide

theorem renamed_read_back_irregular :
    parse "#/definitions/a~2b//~01" = .ok irregular ∧
    (irregular.renamed "~/").IsReadBack .definitions "~/" ["", "~1"] ∧
    (irregular.renamed "~/").raw = "#/definitions/~0~1//~01" ∧
    (toDefinition "#" .components).IsReadBack .components "#" [] := by
  obtain ⟨_, renamed, made⟩ := renamed_read_back
  have parsed : parse irregular.raw = .ok irregular := parse_eq_ok_iff.mpr (parse?_raw (by decide))
  exact ⟨parsed, (renamed _ _ parsed).2.1 "~/" (by decide), by decide,
    made "#" .components (by decide)⟩

end Reference
end SchemaGraph
