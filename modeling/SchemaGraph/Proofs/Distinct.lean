import SchemaGraph.Document
import SchemaGraph.Json.Parser

/- Documents as they are read. No key of the text stands twice in the value that is made of it, at
   no depth, so no two definitions have one name. -/
namespace SchemaGraph

theorem of_bind_eq_ok {ε α β : Type} {x : Except ε α} {f : α → Except ε β} {b : β}
    (h : x >>= f = .ok b) : ∃ a, x = .ok a ∧ f a = .ok b := by
  cases x with
  | ok a => exact ⟨a, rfl, h⟩
  | error e => cases h

namespace Table
variable {α : Type}

theorem distinct_ofList (entries : List (String × α)) : (ofList entries).Distinct :=
  List.foldlRecOn (motive := Distinct) entries _ List.nodup_nil fun _ distinct entry _ =>
    distinct_put distinct entry.1 entry.2

theorem put_of_fresh {t : Table α} {k : String} (fresh : k ∉ t.keys) (v : α) :
    t.put k v = t ++ [(k, v)] := by
  induction t with
  | nil => rfl
  | cons entry rest ih =>
    simp only [keys, List.map_cons, List.mem_cons, not_or] at fresh
    rw [put, if_neg (Ne.symm fresh.1), ih fresh.2]
    rfl

theorem mem_of_mem_ofList {entries : List (String × α)} :
    ∀ entry ∈ ofList entries, entry ∈ entries :=
  List.foldlRecOn (motive := fun (t : Table α) => ∀ entry ∈ t, entry ∈ entries) entries _ (by simp)
    fun _ known added listed entry found => by
      rcases mem_of_mem_put found with earlier | rfl
      · exact known entry earlier
      · exact listed

end Table

namespace Json

/-- No object at any depth has a key twice. -/
inductive Merged : Json → Prop where
  | null : Merged null
  | bool (value : Bool) : Merged (bool value)
  | num (value : Number) : Merged (num value)
  | str (text : String) : Merged (str text)
  | arr {items : List Json} (each : ∀ value ∈ items, Merged value) : Merged (arr items)
  | obj {entries : List (String × Json)} (distinct : Table.Distinct entries)
      (each : ∀ entry ∈ entries, Merged entry.2) : Merged (obj entries)

mutual
theorem merged_mergeKeys : ∀ value : Json, value.mergeKeys.Merged
  | null => .null
  | bool value => .bool value
  | num value => .num value
  | str text => .str text
  | arr items => by
    rw [mergeKeys]
    exact .arr (merged_mergeKeysItems items)
  | obj entries => by
    rw [mergeKeys]
    exact .obj (Table.distinct_ofList _) fun entry member =>
      merged_mergeKeysEntries entries entry (Table.mem_of_mem_ofList entry member)

theorem merged_mergeKeysItems : ∀ items : List Json, ∀ value ∈ mergeKeysItems items, value.Merged
  | [] => by simp [mergeKeysItems]
  | first :: rest => by
    rw [mergeKeysItems]
    exact List.forall_mem_cons.mpr ⟨merged_mergeKeys first, merged_mergeKeysItems rest⟩

theorem merged_mergeKeysEntries :
    ∀ entries : List (String × Json), ∀ entry ∈ mergeKeysEntries entries, entry.2.Merged
  | [] => by simp [mergeKeysEntries]
  | (_, value) :: rest => by
    rw [mergeKeysEntries]
    exact List.forall_mem_cons.mpr ⟨merged_mergeKeys value, merged_mergeKeysEntries rest⟩
end

theorem merged_of_parse? {text : String} {value : Json} (parsed : parse? text = some value) :
    value.Merged := by
  obtain ⟨written, _, rfl⟩ := Option.map_eq_some_iff.mp parsed
  exact merged_mergeKeys written

theorem Merged.get? {entries : Table Json} (merged : (Json.obj entries).Merged) {key : String}
    {value : Json} (found : entries.get? key = some value) : value.Merged := by
  cases merged with
  | obj _ each => exact each _ (Table.mem_of_get? found)

end Json

theorem Schema.keys_ofTable {entries : Table Json} {t : Table Schema}
    (read : ofTable entries = .ok t) : t.keys = entries.keys := by
  induction entries generalizing t with
  | nil =>
    rw [ofTable] at read
    cases read
    rfl
  | cons entry rest ih =>
    rw [ofTable] at read
    obtain ⟨s, _, read⟩ := of_bind_eq_ok read
    obtain ⟨later, others, read⟩ := of_bind_eq_ok read
    cases read
    exact congrArg (entry.1 :: ·) (ih others)

theorem Definitions.distinct_of_ofJson {slot : Json} (merged : slot.Merged)
    {definitions : Definitions} (read : ofJson slot = .ok definitions) : definitions.Distinct := by
  cases merged with
  | obj distinct _ =>
    rw [Table.Distinct, Schema.keys_ofTable read]
    exact distinct
  | _ => cases read

namespace Document

theorem merged_of_componentSchemas? {raw components : Table Json} {slot : Json}
    (merged : (Json.obj raw).Merged) (found : componentSchemas? raw = some (components, slot)) :
    slot.Merged := by
  simp only [componentSchemas?, Option.bind_eq_bind, Option.bind_eq_some_iff, Option.pure_def,
    Option.some.injEq, Prod.mk.injEq] at found
  obtain ⟨value, outer, entries, isObject, schemas, inner, rfl, rfl⟩ := found
  cases value with
  | obj _ =>
    cases isObject
    exact (merged.get? outer).get? inner
  | _ => cases isObject

/-- The definitions of a document that was read from a text come from one value in it. -/
theorem slot_of_parse? {text : String} {value : Json} {d : Document}
    (parsed : Json.parse? text = some value) (read : ofJson value = .ok d) :
    d.definitions = [] ∨ ∃ slot, slot.Merged ∧ Definitions.ofJson slot = .ok d.definitions := by
  have merged := Json.merged_of_parse? parsed
  cases value with
  | obj raw =>
    rw [ofJson] at read
    split at read
    · rename_i slot found
      obtain ⟨definitions, lifted, read⟩ := of_bind_eq_ok read
      cases read
      exact Or.inr ⟨slot, merged.get? found, lifted⟩
    · split at read
      · rename_i components slot found
        obtain ⟨definitions, lifted, read⟩ := of_bind_eq_ok read
        cases read
        exact Or.inr ⟨slot, merged_of_componentSchemas? merged found, lifted⟩
      · cases read
        exact Or.inl rfl
  | _ => cases read

/-- The definitions of a document that was read from a text are known by their names. -/
theorem distinct_of_parse? {text : String} {value : Json} {d : Document}
    (parsed : Json.parse? text = some value) (read : ofJson value = .ok d) :
    d.definitions.Distinct := by
  rcases slot_of_parse? parsed read with none | ⟨slot, merged, lifted⟩
  · rw [none]
    exact List.nodup_nil
  · exact Definitions.distinct_of_ofJson merged lifted

end Document
end SchemaGraph
