import SchemaGraph.Proofs.Distinct
import SchemaGraph.Proofs.Each

/- Schemas whose properties are known by their names, at every depth. Every schema that is read from
   a text is one. -/
namespace SchemaGraph

theorem of_map_eq_ok {ε α β : Type} {x : Except ε α} {f : α → β} {b : β}
    (h : x.map f = .ok b) : ∃ a, x = .ok a ∧ f a = b := by
  cases x with
  | ok a => exact ⟨a, rfl, Except.ok.inj h⟩
  | error e => cases h

namespace Schema

/-- No node has two properties of one name. -/
def keyed : Schema → Bool :=
  fold fun _ c => decide (Table.Distinct (c.properties.getD [])) && c.toList.all id

theorem keyed_mk_iff (k : Keywords) (c : Children Schema) :
    keyed ⟨k, c⟩ ↔ Table.Distinct (c.properties.getD []) ∧ c.Each fun s => s.keyed := by
  have sameKeys : Table.Distinct ((c.map keyed).properties.getD []) ↔
      Table.Distinct (c.properties.getD []) := by
    rw [Children.map]
    cases c.properties with
    | none => rfl
    | some t => rw [Table.Distinct, Option.map_some, Option.getD_some, Table.keys_mapValues]; rfl
  rw [keyed, fold_mk, ← keyed, Children.each_iff]
  simp [sameKeys, Children.toList_map]

theorem keyed_iff (s : Schema) : s.keyed ↔
    Table.Distinct (s.children.properties.getD []) ∧ s.children.Each fun s => s.keyed := by
  obtain ⟨k, c⟩ := s
  exact keyed_mk_iff k c

theorem keyed_empty : keyed {} := (keyed_mk_iff _ _).mpr ⟨List.nodup_nil, Children.each_empty _⟩

end Schema

theorem Json.Merged.entries {entries : List (String × Json)} (merged : (Json.obj entries).Merged) :
    Table.Distinct entries ∧ ∀ entry ∈ entries, entry.2.Merged := by
  cases merged with
  | obj distinct each => exact ⟨distinct, each⟩

theorem Json.Merged.items {items : List Json} (merged : (Json.arr items).Merged) :
    ∀ value ∈ items, value.Merged := by
  cases merged with
  | arr each => exact each

namespace Schema

mutual
theorem keyed_of_ofJson : ∀ (value : Json) (s : Schema), value.Merged → ofJson value = .ok s →
    s.keyed
  | .obj entries, s, merged, read => by
    rw [ofJson] at read
    exact keyed_of_ofEntries entries {} s keyed_empty merged.entries.2 read
  | .null, _, _, read | .bool _, _, _, read | .num _, _, _, read | .str _, _, _, read
  | .arr _, _, _, read => by simp [ofJson] at read

/-- A keyword that holds schemas puts them in the place of those that were there. -/
theorem keyed_of_ofEntries : ∀ (entries : List (String × Json)) (start s : Schema), start.keyed →
    (∀ entry ∈ entries, entry.2.Merged) → ofEntries start entries = .ok s → s.keyed
  | [], start, s, keyed, _, read => by
    rw [ofEntries] at read
    cases read
    exact keyed
  | (key, value) :: rest, start, s, keyed, merged, read => by
    obtain ⟨mergedValue, mergedRest⟩ := List.forall_mem_cons.mp merged
    obtain ⟨distinct, each⟩ := start.keyed_iff.mp keyed
    have later (next : Schema) (distinct : Table.Distinct (next.children.properties.getD []))
        (each : next.children.Each fun s => s.keyed) (read : ofEntries next rest = .ok s) : s.keyed :=
      keyed_of_ofEntries rest next s (next.keyed_iff.mpr ⟨distinct, each⟩) mergedRest read
    unfold ofEntries at read
    split at read
    · obtain ⟨v, child, read⟩ := of_bind_eq_ok read
      have here := keyed_of_ofOptional value v mergedValue child
      exact later { start with children.not := v } distinct { each with not := here } read
    · obtain ⟨v, child, read⟩ := of_bind_eq_ok read
      have here := keyed_of_ofOptional value v mergedValue child
      exact later { start with children.items := v } distinct { each with items := here } read
    · obtain ⟨v, table, read⟩ := of_bind_eq_ok read
      obtain ⟨distinct, here⟩ := keyed_of_ofTable? value v mergedValue table
      exact later { start with children.properties := v } distinct { each with properties := here }
        read
    · obtain ⟨v, list, read⟩ := of_bind_eq_ok read
      have here := keyed_of_ofList? value v mergedValue list
      exact later { start with children.allOf := v } distinct { each with allOf := here } read
    · obtain ⟨v, list, read⟩ := of_bind_eq_ok read
      have here := keyed_of_ofList? value v mergedValue list
      exact later { start with children.oneOf := v } distinct { each with oneOf := here } read
    · obtain ⟨v, list, read⟩ := of_bind_eq_ok read
      have here := keyed_of_ofList? value v mergedValue list
      exact later { start with children.anyOf := v } distinct { each with anyOf := here } read
    · obtain ⟨v, child, read⟩ := of_bind_eq_ok read
      have here := keyed_of_ofAdditional value v mergedValue child
      exact later { start with children.additional := v } distinct { each with additional := here }
        read
    · obtain ⟨keywords?, _, read⟩ := of_bind_eq_ok read
      split at read
      · exact later ⟨_, start.children⟩ distinct each read
      · exact later ⟨_, start.children⟩ distinct each read

theorem keyed_of_ofOptional : ∀ (value : Json) (v : Option Schema), value.Merged →
    ofOptional value = .ok v → ∀ s, v = some s → s.keyed
  | .null, v, _, read => by
    rw [ofOptional] at read
    cases read
    simp
  | .obj entries, v, merged, read => by
    rw [ofOptional] at read
    obtain ⟨s, child, rfl⟩ := of_map_eq_ok read
    exact forall_eq_some (keyed_of_ofEntries entries {} s keyed_empty merged.entries.2 child)
  | .bool _, _, _, read | .num _, _, _, read | .str _, _, _, read | .arr _, _, _, read => by
    simp [ofOptional] at read

theorem keyed_of_ofList? : ∀ (value : Json) (v : Option (List Schema)), value.Merged →
    ofList? value = .ok v → ∀ l, v = some l → ∀ s ∈ l, s.keyed
  | .null, v, _, read => by
    rw [ofList?] at read
    cases read
    simp
  | .arr items, v, merged, read => by
    rw [ofList?] at read
    obtain ⟨l, list, rfl⟩ := of_map_eq_ok read
    exact forall_eq_some (keyed_of_ofList items l merged.items list)
  | .bool _, _, _, read | .num _, _, _, read | .str _, _, _, read | .obj _, _, _, read => by
    simp [ofList?] at read

theorem keyed_of_ofList : ∀ (items : List Json) (l : List Schema), (∀ value ∈ items, value.Merged) →
    ofList items = .ok l → ∀ s ∈ l, s.keyed
  | [], l, _, read => by
    rw [ofList] at read
    cases read
    simp
  | value :: rest, l, merged, read => by
    obtain ⟨mergedValue, mergedRest⟩ := List.forall_mem_cons.mp merged
    rw [ofList] at read
    obtain ⟨s, first, read⟩ := of_bind_eq_ok read
    obtain ⟨more, later, read⟩ := of_bind_eq_ok read
    cases read
    exact List.forall_mem_cons.mpr ⟨keyed_of_ofJson value s mergedValue first,
      keyed_of_ofList rest more mergedRest later⟩

theorem keyed_of_ofTable? : ∀ (value : Json) (v : Option (List (String × Schema))), value.Merged →
    ofTable? value = .ok v →
      Table.Distinct (v.getD []) ∧ ∀ t, v = some t → ∀ e ∈ t, e.2.keyed
  | .null, v, _, read => by
    rw [ofTable?] at read
    cases read
    exact ⟨List.nodup_nil, by simp⟩
  | .obj entries, v, merged, read => by
    rw [ofTable?] at read
    obtain ⟨t, table, rfl⟩ := of_map_eq_ok read
    refine ⟨?_, forall_eq_some (keyed_of_ofTable entries t merged.entries.2 table)⟩
    rw [Option.getD_some, Table.Distinct, keys_ofTable table]
    exact merged.entries.1
  | .bool _, _, _, read | .num _, _, _, read | .str _, _, _, read | .arr _, _, _, read => by
    simp [ofTable?] at read

theorem keyed_of_ofTable : ∀ (entries : List (String × Json)) (t : List (String × Schema)),
    (∀ entry ∈ entries, entry.2.Merged) → ofTable entries = .ok t → ∀ e ∈ t, e.2.keyed
  | [], t, _, read => by
    rw [ofTable] at read
    cases read
    simp
  | (key, value) :: rest, t, merged, read => by
    obtain ⟨mergedValue, mergedRest⟩ := List.forall_mem_cons.mp merged
    rw [ofTable] at read
    obtain ⟨s, first, read⟩ := of_bind_eq_ok read
    obtain ⟨more, later, read⟩ := of_bind_eq_ok read
    cases read
    exact List.forall_mem_cons.mpr ⟨keyed_of_ofJson value s mergedValue first,
      keyed_of_ofTable rest more mergedRest later⟩

theorem keyed_of_ofAdditional : ∀ (value : Json) (v : Option (Additional Schema)), value.Merged →
    ofAdditional value = .ok v → ∀ s, v = some (.schema s) → s.keyed
  | .null, v, _, read | .bool _, v, _, read => by
    rw [ofAdditional] at read
    cases read
    simp
  | .obj entries, v, merged, read => by
    rw [ofAdditional] at read
    split at read
    · rename_i s child
      cases read
      rintro _ ⟨⟩
      exact keyed_of_ofEntries entries {} s keyed_empty merged.entries.2 child
    · cases read
  | .num _, _, _, read | .str _, _, _, read | .arr _, _, _, read => by
    simp [ofAdditional] at read
end

end Schema

/-- The schemas of a document that was read from a text are keyed. -/
theorem Document.keyed_of_parse? {text : String} {value : Json} {d : Document}
    (parsed : Json.parse? text = some value) (read : ofJson value = .ok d) :
    ∀ e ∈ d.definitions, e.2.keyed := by
  rcases slot_of_parse? parsed read with none | ⟨slot, merged, lifted⟩
  · simp [none]
  · cases slot with
    | obj entries => exact Schema.keyed_of_ofTable entries _ merged.entries.2 lifted
    | _ => cases lifted

end SchemaGraph
