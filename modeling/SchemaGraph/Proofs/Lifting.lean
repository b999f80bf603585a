import SchemaGraph.Proofs.Distinct
import SchemaGraph.Proofs.Renaming

/- Documents whose schemas are lifted. The slot of the schemas keeps its place in the raw part, and
   writing the document fills it again. -/
namespace SchemaGraph

theorem Json.get?_present {α : Type} (name key : String) (value : Option α) (write : α → Json) :
    Table.get? (present name value write) key = if name = key then value.map write else none := by
  cases value with
  | none => simp [present, Table.get?]
  | some v => simp [present, Table.get?]

theorem Schema.toJson_mk (k : Keywords) (c : Children Schema) :
    toJson ⟨k, c⟩ = .obj (entriesOf k (c.map toJson)) := fold_mk _ k c

namespace Document

/-- The raw part of a document that was read: the slot is empty, and it is the one that the
document's references go to. -/
inductive Lifted (d : Document) : Prop where
  | definitions (slot : d.raw.get? "definitions" = some .null) (flavored : d.flavor = .definitions)
      (has : d.hasSlot = true)
  | components {components : Table Json} (absent : d.raw.get? "definitions" = none)
      (outer : d.raw.get? "components" = some (.obj components))
      (slot : components.get? "schemas" = some .null) (flavored : d.flavor = .components)
      (has : d.hasSlot = true)
  | bare (absent : d.raw.get? "definitions" = none) (noSlot : componentSchemas? d.raw = none)
      (flavored : d.flavor = .definitions) (hasNone : d.hasSlot = false)

theorem componentSchemas?_eq_some_iff {raw components : Table Json} {slot : Json} :
    componentSchemas? raw = some (components, slot) ↔
      raw.get? "components" = some (.obj components) ∧ components.get? "schemas" = some slot := by
  unfold componentSchemas?
  cases outer : raw.get? "components" with
  | none => simp
  | some value =>
    cases value with
    | obj entries =>
      cases inner : Table.get? entries "schemas" with
      | none =>
        simp only [Option.bind_eq_bind, Option.bind_some, Json.entries?, inner, Option.bind_none,
          reduceCtorEq, Option.some.injEq, Json.obj.injEq, false_iff, not_and]
        intro same
        rw [← same, inner]
        simp
      | some found =>
        simp only [Option.bind_eq_bind, Option.bind_some, Json.entries?, inner, Option.pure_def,
          Option.some.injEq, Prod.mk.injEq, Json.obj.injEq]
        constructor
        · rintro ⟨rfl, rfl⟩
          exact ⟨rfl, inner⟩
        · rintro ⟨rfl, same⟩
          rw [inner] at same
          exact ⟨rfl, Option.some.inj same⟩
    | _ => simp [Json.entries?]

/-- What is written of a document with definitions: they fill the slot. -/
theorem Lifted.toJson_eq {d : Document} (lifted : d.Lifted) (filled : d.definitions ≠ []) :
    (d.flavor = .definitions ∧
      d.toJson = .obj (d.raw.put "definitions" (Definitions.toJson d.definitions))) ∨
    (d.flavor = .components ∧ d.raw.get? "definitions" = none ∧
      ∃ components : Table Json, d.toJson = .obj (d.raw.put "components"
        (.obj (components.put "schemas" (Definitions.toJson d.definitions))))) := by
  have writes : (d.hasSlot || !d.definitions.isEmpty) = true := by simp [filled]
  unfold toJson
  rw [if_pos writes]
  cases lifted with
  | definitions slot flavored has =>
    rw [flavored]
    exact Or.inl ⟨rfl, rfl⟩
  | @components components absent outer slot flavored has =>
    rw [flavored]
    dsimp only
    rw [outer]
    exact Or.inr ⟨rfl, absent, components, rfl⟩
  | bare absent noSlot flavored hasNone =>
    rw [flavored]
    exact Or.inl ⟨rfl, rfl⟩

/-- A redirection changes no keys, so no slot appears or goes. -/
theorem Lifted.rename {d : Document} (lifted : d.Lifted) (names : Renaming) :
    (d.rename names).Lifted := by
  have get?_raw (key : String) : (d.rename names).raw.get? key =
      (d.raw.get? key).map (Json.redirect names.apply? false) := Table.get?_mapValues _ _ _
  cases lifted with
  | definitions slot flavored has => exact .definitions (by rw [get?_raw, slot]; rfl) flavored has
  | components absent outer slot flavored has =>
    refine .components (by rw [get?_raw, absent]; rfl) (by rw [get?_raw, outer]; rfl) ?_ flavored has
    rw [Json.get?_redirectEntries, slot]
    rfl
  | bare absent noSlot flavored hasNone =>
    refine .bare (by rw [get?_raw, absent]; rfl) ?_ flavored hasNone
    rw [Option.eq_none_iff_forall_ne_some]
    rintro ⟨components, slot⟩ found
    obtain ⟨outer, inner⟩ := componentSchemas?_eq_some_iff.mp found
    rw [get?_raw] at outer
    obtain ⟨value, stood, redirected⟩ := Option.map_eq_some_iff.mp outer
    cases value with
    | obj entries =>
      cases redirected
      rw [Json.get?_redirectEntries] at inner
      obtain ⟨before, held, _⟩ := Option.map_eq_some_iff.mp inner
      rw [componentSchemas?_eq_some_iff.mpr ⟨stood, held⟩] at noSlot
      cases noSlot
    | _ => cases redirected

end Document
end SchemaGraph
