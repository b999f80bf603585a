import SchemaGraph.Pass.Canonical
import SchemaGraph.Pass.XmlHints
import SchemaGraph.Proofs.Grounded
import SchemaGraph.Proofs.Places

/- What pruning sees of schemas: the references that they make, which one names their base, and
   whether they are polymorphic. A walk whose hooks leave that alone leaves it alone everywhere, and
   the last passes of a full run are such walks. -/
namespace SchemaGraph

/-- What pruning sees of a schema, given whether it stands as the base of an extension. -/
structure Outline where
  reference : Option Reference
  base : Option Reference
  polymorphic : Option Json
  occurrences : Bool → List Occurrence

/-- The outline of a node from those of its children. -/
def Outline.of (k : Keywords) (c : Children Outline) : Outline where
  reference := k.reference
  base := (c.allOf.bind List.head?).bind (·.reference)
  polymorphic := k.polymorphic
  occurrences structural :=
    k.references structural ++ Schema.childOccurrences (c.map (·.occurrences))

namespace Schema

def outline (s : Schema) : Outline :=
  ⟨s.keywords.reference, s.base?, s.keywords.polymorphic, s.occurrencesAt⟩

theorem outline_mk (k : Keywords) (c : Children Schema) :
    outline ⟨k, c⟩ = .of k (c.map outline) := by
  have base : base? ⟨k, c⟩ = ((c.map outline).allOf.bind List.head?).bind (·.reference) := by
    obtain ⟨not, items, properties, allOf, oneOf, anyOf, additional⟩ := c
    rcases allOf with _ | _ | ⟨first, rest⟩ <;> rfl
  have occurrences : occurrencesAt ⟨k, c⟩ = fun structural =>
      k.references structural ++ childOccurrences ((c.map outline).map (·.occurrences)) := by
    rw [Children.map_map]
    exact fold_mk _ k c
  rw [outline, base, occurrences]
  rfl

end Schema

section
variable {α β : Type} (visit : List String → α → Id α) {p : α → Prop} {f : α → β}
  (same : ∀ a, p a → ∀ segments, f (visit segments a).run = f a)
include same

theorem map_walkMembers (keyword : String) (i : Nat) {l : List α} (each : ∀ a ∈ l, p a) :
    (walkMembers visit keyword i l).run.map f = l.map f := by
  induction l generalizing i with
  | nil => rfl
  | cons a rest ih =>
    obtain ⟨here, later⟩ := List.forall_mem_cons.mp each
    exact congrArg₂ List.cons (same a here [keyword, toString i]) (ih (i + 1) later)

theorem mapValues_walkProperties {t : Table α} (each : ∀ e ∈ t, p e.2) :
    Table.mapValues f (walkProperties visit t).run = t.mapValues f := by
  induction t with
  | nil => rfl
  | cons entry rest ih =>
    obtain ⟨here, later⟩ := List.forall_mem_cons.mp each
    exact congrArg₂ (fun v t => (entry.1, v) :: t) (same entry.2 here ["properties", entry.1])
      (ih later)

/-- What a visit leaves the same of every child is left the same of all of them. -/
theorem Children.map_walk {c : Children α} (each : c.Each p) :
    (c.walk visit).run.map f = c.map f := by
  have members (keyword : String) (list : Option (List α)) (each : ∀ l, list = some l → ∀ a ∈ l, p a) :
      (SchemaGraph.walkOption (walkMembers visit keyword 0) list).run.map (List.map f) =
        list.map (List.map f) := by
    cases list with
    | none => rfl
    | some l => exact congrArg some (map_walkMembers visit same keyword 0 (each l rfl))
  have properties : (SchemaGraph.walkOption (walkProperties visit) c.properties).run.map
      (Table.mapValues f) = c.properties.map (Table.mapValues f) := by
    cases held : c.properties with
    | none => rfl
    | some t => exact congrArg some (mapValues_walkProperties visit same (each.properties t held))
  have items : (SchemaGraph.walkOption (visit ["items"]) c.items).run.map f = c.items.map f := by
    cases held : c.items with
    | none => rfl
    | some a => exact congrArg some (same a (each.items a held) ["items"])
  have walked : (c.walk visit).run = { c with
      properties := (SchemaGraph.walkOption (walkProperties visit) c.properties).run
      items := (SchemaGraph.walkOption (visit ["items"]) c.items).run
      allOf := (SchemaGraph.walkOption (walkMembers visit "allOf" 0) c.allOf).run
      oneOf := (SchemaGraph.walkOption (walkMembers visit "oneOf" 0) c.oneOf).run
      anyOf := (SchemaGraph.walkOption (walkMembers visit "anyOf" 0) c.anyOf).run } := rfl
  rw [walked, map, map, properties, items, members "allOf" c.allOf each.allOf,
    members "oneOf" c.oneOf each.oneOf, members "anyOf" c.anyOf each.anyOf]

end

namespace Schema

/-- Hooks that leave the outlines of nodes alone leave that of the root alone. -/
theorem outline_walk {holds : Keywords → Prop} {v : Visitor Id}
    (before : ∀ p s, Every holds s →
      (v.before p s).run.Every holds ∧ (v.before p s).run.outline = s.outline)
    (after : ∀ p s, holds s.keywords → (v.after p s).run.outline = s.outline)
    (levels : Nat) (p : Position) {s : Schema} (every : s.Every holds) :
    (s.walk v levels p).run.outline = s.outline := by
  induction levels generalizing p s with
  | zero => rfl
  | succ levels ih =>
    have visited (entered : Schema) (within : entered.Every holds) :
        (v.after p ⟨entered.keywords, (entered.children.walk fun segments child =>
          walk v levels (p.child entered.keywords.xml segments) child).run⟩).run.outline =
            entered.outline := by
      obtain ⟨k, c⟩ := entered
      have own : holds k := within.own
      refine (after p ⟨k, _⟩ own).trans ?_
      rw [outline_mk, outline_mk, Children.map_walk _ (fun _ every _ => ih _ every) within.below]
    obtain ⟨within, same⟩ := before p s every
    exact (visited _ within).trans same

end Schema

/-- The order of the entries does not matter to what is found. -/
theorem Table.get?_of_perm {α : Type} {before after : Table α} (perm : after.Perm before)
    (distinct : before.Distinct) (key : String) : after.get? key = before.get? key := by
  have still : Table.Distinct after := (perm.map Prod.fst).nodup_iff.mpr distinct
  cases found : before.get? key with
  | none =>
    have absent := (get?_eq_none_iff _ _).mp found
    exact (get?_eq_none_iff after key).mpr fun listed =>
      absent ((perm.map Prod.fst).mem_iff.mp listed)
  | some value => exact get?_of_mem still (perm.mem_iff.mpr (mem_of_get? found))

namespace Definitions

def outline (definitions : Definitions) (name : String) : Option Outline :=
  (definitions.get? name).map Schema.outline

theorem outline_change (flavor : Flavor) {holds : Keywords → Prop} {v : Visitor Id}
    (before : ∀ p s, Schema.Every holds s →
      (v.before p s).run.Every holds ∧ (v.before p s).run.outline = s.outline)
    (after : ∀ p s, holds s.keywords → (v.after p s).run.outline = s.outline)
    {definitions : Definitions} (every : ∀ e ∈ definitions, e.2.Every holds) :
    (definitions.change flavor v).outline = definitions.outline := by
  funext name
  rw [outline, outline, get?_change, Option.map_map]
  cases found : definitions.get? name with
  | none => rfl
  | some root =>
    exact congrArg some (Schema.outline_walk before after _ _ (every _ (Table.mem_of_get? found)))

theorem outline_of_perm {before after : Definitions} (perm : after.Perm before)
    (distinct : before.Distinct) : after.outline = before.outline := by
  funext name
  rw [outline, outline, Table.get?_of_perm perm distinct]

end Definitions

/-- The operations and what pruning sees of every definition are the same. -/
structure Document.Retraced (before after : Document) : Prop where
  raw : after.raw = before.raw
  keys : after.definitions.keys.Perm before.definitions.keys
  outline : before.definitions.Distinct → after.definitions.outline = before.definitions.outline

namespace Document
variable {d : Document}

theorem Retraced.distinct {after : Document} (h : d.Retraced after)
    (distinct : d.definitions.Distinct) : after.definitions.Distinct :=
  h.keys.nodup_iff.mpr distinct

theorem Retraced.trans {middle after : Document} (first : d.Retraced middle)
    (second : middle.Retraced after) : d.Retraced after where
  raw := second.raw.trans first.raw
  keys := second.keys.trans first.keys
  outline distinct := (second.outline (first.distinct distinct)).trans (first.outline distinct)

theorem retraced_change {v : Visitor Id}
    (before : ∀ p s, (v.before p s).run.outline = s.outline)
    (after : ∀ p s, (v.after p s).run.outline = s.outline) :
    d.Retraced { d with definitions := d.definitions.change d.flavor v } where
  raw := rfl
  keys := .of_eq (d.keys_change v)
  outline _ := by
    have every (s : Schema) : s.Every fun _ => True := fun _ _ => trivial
    exact Definitions.outline_change d.flavor (fun p s _ => ⟨every _, before p s⟩)
      (fun p s _ => after p s) fun e _ => every e.2

theorem retraced_changeAfter {after : Position → Schema → Schema}
    (same : ∀ p s, (after p s).outline = s.outline) : d.Retraced (d.changeAfter after) :=
  retraced_change (v := ⟨fun _ s => s, after⟩) (fun _ _ => rfl) same

end Document

theorem XmlHints.retraced_run (pure : Bool) (d : Document) : d.Retraced (run pure d).1 := by
  have unseen (x : Option Xml) (s : Schema) :
      Schema.outline { s with keywords.xml := x } = s.outline := by
    obtain ⟨k, c⟩ := s
    rw [Schema.outline_mk, Schema.outline_mk]
    rfl
  refine Document.retraced_change (fun p s => unseen _ s) fun p s => ?_
  change (if pure && !isRead p s then { s with keywords.xml := none } else s).outline = _
  split
  · exact unseen none s
  · rfl

theorem XmlHints.retraced_dropEmptyQualifiers (d : Document) :
    d.Retraced (dropEmptyQualifiers d).1 := by
  refine Document.retraced_changeAfter fun p s => ?_
  rw [dropEmptyQualifier]
  split
  · obtain ⟨k, c⟩ := s
    rw [Schema.outline_mk, Schema.outline_mk]
    rfl
  · rfl

theorem Canonical.outline_chooseNullable (v3 : Option Bool) (k : Keywords) (c : Children Outline) :
    Outline.of (chooseNullable v3 k) c = .of k c := by
  unfold chooseNullable
  split <;> rfl

/-- Empty properties say nothing. -/
theorem Schema.outline_withoutProperties (k : Keywords) {c : Children Schema}
    (empty : c.properties = some []) : outline ⟨k, { c with properties := none }⟩ = outline ⟨k, c⟩ := by
  obtain ⟨not, items, properties, allOf, oneOf, anyOf, additional⟩ := c
  cases empty
  rw [outline_mk, outline_mk]
  rfl

theorem Canonical.retraced_run (options : Options) (d : Document) :
    d.Retraced (run options d).1 := by
  refine Document.retraced_changeAfter fun p s => ?_
  obtain ⟨k, c⟩ := s
  have cleaned : Schema.outline { keywords := chooseNullable options.v3Nullable { k with
      extra := cleanExtra k.extra, xml := k.xml.map cleanXml,
      xsiTypeXml := k.xsiTypeXml.map cleanXml }, children := c } = Schema.outline ⟨k, c⟩ := by
    rw [Schema.outline_mk, outline_chooseNullable, Schema.outline_mk]
    rfl
  unfold after
  dsimp only
  split
  · rename_i noProperties
    rw [Bool.and_eq_true, Option.any_eq_true] at noProperties
    obtain ⟨_, t, held, empty⟩ := noProperties
    rw [List.isEmpty_iff.mp empty] at held
    exact (Schema.outline_withoutProperties _ held).trans cleaned
  · exact cleaned

theorem Canonical.retraced_sort (d : Document) : d.Retraced (sort d).1 where
  raw := rfl
  keys := (List.mergeSort_perm _ _).map Prod.fst
  outline := Definitions.outline_of_perm (List.mergeSort_perm _ _)

end SchemaGraph
