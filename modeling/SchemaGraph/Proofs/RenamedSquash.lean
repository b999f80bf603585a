import SchemaGraph.Pass.XmlHints
import SchemaGraph.Proofs.PropertyNames
import SchemaGraph.Proofs.Squashing

/- What the XML annotations and squashing make of the names of properties. An annotation at a
   property is kept whatever its name is; an `allOf` at a property is merged unless its name is
   `items`. -/
namespace SchemaGraph

/-! XML annotations -/

namespace XmlHints

/-- Annotations at the place can be read. -/
def isReadAt (p : Position) : Bool :=
  p.isRoot || p.parentKey? == some "properties" || p.key? == some "items"

theorem isReadAt_child (f : String → String) {c : Children Schema} {placed : List String × Schema}
    (listed : placed ∈ c.enteredPlaces) (p q : Position) (xml : Option Xml) :
    isReadAt (p.child xml placed.1) =
      isReadAt (q.child xml (Children.renameSegments f placed.1)) := by
  rcases Children.cases_of_placed listed with ⟨e, _, rfl⟩ | ⟨_, here⟩ | ⟨i, here | here | here⟩
  · simp [isReadAt, Position.child, Position.isRoot, Position.parentKey?, Children.renameSegments]
  · simp [isReadAt, Position.child, Position.key?, Children.renameSegments, here]
  all_goals simp [isReadAt, Position.child, Position.isRoot, Position.parentKey?, Position.key?,
    Children.renameSegments, here]

variable (f : String → String)

theorem hint_renameProperties (enclosing : List (Option Xml)) (s : Schema) :
    hint enclosing (s.renameProperties f) = hint enclosing s := by
  simp [hint, Children.renameKeys, Children.map]

theorem follows_visitor (pure : Bool) :
    Schema.Follows f (visitor pure) (visitor pure) fun p q _ =>
      p.enclosing = q.enclosing ∧ isReadAt p = isReadAt q where
  before := by
    rintro p q s ⟨enclosing, _⟩
    show ({ s.renameProperties f with
      keywords.xml := hint q.enclosing (s.renameProperties f) } : Schema) =
      Schema.renameProperties f { s with keywords.xml := hint p.enclosing s }
    rw [hint_renameProperties, enclosing]
    simp [Schema.renameProperties_eq]
  below := by
    rintro p q s ⟨enclosing, _⟩ placed listed
    refine ⟨?_, isReadAt_child f listed p q _⟩
    rw [Position.child, Position.child, enclosing]
  after := by
    rintro p q s ⟨_, readAt⟩ visit
    generalize ({ ((visitor pure).before p s).run with
      children := ((visitor pure).before p s).run.children.mapEntered visit } : Schema) = walked
    have same : isRead q (walked.renameProperties f) = isRead p walked := by
      rw [isRead, isRead, ← isReadAt, ← isReadAt, readAt]
      simp [Children.renameKeys, Children.map]
    show (if pure && !isRead q (walked.renameProperties f) then
        { walked.renameProperties f with keywords.xml := none } else walked.renameProperties f) =
      Schema.renameProperties f
        (if pure && !isRead p walked then { walked with keywords.xml := none } else walked)
    rw [same]
    split
    · simp [Schema.renameProperties_eq]
    · rfl

theorem run_renameProperties (pure : Bool) (d : Document) :
    run pure (d.renameProperties f) = ((run pure d).1.renameProperties f, (run pure d).2) := by
  have changed := (follows_visitor f pure).change d.flavor d.definitions
    fun _ _ => ⟨rfl, rfl⟩
  exact congrArg (fun definitions => Document.unreported { d with definitions }) changed

end XmlHints

/-! Squashing -/

section
variable (f : String → String)

theorem Schema.isVacuous_renameProperties (s : Schema) :
    (s.renameProperties f).isVacuous = s.isVacuous := by
  obtain ⟨k, c⟩ := s
  rw [renameProperties_mk, isVacuous, isVacuous, isObject, isObject, hasType, hasType]
  congr 1
  have properties : (((c.map (renameProperties f)).renameKeys f).properties.any List.isEmpty) =
      c.properties.any List.isEmpty := by
    cases found : c.properties <;>
      simp [Children.renameKeys, Children.map, found, Table.mapValues]
  rw [properties]
  split <;> simp [Children.isEmpty, Children.renameKeys, Children.map]

theorem Schema.isRepeatingGroup_renameProperties (s : Schema) :
    (s.renameProperties f).isRepeatingGroup = s.isRepeatingGroup := by
  rw [isRepeatingGroup, isRepeatingGroup, isArray, isArray, hasType, hasType,
    keywords_renameProperties]
  cases items : s.children.items <;> simp [Children.renameKeys, Children.map, items]

theorem Schema.isInlineObject_renameProperties (s : Schema) :
    (s.renameProperties f).isInlineObject = s.isInlineObject := by
  simp [isInlineObject, isUntypedOrObject, isObject, hasType, Children.renameKeys, Children.map]

theorem Schema.onto_renameProperties (top base : Schema) :
    (top.renameProperties f).onto (base.renameProperties f) =
      (top.onto base).renameProperties f := by
  simp only [onto, renameProperties_eq, Children.onto, Children.renameKeys, Children.map,
    Option.map_or]

theorem Schema.withAllOf_renameProperties (s : Schema) (members : Option (List Schema)) :
    ({ s.renameProperties f with
        children.allOf := members.map (List.map (renameProperties f)) } : Schema) =
      renameProperties f { s with children.allOf := members } := by
  simp only [renameProperties_eq, Children.renameKeys, Children.map]

theorem Schema.isIdle_renameProperties (s : Schema) :
    (s.renameProperties f).isIdle = s.isIdle := by
  have without := s.withAllOf_renameProperties f none
  rw [Option.map_none] at without
  rw [isIdle, without, isVacuous_renameProperties, isIdle]

theorem Schema.allOf_renameProperties (s : Schema) : (s.renameProperties f).children.allOf =
    s.children.allOf.map (List.map (renameProperties f)) := by
  rw [renameProperties_eq]
  rfl

/-- The properties under their new names. -/
def Table.renamed (properties : Option (Table Schema)) : Option (Table Schema) :=
  properties.map (List.map fun e => (f e.1, e.2.renameProperties f))

theorem Schema.properties_renameProperties (s : Schema) :
    (s.renameProperties f).children.properties = Table.renamed f s.children.properties := by
  rw [renameProperties_eq]
  cases found : s.children.properties <;>
    simp [Children.renameKeys, Children.map, found, Table.renamed, Table.mapValues]

namespace Squash

theorem splice_renameProperties (member : Schema) :
    splice (member.renameProperties f) = (splice member).map (Schema.renameProperties f) := by
  rw [splice_eq, splice_eq, Schema.isIdle_renameProperties, Schema.allOf_renameProperties]
  split
  · cases member.children.allOf <;> rfl
  · rfl

theorem putNew_renamed (injective : Function.Injective f) (t : Table Schema) (key : String)
    (s : Schema) :
    Table.putNew (t.map fun e => (f e.1, e.2.renameProperties f)) (f key) (s.renameProperties f) =
      (t.putNew key s).map fun e => (f e.1, e.2.renameProperties f) := by
  have keys : Table.keys (t.map fun e => (f e.1, e.2.renameProperties f)) = t.keys.map f := by
    simp [Table.keys]
  have known : f key ∈ Table.keys (t.map fun e => (f e.1, e.2.renameProperties f)) ↔
      key ∈ t.keys := by
    rw [keys, List.mem_map_of_injective injective]
  simp only [Table.putNew, Table.has_iff_mem_keys, known]
  split
  · rfl
  · rename_i fresh
    rw [Table.put_of_fresh fresh, Table.put_of_fresh (fresh ∘ known.mp), List.map_append]
    rfl

theorem mergeProperties_renamed (injective : Function.Injective f)
    (parent more : Option (Table Schema)) :
    mergeProperties (Table.renamed f parent) (Table.renamed f more) =
      Table.renamed f (mergeProperties parent more) := by
  cases more with
  | none => rfl
  | some added =>
    have joined (t : Table Schema) :
        (added.map fun e => (f e.1, e.2.renameProperties f)).foldl
            (fun t e => Table.putNew t e.1 e.2) (t.map fun e => (f e.1, e.2.renameProperties f)) =
          (added.foldl (fun t e => Table.putNew t e.1 e.2) t).map
            fun e => (f e.1, e.2.renameProperties f) := by
      induction added generalizing t with
      | nil => rfl
      | cons e rest ih =>
        rw [List.map_cons, List.foldl_cons, List.foldl_cons, ← ih]
        exact congrArg (List.foldl _ · _) (putNew_renamed f injective t e.1 e.2)
    cases parent with
    | none => exact congrArg some (joined [])
    | some t => exact congrArg some (joined t)

theorem mergeMember_renameProperties (injective : Function.Injective f) (parent member : Schema) :
    mergeMember (parent.renameProperties f) (member.renameProperties f) =
      (mergeMember parent member).renameProperties f := by
  have own (k : Keywords) (s : Schema) (properties : Option (Table Schema)) :
      (⟨k, { (s.renameProperties f).children with properties := Table.renamed f properties }⟩ :
        Schema) = Schema.renameProperties f ⟨k, { s.children with properties }⟩ := by
    cases properties <;> simp [Schema.renameProperties_eq, Children.renameKeys, Children.map,
      Table.renamed, Table.mapValues]
  rw [mergeMember, mergeMember, ← Schema.onto_renameProperties, ← own, ← own,
    ← mergeProperties_renamed f injective, ← Schema.properties_renameProperties,
    ← Schema.properties_renameProperties]
  simp only [Schema.keywords_renameProperties]
  rfl

theorem isMerged_renameProperties (merge : Bool) (s : Schema) (members : List Schema) :
    isMerged merge (s.renameProperties f) (members.map (Schema.renameProperties f)) =
      isMerged merge s members := by
  have inlined : isSingleInline (s.renameProperties f) (members.map (Schema.renameProperties f)) =
      isSingleInline s members := by
    rcases members with _ | ⟨member, _ | _⟩
    · rfl
    · simp [isSingleInline, Schema.isRepeatingGroup_renameProperties]
    · rfl
  have inline : Schema.isInlineObject ∘ Schema.renameProperties f = Schema.isInlineObject :=
    funext (Schema.isInlineObject_renameProperties f)
  have opened : isOpenObject (s.renameProperties f) = isOpenObject s := by
    simp [isOpenObject, Schema.isUntypedOrObject, Schema.isObject, Schema.hasType,
      Children.renameKeys, Children.map]
  rw [isMerged, isMerged, inlined, opened, List.all_map, inline]

theorem squashNode_renameProperties (injective : Function.Injective f) (merge : Bool) (s : Schema) :
    squashNode merge (s.renameProperties f) = (squashNode merge s).renameProperties f := by
  cases held : s.children.allOf with
  | none =>
    rw [squashNode, squashNode, Schema.allOf_renameProperties, held]
    rfl
  | some members =>
    have renamed : (s.renameProperties f).children.allOf =
        some (members.map (Schema.renameProperties f)) := by
      rw [Schema.allOf_renameProperties, held, Option.map_some]
    have flat : (members.map (Schema.renameProperties f)).flatMap splice =
        (members.flatMap splice).map (Schema.renameProperties f) := by
      rw [List.flatMap_map, List.map_flatMap, funext (splice_renameProperties f)]
    have merged (flat : List Schema) (parent : Schema) :
        (flat.map (Schema.renameProperties f)).foldl mergeMember (parent.renameProperties f) =
          (flat.foldl mergeMember parent).renameProperties f := by
      induction flat generalizing parent with
      | nil => rfl
      | cons member rest ih =>
        rw [List.map_cons, List.foldl_cons, mergeMember_renameProperties f injective, ih]
        rfl
    have without := s.withAllOf_renameProperties f none
    rw [Option.map_none] at without
    rw [squashNode_eq held, squashNode_eq renamed, flat, isMerged_renameProperties, List.isEmpty_map,
      without, merged, ← Option.map_some, Schema.withAllOf_renameProperties]
    split
    · rfl
    · split <;> rfl

def hasAllOf (s : Schema) : Bool := s.children.allOf.isSome

theorem follows_after (injective : Function.Injective f) :
    Schema.Follows f ⟨fun _ s => s, after⟩ ⟨fun _ s => s, after⟩ fun p q s =>
      (hasAllOf s → (q.key? = some "items" ↔ p.key? = some "items")) ∧
        s.Indifferent f "items" hasAllOf where
  before _ := rfl
  below := by
    rintro p q s ⟨_, indifferent⟩ placed listed
    refine ⟨fun shown => ?_, indifferent.below listed⟩
    rcases Children.cases_of_placed listed with ⟨e, inTable, rfl⟩ | ⟨_, here⟩ |
      ⟨i, here | here | here⟩
    · simpa [Children.renameSegments, Position.child, Position.key?] using
        indifferent.own e inTable shown
    all_goals simp [Children.renameSegments, Position.child, Position.key?, here]
  after := by
    rintro p q ⟨k, c⟩ ⟨same, _⟩ visit
    show squashNode (q.key? != some "items") (Schema.renameProperties f ⟨k, c.mapEntered visit⟩) =
      (squashNode (p.key? != some "items") ⟨k, c.mapEntered visit⟩).renameProperties f
    rw [squashNode_renameProperties f injective]
    cases held : c.allOf with
    | none =>
      have none : (c.mapEntered visit).allOf = none := by rw [Children.mapEntered, held]; rfl
      simp only [squashNode, none]
    | some members =>
      have flags : (q.key? != some "items") = (p.key? != some "items") := by
        have shown : hasAllOf ⟨k, c⟩ := by rw [hasAllOf, held]; rfl
        rw [Bool.eq_iff_iff, bne_iff_ne, bne_iff_ne, ne_eq, ne_eq, same shown]
      rw [flags]

theorem run_renameProperties (injective : Function.Injective f) {d : Document}
    (indifferent : d.Indifferent f "items" hasAllOf) :
    run (d.renameProperties f) = ((run d).1.renameProperties f, (run d).2) := by
  have changed := (follows_after f injective).change d.flavor d.definitions
    fun e listed => ⟨fun _ => Iff.rfl, indifferent e listed⟩
  exact congrArg (fun definitions => Document.unreported { d with definitions }) changed

end Squash
end
end SchemaGraph
