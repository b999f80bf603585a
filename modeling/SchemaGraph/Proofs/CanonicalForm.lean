import SchemaGraph.Proofs.Entered
import SchemaGraph.Proofs.Orphans

/- The passes that finish a document, run twice. All four together are one walk, whose hooks see no more
   of the children than which there are, and a sort; so a second run can be followed node by node. -/
namespace SchemaGraph

namespace Children
variable {α : Type} (f : List String → α → α) (c : Children α)

@[simp] theorem isNone_items_mapEntered : (c.mapEntered f).items.isNone = c.items.isNone :=
  Option.isNone_map

@[simp] theorem isSome_items_mapEntered : (c.mapEntered f).items.isSome = c.items.isSome :=
  Option.isSome_map

@[simp] theorem isNone_properties_mapEntered :
    (c.mapEntered f).properties.isNone = c.properties.isNone := Option.isNone_map

@[simp] theorem noProperties_mapEntered :
    (c.mapEntered f).properties.any List.isEmpty = c.properties.any List.isEmpty := by
  simp [mapEntered, Option.any_map]

theorem properties_mapEntered_eq_nil_iff :
    (c.mapEntered f).properties = some [] ↔ c.properties = some [] := by
  rw [mapEntered]
  rcases c.properties with _ | _ | _ <;> simp

end Children

namespace Schema

/-- The node with another annotation. -/
def withXml (s : Schema) (xml : Option Xml) : Schema := { s with keywords.xml := xml }

variable (s : Schema) (xml : Option Xml)

@[simp] theorem xml_withXml : (s.withXml xml).keywords.xml = xml := rfl

@[simp] theorem children_withXml : (s.withXml xml).children = s.children := rfl

theorem withXml_self : s.withXml s.keywords.xml = s := by
  obtain ⟨k, c⟩ := s
  rfl

theorem withXml_eq_self_iff : s.withXml xml = s ↔ xml = s.keywords.xml :=
  ⟨fun same => (congrArg (fun s : Schema => s.keywords.xml) same), fun same => same ▸ s.withXml_self⟩

end Schema

/-- A change of the annotation alone. -/
theorem shallow_of_xml {hook : Position → Schema → Schema} {xml : Position → Schema → Option Xml}
    (changes : ∀ p s, hook p s = s.withXml (xml p s))
    (same : ∀ p k (c : Children Schema) (f : List String → Schema → Schema),
      xml p ⟨k, c.mapEntered f⟩ = xml p ⟨k, c⟩) : Shallow hook where
  natural p k c f := by
    rw [changes, changes, same]
    rfl
  places p s := by rw [changes, Schema.children_withXml]
  skipped p s := by rw [changes, Schema.children_withXml]

namespace XmlHints

/-- The annotation that a node is left with. -/
def shown (pure : Bool) (p : Position) (s : Schema) : Option Xml :=
  if pure && !isRead p (s.withXml (hint p.enclosing s)) then none else hint p.enclosing s

def isSimple (s : Schema) : Bool :=
  s.children.properties.isNone && s.keywords.type.any fun type => type != "object" && type != "array"

/-- Drops a short name that says nothing on a simple type. -/
def unqualify (s : Schema) (x : Xml) : Xml :=
  if isSimple s ∧ x.qualifier = some "" ∧ x.uri = some "" then { x with qualifier := none } else x

theorem turn_visitor (pure : Bool) (p : Position) (s : Schema) :
    (visitor pure).turn p s = s.withXml (shown pure p s) := by
  have unfolded : (visitor pure).turn p s =
      if pure && !isRead p (s.withXml (hint p.enclosing s)) then
        (s.withXml (hint p.enclosing s)).withXml none
      else s.withXml (hint p.enclosing s) := rfl
  rw [unfolded, shown]
  split <;> rfl

theorem dropEmptyQualifier_eq (p : Position) (s : Schema) :
    dropEmptyQualifier p s = s.withXml (s.keywords.xml.map (unqualify s)) := by
  have unfolded : dropEmptyQualifier p s = if isSimple s then
      s.withXml (s.keywords.xml.map fun x =>
        if x.qualifier = some "" ∧ x.uri = some "" then { x with qualifier := none } else x)
      else s := rfl
  rw [unfolded]
  split
  · rename_i simple
    have same : (fun x : Xml => if x.qualifier = some "" ∧ x.uri = some "" then
        { x with qualifier := none } else x) = unqualify s := by
      funext x
      simp [unqualify, simple]
    rw [same]
  · rename_i simple
    have same : unqualify s = id := funext fun x => if_neg fun h => simple h.1
    rw [same, Option.map_id_fun, id, Schema.withXml_self]

variable (f : List String → Schema → Schema) (k : Keywords) (c : Children Schema)

@[simp] theorem hint_mapEntered (enclosing : List (Option Xml)) :
    hint enclosing ⟨k, c.mapEntered f⟩ = hint enclosing ⟨k, c⟩ := by
  simp only [hint, Children.isNone_items_mapEntered]

@[simp] theorem isRead_mapEntered (p : Position) :
    isRead p ⟨k, c.mapEntered f⟩ = isRead p ⟨k, c⟩ := by
  simp only [isRead, Children.isSome_items_mapEntered]

@[simp] theorem isSimple_mapEntered : isSimple ⟨k, c.mapEntered f⟩ = isSimple ⟨k, c⟩ := by
  simp only [isSimple, Children.isNone_properties_mapEntered]

theorem shallow_visitor (pure : Bool) : (visitor pure).Shallow where
  keywords p k c f := congrArg (fun x => { k with xml := x }) (hint_mapEntered f k c p.enclosing)
  keeps p s := rfl
  after := by
    have leaves (p : Position) (s : Schema) : ((visitor pure).after p s).run =
        s.withXml (if pure && !isRead p s then none else s.keywords.xml) := by
      have unfolded : ((visitor pure).after p s).run =
          if pure && !isRead p s then s.withXml none else s := rfl
      rw [unfolded]
      split
      · rfl
      · exact s.withXml_self.symm
    exact shallow_of_xml leaves fun p k c f => by rw [isRead_mapEntered]

theorem shallow_dropEmptyQualifier : Shallow dropEmptyQualifier := by
  refine shallow_of_xml dropEmptyQualifier_eq fun p k c f => ?_
  have same : unqualify ⟨k, c.mapEntered f⟩ = unqualify ⟨k, c⟩ := by
    funext x
    simp only [unqualify, isSimple_mapEntered]
  rw [same]

end XmlHints

namespace Canonical

/-- The keywords that a node is left with. -/
def cleaned (v3 : Option Bool) (k : Keywords) : Keywords :=
  chooseNullable v3 { k with
    extra := cleanExtra k.extra
    xml := k.xml.map cleanXml
    xsiTypeXml := k.xsiTypeXml.map cleanXml }

theorem type_cleaned (v3 : Option Bool) (k : Keywords) : (cleaned v3 k).type = k.type := by
  rcases v3 with _ | _ | _ <;> rfl

theorem xml_cleaned (v3 : Option Bool) (k : Keywords) :
    (cleaned v3 k).xml = k.xml.map cleanXml := by
  rcases v3 with _ | _ | _ <;> rfl

theorem reference_cleaned (v3 : Option Bool) (k : Keywords) :
    (cleaned v3 k).reference = k.reference := by
  rcases v3 with _ | _ | _ <;> rfl

theorem xsiTypeXml_cleaned (v3 : Option Bool) (k : Keywords) :
    (cleaned v3 k).xsiTypeXml = k.xsiTypeXml.map cleanXml := by
  rcases v3 with _ | _ | _ <;> rfl

theorem extra_cleaned (v3 : Option Bool) (k : Keywords) :
    (cleaned v3 k).extra = cleanExtra k.extra := by
  rcases v3 with _ | _ | _ <;> rfl

theorem cleanExtra_cleanExtra (extra : Table Json) :
    cleanExtra (cleanExtra extra) = cleanExtra extra := by
  simp [cleanExtra, List.filter_filter]

theorem cleanXml_cleanXml (x : Xml) : cleanXml (cleanXml x) = cleanXml x := by
  simp [cleanXml, cleanExtra_cleanExtra]

/-- Clean keywords with another annotation need no more than that this is cleaned. -/
theorem cleaned_withXml (v3 : Option Bool) (k : Keywords) (xml : Option Xml) :
    cleaned v3 { cleaned v3 k with xml } = { cleaned v3 k with xml := xml.map cleanXml } := by
  have again (x : Option Xml) : (x.map cleanXml).map cleanXml = x.map cleanXml := by
    cases x <;> simp [cleanXml_cleanXml]
  rcases v3 with _ | _ | _ <;>
    simp [cleaned, chooseNullable, cleanExtra_cleanExtra, again]

/-- The properties that a node keeps. -/
def keptProperties (s : Schema) : Option (Table Schema) :=
  if !s.isObject && s.children.properties.any List.isEmpty then none else s.children.properties

/-- Only an empty table is given up. -/
theorem keptProperties_cases (s : Schema) :
    (s.children.properties = some [] ∧ s.isObject = false ∧ keptProperties s = none) ∨
      keptProperties s = s.children.properties := by
  rw [keptProperties]
  split
  · rename_i given
    rw [Bool.and_eq_true, Bool.not_eq_true', Option.any_eq_true] at given
    obtain ⟨noObject, t, held, empty⟩ := given
    exact Or.inl ⟨List.isEmpty_iff.mp empty ▸ held, noObject, rfl⟩
  · exact Or.inr rfl

theorem keptProperties_mapEntered (f : List String → Schema → Schema) (k : Keywords)
    (c : Children Schema) : keptProperties ⟨k, c.mapEntered f⟩ =
      (keptProperties ⟨k, c⟩).map (List.map fun e => (e.1, f ["properties", e.1] e.2)) := by
  have isObject : Schema.isObject ⟨k, c.mapEntered f⟩ = Schema.isObject ⟨k, c⟩ := rfl
  rw [keptProperties, keptProperties, isObject, Children.noProperties_mapEntered]
  split <;> rfl

theorem after_eq (v3 : Option Bool) (p : Position) (s : Schema) : after v3 p s =
    ⟨cleaned v3 s.keywords, { s.children with properties := keptProperties s }⟩ := by
  have isObject : Schema.isObject ⟨cleaned v3 s.keywords, s.children⟩ = s.isObject := by
    rw [Schema.isObject, Schema.hasType, type_cleaned]
    rfl
  have unfolded : after v3 p s =
      if !Schema.isObject ⟨cleaned v3 s.keywords, s.children⟩ &&
          s.children.properties.any List.isEmpty then
        ⟨cleaned v3 s.keywords, { s.children with properties := none }⟩
      else ⟨cleaned v3 s.keywords, s.children⟩ := rfl
  rw [unfolded, isObject, keptProperties]
  split <;> rfl

theorem shallow_after (v3 : Option Bool) : Shallow (after v3) where
  natural p k c f := by
    rw [after_eq, after_eq, keptProperties_mapEntered]
    rfl
  places p s := by
    rw [after_eq]
    exact (keptProperties_cases s).elim
      (fun ⟨empty, _, gone⟩ => by simp [Children.enteredPlaces_eq, gone, empty])
      fun kept => by rw [kept]
  skipped p s := by
    rw [after_eq]
    rfl

end Canonical

namespace XmlHints

/-- At the second position a node has the same way to it and nothing more to inherit; what it
inherits at the first has a namespace. -/
structure Follows (p q : Position) : Prop where
  trail : p.trail = q.trail
  inherits : (q.enclosing.findSome? id).isSome → (p.enclosing.findSome? id).isSome
  uris : ∀ x, some x ∈ p.enclosing → x.uri.isSome

variable {p q : Position} {s t : Schema}

theorem isSome_uri_of_hint (follows : Follows p q) {x : Xml} (given : hint p.enclosing s = some x) :
    x.uri.isSome := by
  unfold hint at given
  split at given
  · cases given
    rfl
  · split at given
    · obtain ⟨e, found, rfl⟩ := Option.map_eq_some_iff.mp given
      obtain ⟨_, member, rfl⟩ := List.exists_of_findSome?_eq_some found
      exact follows.uris e member
    · cases given

theorem isSome_hint_of_xml {enclosing : List (Option Xml)} (own : s.keywords.xml.isSome) :
    (hint enclosing s).isSome := by
  obtain ⟨x, own⟩ := Option.isSome_iff_exists.mp own
  rw [hint, own]
  rfl

/-- A second run reads the annotation of a node where the first one did, if it has the same name or
does not matter. -/
theorem isRead_congr {a b : Schema} (same : p.trail = q.trail)
    (items : b.children.items = a.children.items)
    (name : a.children.items.isSome → (b.keywords.xml.any fun x => x.name.isNone) =
      a.keywords.xml.any fun x => x.name.isNone) : isRead q b = isRead p a := by
  rw [isRead, isRead, Position.isRoot, Position.isRoot, Position.parentKey?, Position.parentKey?,
    Position.key?, Position.key?, same, items]
  cases held : a.children.items.isSome with
  | false => rfl
  | true => rw [name held]

/-- A node without annotation of its own that is none of an array or a reference inherits one. -/
theorem hint_of_none {enclosing : List (Option Xml)} (own : s.keywords.xml = none) :
    hint enclosing s = if s.children.items.isNone && s.keywords.reference.isNone then
      (enclosing.findSome? id).map Xml.inherited else none := by
  rw [hint, own]

theorem hint_of_some {enclosing : List (Option Xml)} {x : Xml} (own : s.keywords.xml = some x)
    (uri : x.uri.isSome) : hint enclosing s = some x := by
  obtain ⟨u, named⟩ := Option.isSome_iff_exists.mp uri
  obtain ⟨_, _, _, _, _⟩ := x
  cases named
  rw [hint, own]
  rfl

/-- Where a node that can inherit had nothing to inherit, nothing encloses it later. -/
theorem enclosing_of_hint (follows : Follows p q) (bare : hint p.enclosing s = none)
    (items : s.children.items = none) (reference : s.keywords.reference.isNone) :
    q.enclosing.findSome? id = none := by
  have own : s.keywords.xml = none := by
    by_contra given
    have shows : (hint p.enclosing s).isSome :=
      isSome_hint_of_xml (Option.isSome_iff_ne_none.mpr given)
    rw [bare] at shows
    cases shows
  rw [hint_of_none own, items, reference] at bare
  have nothing : p.enclosing.findSome? id = none := Option.map_eq_none_iff.mp bare
  by_contra something
  have before := follows.inherits (Option.isSome_iff_ne_none.mpr something)
  rw [nothing] at before
  cases before

section
variable (pure : Bool) (follows : Follows p q) {g : Xml → Xml} (uri : ∀ x, (g x).uri = x.uri)
  (name : ∀ x, (g x).name = x.name) (xml : t.keywords.xml = (shown pure p s).map g)
  (reference : t.keywords.reference = s.keywords.reference)
  (items : t.children.items = s.children.items)
include follows uri name xml reference items

/-- What the first run left of the annotation is shown again by the second one. -/
theorem shown_again : shown pure q t = t.keywords.xml := by
  cases left : shown pure p s with
  | some x =>
    rw [left, Option.map_some] at xml
    rw [shown] at left
    split at left
    · cases left
    · rename_i read
      have again : hint q.enclosing t = some (g x) :=
        hint_of_some xml (uri x ▸ isSome_uri_of_hint follows left)
      have reads : isRead q (t.withXml (some (g x))) = isRead p (s.withXml (some x)) :=
        isRead_congr follows.trail items fun _ => by simp [name]
      rw [left] at read
      rw [shown, again, reads, if_neg read, xml]
  | none =>
    rw [left, Option.map_none] at xml
    have inherited : hint q.enclosing t = _ := hint_of_none xml
    rw [items, reference] at inherited
    rw [xml, shown]
    split
    · rfl
    · rename_i read
      rw [inherited]
      split
      · rename_i inherits
        rw [if_pos inherits] at inherited
        rw [Bool.and_eq_true, Option.isNone_iff_eq_none] at inherits
        -- There is nothing to inherit, or what the first run took away is taken away again.
        rw [shown] at left
        split at left
        · rename_i unread
          have reads : isRead q (t.withXml (hint q.enclosing t)) =
              isRead p (s.withXml (hint p.enclosing s)) :=
            isRead_congr follows.trail items fun held => by simp [inherits.1] at held
          rw [reads] at read
          exact absurd unread read
        · rw [enclosing_of_hint follows left inherits.1 inherits.2, Option.map_none]
      · rfl

end

/-- The children follow as well. -/
theorem Follows.child {g : Xml → Xml} (pure : Bool) (follows : Follows p q)
    (xml : t.keywords.xml = (shown pure p s).map g) (segments : List String) :
    Follows (p.child (hint p.enclosing s) segments) (q.child (hint q.enclosing t) segments) where
  trail := congrArg (segments.reverse ++ ·) follows.trail
  inherits := by
    intro later
    change ((hint p.enclosing s :: p.enclosing).findSome? id).isSome
    change ((hint q.enclosing t :: q.enclosing).findSome? id).isSome at later
    cases shows : hint p.enclosing s with
    | some x => rfl
    | none =>
      refine follows.inherits ?_
      have bare : t.keywords.xml = none := by
        rw [xml, shown, shows, ite_self, Option.map_none]
      rw [hint_of_none bare] at later
      split at later
      · cases found : q.enclosing.findSome? id with
        | some x => rfl
        | none =>
          rw [found] at later
          simp [found] at later
      · simpa using later
  uris := by
    intro x member
    rcases List.mem_cons.mp member with here | above
    · exact isSome_uri_of_hint follows here.symm
    · exact follows.uris x above

end XmlHints

open XmlHints (Follows shown hint unqualify isSimple)

/-- The visitor of the passes that finish a document, but for sorting it. -/
def finisher (pure : Bool) (v3 : Option Bool) : Visitor Id :=
  ((XmlHints.visitor pure).andThen XmlHints.dropEmptyQualifier).andThen (Canonical.after v3)

namespace Canonical

/-- A simple type with a table of properties that is empty. -/
def HasIdleTable (s : Schema) : Prop :=
  s.children.properties = some [] ∧
    s.keywords.type.any fun type => type != "object" && type != "array"

/-- The annotation has an empty short name for no namespace, and an idle table. The table still
protects the short name in one run and not in the next. -/
def Relapses (s : Schema) : Prop :=
  HasIdleTable s ∧ ∃ x, s.keywords.xml = some x ∧ x.qualifier = some "" ∧ x.uri = some ""

/-- The last two hooks on a node. -/
def polish (v3 : Option Bool) (p : Position) (s : Schema) : Schema :=
  after v3 p (XmlHints.dropEmptyQualifier p s)

variable (v3 : Option Bool) (p q : Position) (s : Schema)

theorem polish_eq : polish v3 p s =
    ⟨cleaned v3 (s.withXml (s.keywords.xml.map (unqualify s))).keywords,
      { s.children with properties := keptProperties s }⟩ := by
  rw [polish, after_eq, XmlHints.dropEmptyQualifier_eq]
  rfl

theorem xml_polish : (polish v3 p s).keywords.xml =
    s.keywords.xml.map fun x => cleanXml (unqualify s x) := by
  rw [polish_eq, xml_cleaned, Schema.xml_withXml, Option.map_map]
  rfl

theorem type_polish : (polish v3 p s).keywords.type = s.keywords.type := by
  rw [polish_eq, type_cleaned]
  rfl

theorem keptProperties_polish :
    keptProperties (polish v3 p s) = (polish v3 p s).children.properties := by
  have isObject : (polish v3 p s).isObject = s.isObject := by
    rw [Schema.isObject, Schema.hasType, type_polish]
    rfl
  have properties : (polish v3 p s).children.properties = keptProperties s := by rw [polish_eq]
  rcases keptProperties_cases (polish v3 p s) with ⟨empty, noObject, _⟩ | kept
  · rw [properties] at empty
    rw [isObject] at noObject
    rcases keptProperties_cases s with ⟨_, _, gone⟩ | kept
    · rw [gone] at empty
      cases empty
    · have held := kept.symm.trans empty
      rw [keptProperties, noObject, held] at empty
      cases empty
  · exact kept

/-- A second run can only change the annotation. -/
theorem polish_polish : polish v3 q (polish v3 p s) = (polish v3 p s).withXml
    ((polish v3 p s).keywords.xml.map fun x => cleanXml (unqualify (polish v3 p s) x)) := by
  have kept := keptProperties_polish v3 p s
  have known := polish_eq v3 p s
  rw [polish_eq v3 q]
  generalize polish v3 p s = left at kept known ⊢
  subst known
  rw [kept]
  refine congrArg (Schema.mk · _) ((cleaned_withXml v3 _ _).trans ?_)
  rw [Option.map_map]
  rfl

/-- Simple types are no objects. -/
theorem isObject_of_simple {s : Schema}
    (simple : s.keywords.type.any fun type => type != "object" && type != "array") :
    s.isObject = false := by
  obtain ⟨type, typed, other⟩ := (Option.any_eq_true _ _).mp simple
  rw [Bool.and_eq_true, bne_iff_ne] at other
  simp [Schema.isObject, Schema.hasType, typed, other.1]

theorem not_hasIdleTable_polish : ¬ HasIdleTable (polish v3 p s) := by
  rintro ⟨empty, simple⟩
  have kept := keptProperties_polish v3 p s
  rw [keptProperties, isObject_of_simple simple, empty] at kept
  cases kept

theorem isSimple_polish_iff : isSimple (polish v3 p s) ↔
    (s.keywords.type.any fun type => type != "object" && type != "array") ∧
      (s.children.properties = none ∨ s.children.properties = some []) := by
  have properties : (polish v3 p s).children.properties = keptProperties s := by rw [polish_eq]
  rw [isSimple, Bool.and_eq_true, type_polish, properties, Option.isNone_iff_eq_none, and_comm]
  refine and_congr_right fun simple => ?_
  rw [keptProperties, isObject_of_simple simple]
  rcases s.children.properties with _ | _ | _ <;> simp

theorem cleanXml_unqualify (x : Xml) : cleanXml (unqualify s x) = unqualify s (cleanXml x) :=
  apply_ite cleanXml _ _ _

theorem unqualify_eq_self_iff (x : Xml) :
    unqualify s x = x ↔ ¬ (isSimple s ∧ x.qualifier = some "" ∧ x.uri = some "") := by
  rw [unqualify]
  split
  · rename_i drops
    refine iff_of_false (fun same => ?_) (not_not.mpr drops)
    have dropped := (congrArg Xml.qualifier same).symm.trans rfl
    rw [drops.2.1] at dropped
    cases dropped
  · rename_i stays
    exact iff_of_true rfl stays

theorem unqualify_congr {a b : Schema} (same : isSimple a = isSimple b) :
    unqualify a = unqualify b := by
  funext x
  rw [unqualify, unqualify, same]

theorem uri_unqualify (x : Xml) : (unqualify s x).uri = x.uri := by
  unfold unqualify
  split <;> rfl

theorem name_unqualify (x : Xml) : (unqualify s x).name = x.name := by
  unfold unqualify
  split <;> rfl

/-- Dropping a short name twice is dropping it once. -/
theorem unqualify_unqualify (x : Xml) : unqualify s (unqualify s x) = unqualify s x := by
  rw [unqualify_eq_self_iff]
  rintro ⟨simple, empty, noUri⟩
  unfold unqualify at empty noUri
  split at empty
  · cases empty
  · rename_i stays
    rw [if_neg stays] at noUri
    exact stays ⟨simple, empty, noUri⟩

theorem polish_polish_eq_self_iff : polish v3 q (polish v3 p s) = polish v3 p s ↔ ¬ Relapses s := by
  rw [polish_polish, Schema.withXml_eq_self_iff, xml_polish]
  cases own : s.keywords.xml with
  | none => simp [Relapses, own]
  | some x =>
    have once : cleanXml (unqualify (polish v3 p s) (cleanXml (unqualify s x))) =
        unqualify (polish v3 p s) (unqualify s (cleanXml x)) := by
      rw [cleanXml_unqualify, cleanXml_cleanXml, cleanXml_unqualify]
    rw [Option.map_some, Option.map_some, Option.some.injEq, once, cleanXml_unqualify]
    have simple := isSimple_polish_iff v3 p s
    by_cases before : isSimple s
    · have after : isSimple (polish v3 p s) = isSimple s := by
        rw [before]
        rw [isSimple, Bool.and_eq_true, Option.isNone_iff_eq_none] at before
        exact simple.mpr ⟨before.2, Or.inl before.1⟩
      rw [unqualify_congr after, unqualify_unqualify]
      refine iff_of_true rfl fun relapses => ?_
      simp [isSimple, relapses.1.1] at before
    · have stays : unqualify s (cleanXml x) = cleanXml x :=
        (unqualify_eq_self_iff s _).mpr fun drops => before drops.1
      rw [stays, unqualify_eq_self_iff, simple]
      refine not_congr ⟨fun ⟨⟨typed, properties⟩, empty, noUri⟩ => ?_, fun relapses => ?_⟩
      · refine ⟨⟨properties.resolve_left fun none => before ?_, typed⟩, x, own, empty, noUri⟩
        rw [isSimple, none, typed]
        rfl
      · obtain ⟨⟨properties, typed⟩, y, given, empty, noUri⟩ := relapses
        rw [own, Option.some.injEq] at given
        subst given
        exact ⟨⟨typed, Or.inr properties⟩, empty, noUri⟩

end Canonical

section
variable (pure : Bool) (v3 : Option Bool) {p q : Position} {s t : Schema}

theorem shallow_finisher : (finisher pure v3).Shallow :=
  ((XmlHints.shallow_visitor pure).andThen XmlHints.shallow_dropEmptyQualifier).andThen
    (Canonical.shallow_after v3)

theorem turn_finisher (p : Position) (s : Schema) : (finisher pure v3).turn p s =
    Canonical.polish v3 p (s.withXml (shown pure p s)) := by
  rw [← XmlHints.turn_visitor]
  rfl

theorem xml_turn_finisher : ((finisher pure v3).turn p s).keywords.xml = (shown pure p s).map
    fun x => Canonical.cleanXml (unqualify (s.withXml (shown pure p s)) x) := by
  rw [turn_finisher, Canonical.xml_polish]
  rfl

/-- What the finisher made of a node itself it can only change where the last two hooks do. -/
theorem turn_turn_finisher (follows : Follows p q) :
    (finisher pure v3).turn q ((finisher pure v3).turn p s) =
      Canonical.polish v3 q (Canonical.polish v3 p (s.withXml (shown pure p s))) := by
  have again : shown pure q ((finisher pure v3).turn p s) =
      ((finisher pure v3).turn p s).keywords.xml := by
    refine XmlHints.shown_again (s := s)
      (g := fun x => Canonical.cleanXml (unqualify (s.withXml (shown pure p s)) x)) pure follows
      (fun x => Canonical.uri_unqualify _ x) (fun x => Canonical.name_unqualify _ x)
      (xml_turn_finisher pure v3) ?_ ?_
    · rw [turn_finisher, Canonical.polish_eq, Canonical.reference_cleaned]
      rfl
    · rw [turn_finisher, Canonical.polish_eq]
      rfl
  rw [turn_finisher pure v3 q, again, Schema.withXml_self, turn_finisher]

theorem children_turn_turn_finisher (follows : Follows p q) :
    ((finisher pure v3).turn q ((finisher pure v3).turn p s)).children =
      ((finisher pure v3).turn p s).children := by
  rw [turn_turn_finisher pure v3 follows, Canonical.polish_polish, turn_finisher]
  rfl

theorem turn_turn_finisher_eq_self_iff (follows : Follows p q) :
    (finisher pure v3).turn q ((finisher pure v3).turn p s) = (finisher pure v3).turn p s ↔
      ¬ Canonical.Relapses (s.withXml (shown pure p s)) := by
  rw [turn_turn_finisher pure v3 follows, turn_finisher, Canonical.polish_polish_eq_self_iff]

theorem Canonical.hasIdleTable_mapEntered_iff (f : List String → Schema → Schema) (k : Keywords)
    (c : Children Schema) : HasIdleTable ⟨k, c.mapEntered f⟩ ↔ HasIdleTable ⟨k, c⟩ := by
  rw [HasIdleTable, HasIdleTable, Children.properties_mapEntered_eq_nil_iff]

theorem Canonical.relapses_mapEntered_iff (f : List String → Schema → Schema) (k : Keywords)
    (c : Children Schema) : Relapses ⟨k, c.mapEntered f⟩ ↔ Relapses ⟨k, c⟩ := by
  rw [Relapses, Relapses, hasIdleTable_mapEntered_iff]

/-- What the finisher left is left alone by it exactly when no node relapses. -/
theorem walk_walk_finisher_eq_iff (levels : Nat) (follows : Follows p q)
    (enough : s.levels ≤ levels) :
    (((s.walk (finisher pure v3) levels p).run).walk (finisher pure v3) levels q).run =
        (s.walk (finisher pure v3) levels p).run ↔
      ∀ node ∈ (s.walk (XmlHints.visitor pure) levels p).run.met p.trail,
        ¬ Canonical.Relapses node.2 := by
  induction levels generalizing p q s with
  | zero => exact absurd s.levels_pos (by omega)
  | succ levels ih =>
    obtain ⟨k, c⟩ := s
    have whole := shallow_finisher pure v3
    have hints := XmlHints.shallow_visitor pure
    have left : (Schema.walk (finisher pure v3) (levels + 1) p ⟨k, c⟩).run.keywords.xml =
        ((finisher pure v3).turn p ⟨k, c⟩).keywords.xml := by rw [whole.walk_succ]
    have xml := left.trans (xml_turn_finisher pure v3)
    rw [whole.walk_again_iff levels (children_turn_turn_finisher pure v3 follows),
      turn_turn_finisher_eq_self_iff pure v3 follows, hints.walk_succ, XmlHints.turn_visitor]
    simp only [Schema.mem_met_mk, Children.enteredPlaces_mapEntered, List.mem_map]
    constructor
    · rintro ⟨own, below⟩ node (rfl | ⟨_, ⟨placed, listed, rfl⟩, inside⟩)
      · rw [Canonical.relapses_mapEntered_iff]
        exact own
      · have lower : placed.2.levels < Schema.levels ⟨k, c⟩ :=
          Schema.levels_lt_of_mem (Schema.mem_toList_of_placed listed)
        exact (ih (follows.child pure xml placed.1) (by omega)).mp (below placed listed) node inside
    · intro none
      refine ⟨fun relapses => none _ (Or.inl rfl) ?_, fun placed listed => ?_⟩
      · exact (Canonical.relapses_mapEntered_iff _ _ _).mpr relapses
      · have lower : placed.2.levels < Schema.levels ⟨k, c⟩ :=
          Schema.levels_lt_of_mem (Schema.mem_toList_of_placed listed)
        refine (ih (follows.child pure xml placed.1) (by omega)).mpr fun node inside => ?_
        exact none node (Or.inr ⟨_, ⟨placed, listed, rfl⟩, inside⟩)

end

namespace Table
variable {α : Type}

theorem sorted_sortByKey (t : Table α) :
    t.sortByKey.Pairwise fun a b => decide (a.1 ≤ b.1) = true :=
  List.pairwise_mergeSort (fun _ _ _ first second => by
      simp only [decide_eq_true_eq] at first second ⊢
      exact String.le_trans first second)
    (fun a b => by simpa using String.le_total a.1 b.1) t

/-- Changed values under sorted keys stay where they are. -/
theorem sortByKey_map_sortByKey {f : String × α → String × α} (sameKey : ∀ e, (f e).1 = e.1)
    (t : Table α) : sortByKey (t.sortByKey.map f) = t.sortByKey.map f := by
  refine List.mergeSort_of_pairwise (List.pairwise_map.mpr ?_)
  simp only [sameKey]
  exact t.sorted_sortByKey

end Table

namespace Definitions

theorem sortByKey_change_sortByKey (flavor : Flavor) (v : Visitor Id) (definitions : Definitions) :
    (change flavor v definitions.sortByKey).sortByKey = change flavor v definitions.sortByKey :=
  Table.sortByKey_map_sortByKey
    (f := fun e : String × Schema => (e.1, (e.2.walk v e.2.levels { flavor, definition := e.1 }).run))
    (fun _ => rfl) definitions

end Definitions

namespace Pass
variable (dictionary : Dictionary) (options : Options) (d : Document)

theorem leave_finishing : leave dictionary options finishing d = { d with
    definitions := (d.definitions.change d.flavor
      (finisher options.pureXml options.v3Nullable)).sortByKey } := by
  have unfolded : leave dictionary options finishing d = { d with
      definitions := (((d.definitions.change d.flavor (XmlHints.visitor options.pureXml)).change
        d.flavor ⟨fun _ s => s, XmlHints.dropEmptyQualifier⟩).change d.flavor
        ⟨fun _ s => s, Canonical.after options.v3Nullable⟩).sortByKey } := rfl
  have hints := XmlHints.shallow_visitor options.pureXml
  rw [unfolded, hints.change_change (fun _ _ _ _ => rfl),
    (hints.andThen XmlHints.shallow_dropEmptyQualifier).change_change fun _ _ _ _ => rfl]
  rfl

/-- A second run changes nothing when it changes nothing of any definition. -/
theorem leave_finishing_twice_iff :
    leave dictionary options finishing (leave dictionary options finishing d) =
        leave dictionary options finishing d ↔
      ∀ node ∈ (XmlHints.run options.pureXml d).1.definitions.met, ¬ Canonical.Relapses node.2 := by
  have start (e : String × Schema) : Follows { flavor := d.flavor, definition := e.1 }
      { flavor := d.flavor, definition := e.1 } := ⟨rfl, id, by simp⟩
  have whole := shallow_finisher options.pureXml options.v3Nullable
  have sorted (e : String × Schema) := (List.mergeSort_perm (d.definitions.change d.flavor
    (finisher options.pureXml options.v3Nullable)) fun a b => decide (a.1 ≤ b.1)).mem_iff (a := e)
  have changed : leave dictionary options finishing (leave dictionary options finishing d) =
      leave dictionary options finishing d ↔
        ∀ e ∈ d.definitions.change d.flavor (finisher options.pureXml options.v3Nullable),
          (e.2.walk (finisher options.pureXml options.v3Nullable) e.2.levels
            { flavor := d.flavor, definition := e.1 }).run = e.2 := by
    rw [leave_finishing, leave_finishing]
    simp only [Document.mk.injEq, true_and]
    rw [Definitions.sortByKey_change_sortByKey, Definitions.change_eq_self_iff]
    exact forall_congr' fun e => imp_congr_left (sorted e)
  rw [changed]
  rw [Definitions.forall_mem_change_iff]
  refine Iff.trans (forall₂_congr fun e listed => ?_) ?_
    (b := ∀ e ∈ d.definitions, ∀ node ∈ Schema.met (e.2.walk (XmlHints.visitor options.pureXml)
      e.2.levels { flavor := d.flavor, definition := e.1 }).run [], ¬ Canonical.Relapses node.2)
  · have enough := whole.levels_walk e.2.levels { flavor := d.flavor, definition := e.1 } e.2
    refine Iff.trans (Eq.congr_left ?_) (walk_walk_finisher_eq_iff options.pureXml
      options.v3Nullable e.2.levels (start e) (Nat.le_refl _))
    exact Schema.walk_eq_of_levels whole.keeps _ (Nat.le_refl _) enough
  · have met (node : List String × Schema) :
        node ∈ (d.definitions.change d.flavor (XmlHints.visitor options.pureXml)).met ↔ _ :=
      Definitions.mem_met_change_iff d.flavor (XmlHints.visitor options.pureXml)
    constructor
    · intro none node listed
      obtain ⟨e, member, inside⟩ := (met node).mp listed
      exact none e member node inside
    · intro none e member node inside
      exact none node ((met node).mpr ⟨e, member, inside⟩)

/-- The first of these passes leaves tables as they are. -/
theorem hasIdleTable_of_hints {options : Options} {d : Document} {node : List String × Schema}
    (met : node ∈ (XmlHints.run options.pureXml d).1.definitions.met)
    (idle : Canonical.HasIdleTable node.2) :
    ∃ before ∈ d.definitions.met, Canonical.HasIdleTable before.2 := by
  obtain ⟨before, stood, _, q, f, _, turned⟩ :=
    Definitions.exists_of_mem_met_change (XmlHints.shallow_visitor options.pureXml) met
  rw [turned, Canonical.hasIdleTable_mapEntered_iff, XmlHints.turn_visitor] at idle
  exact ⟨before, stood, idle⟩

/-- Every node that is met in the end was met before and is turned. -/
theorem exists_of_mem_met_finished {dictionary : Dictionary} {options : Options} {d : Document}
    {node : List String × Schema}
    (met : node ∈ (leave dictionary options finishing d).definitions.met) :
    ∃ before ∈ d.definitions.met, ∃ q f, q.trail = node.1 ∧ node.2 =
      ⟨((finisher options.pureXml options.v3Nullable).turn q before.2).keywords,
        ((finisher options.pureXml options.v3Nullable).turn q before.2).children.mapEntered f⟩ := by
  rw [leave_finishing] at met
  obtain ⟨e, listed, inside⟩ := Definitions.mem_met_iff.mp met
  obtain ⟨before, stood, _, turned⟩ := Definitions.exists_of_mem_met_change
    (shallow_finisher options.pureXml options.v3Nullable)
    (Definitions.mem_met_iff.mpr ⟨e, (List.mergeSort_perm _ _).mem_iff.mp listed, inside⟩)
  exact ⟨before, stood, turned⟩

/-- No table is left to simple types. -/
theorem not_hasIdleTable_finished {node : List String × Schema}
    (met : node ∈ (leave dictionary options finishing d).definitions.met) :
    ¬ Canonical.HasIdleTable node.2 := by
  obtain ⟨before, _, q, f, _, turned⟩ := exists_of_mem_met_finished met
  rw [turned, Canonical.hasIdleTable_mapEntered_iff, turn_finisher]
  exact Canonical.not_hasIdleTable_polish _ _ _

/-- Running these passes a second time changes nothing exactly when no node relapses, so always when
no simple type comes with an empty table of properties; a third time never changes anything. -/
theorem finishing_twice_iff :
    (leave dictionary options finishing (leave dictionary options finishing d) =
        leave dictionary options finishing d ↔
      ∀ node ∈ (XmlHints.run options.pureXml d).1.definitions.met,
        ¬ Canonical.Relapses node.2) ∧
    ((∀ node ∈ d.definitions.met, ¬ Canonical.HasIdleTable node.2) →
      leave dictionary options finishing (leave dictionary options finishing d) =
        leave dictionary options finishing d) ∧
    leave dictionary options finishing (leave dictionary options finishing
        (leave dictionary options finishing d)) =
      leave dictionary options finishing (leave dictionary options finishing d) := by
  have noTable (d : Document) (none : ∀ node ∈ d.definitions.met, ¬ Canonical.HasIdleTable node.2) :
      leave dictionary options finishing (leave dictionary options finishing d) =
        leave dictionary options finishing d := by
    refine (leave_finishing_twice_iff dictionary options d).mpr fun node met relapses => ?_
    obtain ⟨before, stood, idle⟩ := hasIdleTable_of_hints met relapses.1
    exact none before stood idle
  refine ⟨leave_finishing_twice_iff dictionary options d, noTable d, noTable _ fun node met => ?_⟩
  exact not_hasIdleTable_finished dictionary options d met

/-- A text with an empty short name for no namespace. -/
def plainText (properties : Option (Table Schema)) : Document where
  raw := [("definitions", .null)]
  flavor := .definitions
  hasSlot := true
  definitions :=
    [("A", { keywords := { type := some "string",
                           xml := some { uri := some "", qualifier := some "" } },
             children := { properties } })]

theorem finishing_twice_iff_plainText :
    (∀ node ∈ (plainText none).definitions.met, ¬ Canonical.HasIdleTable node.2) ∧
      leave {} {} finishing (leave {} {} finishing (plainText none)) =
        leave {} {} finishing (plainText none) := by
  have noTable : ∀ node ∈ (plainText none).definitions.met, ¬ Canonical.HasIdleTable node.2 := by
    rintro node met ⟨properties, _⟩
    have itself := List.mem_singleton.mp met
    rw [itself] at properties
    cases properties
  exact ⟨noTable, (finishing_twice_iff {} {} (plainText none)).2.1 noTable⟩

/-- The first run drops the table, and the second one the short name. -/
theorem canonical_form_not_stable :
    leave {} {} finishing (leave {} {} finishing (plainText (some []))) ≠
      leave {} {} finishing (plainText (some [])) := by
  intro same
  have names := congrArg (fun d : Document =>
    d.definitions.map fun e => e.2.keywords.xml.map (·.qualifier)) same
  revert names
  decide +kernel

end Pass

end SchemaGraph
