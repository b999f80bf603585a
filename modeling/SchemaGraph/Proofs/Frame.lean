import SchemaGraph.Proofs.CanonicalForm
import SchemaGraph.Proofs.Renaming
import SchemaGraph.Proofs.Squashing

/- Frames: what squashing sees of a schema, but for what later passes take away. Passes that keep the
   frame can only unsettle a node by making a member of its `allOf` idle. -/
namespace SchemaGraph

namespace Children
variable {α β : Type}

/-- Without an empty table of properties. -/
def trimmed (c : Children α) : Children α :=
  { c with properties := c.properties.filter fun t => !t.isEmpty }

theorem trimmed_map (f : α → β) (c : Children α) : (c.map f).trimmed = c.trimmed.map f := by
  obtain ⟨not, items, properties, allOf, oneOf, anyOf, additional⟩ := c
  rcases properties with _ | _ | _ <;> rfl

theorem enteredPlaces_trimmed (c : Children α) : c.trimmed.enteredPlaces = c.enteredPlaces := by
  obtain ⟨not, items, properties, allOf, oneOf, anyOf, additional⟩ := c
  rcases properties with _ | _ | _ <;> rfl

end Children

namespace Keywords

/-- Says which keywords there are and what the type is; the annotation, the hierarchy records and
the empty or temporary keys are gone. -/
def gist (k : Keywords) : Keywords :=
  let any : Reference := .toDefinition "" .definitions
  { k with
    reference := k.reference.map fun _ => any
    xml := none
    default := k.default.map fun _ => .null
    enum := k.enum.map fun _ => []
    nullable := if k.nullable.isSome || k.xNullable.isSome then some true else none
    xNullable := none
    discriminator := k.discriminator.map fun _ => {}
    xsiTypeXml := k.xsiTypeXml.map fun _ => {}
    uniqueName := k.uniqueName.map fun _ => ""
    typeOf := k.typeOf.map fun _ => any
    ancestor := none
    descendants := none
    extra := Canonical.cleanExtra k.extra }

/-- Without what later passes take away. -/
def faded (k : Keywords) : Keywords :=
  { k with
    xml := none
    ancestor := none
    descendants := none
    extra := Canonical.cleanExtra k.extra }

theorem isEmpty_gist (k : Keywords) (type : Option String) :
    isEmpty { k.gist with type } = isEmpty { k.faded with type } := by
  simp only [isEmpty, gist, faded, Option.isNone_map]
  cases k.nullable <;> cases k.xNullable <;> simp

theorem isEmpty_faded {k : Keywords} {type : Option String} (empty : isEmpty { k with type }) :
    isEmpty { k.faded with type } := by
  simp only [isEmpty, Bool.and_eq_true] at empty
  have clean : Canonical.cleanExtra k.extra = [] := by
    rw [List.isEmpty_iff.mp empty.2]
    rfl
  simp only [isEmpty, faded, clean, Bool.and_eq_true]
  simp [empty]

theorem gist_cleaned (v3 : Option Bool) (k : Keywords) : (Canonical.cleaned v3 k).gist = k.gist := by
  rcases v3 with _ | _ | _ <;> cases nullable : k.nullable <;> cases xNullable : k.xNullable <;>
    simp [gist, Canonical.cleaned, Canonical.chooseNullable, Canonical.cleanExtra_cleanExtra,
      nullable, xNullable, Function.comp_def]

theorem gist_redirect (f : Reference → Option Reference) (k : Keywords) :
    (k.redirect f).gist = k.gist := by
  simp [gist, redirect, Function.comp_def]

end Keywords

namespace Schema

def frame : Schema → Schema := fold fun k c => ⟨k.gist, c.trimmed⟩

theorem frame_mk (k : Keywords) (c : Children Schema) :
    frame ⟨k, c⟩ = ⟨k.gist, (c.map frame).trimmed⟩ := fold_mk _ k c

theorem met_frame (trail : List String) (s : Schema) :
    s.frame.met trail = (s.met trail).map fun node => (node.1, node.2.frame) := by
  induction s using children_induction generalizing trail with
  | step k c ih =>
    rw [frame_mk, met_mk, met_mk, List.map_cons, frame_mk, Children.enteredPlaces_trimmed,
      Children.enteredPlaces_map, List.flatMap_map, List.map_flatMap]
    refine congrArg _ (List.flatMap_congr fun placed listed => ?_)
    exact ih placed.2 (mem_toList_of_placed listed) _

theorem frame_redirect (f : Reference → Option Reference) (s : Schema) :
    (s.redirect f).frame = s.frame := by
  induction s using children_induction with
  | step k c ih =>
    rw [redirect_mk, frame_mk, frame_mk, Keywords.gist_redirect, Children.map_map]
    exact congrArg (fun c' : Children Schema => (⟨k.gist, c'.trimmed⟩ : Schema))
      (Children.map_congr ((Children.each_iff _ c).mpr ih))

/-- Hooks that keep the frame of the node itself keep that of the schema. -/
theorem frame_walk {v : Visitor Id} (shallow : v.Shallow)
    (gist : ∀ p s, (v.turn p s).keywords.gist = s.keywords.gist)
    (trimmed : ∀ p s, (v.turn p s).children.trimmed = s.children.trimmed)
    (levels : Nat) (p : Position) (s : Schema) : (s.walk v levels p).run.frame = s.frame := by
  induction levels generalizing p s with
  | zero => rfl
  | succ levels ih =>
    obtain ⟨k, c⟩ := s
    rw [shallow.walk_succ, frame_mk, frame_mk, gist, Children.map_mapEntered fun _ _ => ih _ _,
      Children.trimmed_map, trimmed, Children.trimmed_map]

end Schema

namespace Squash

/-- Later passes take away all that the node says beside its `allOf`. -/
def fades (s : Schema) : Bool := Schema.isIdle { s with keywords := s.keywords.faded }

theorem isIdle_frame (s : Schema) : s.frame.isIdle = fades s := by
  obtain ⟨k, c⟩ := s
  have keywords := k.isEmpty_gist (if Schema.isObject ⟨k, c⟩ then none else k.type)
  have children : Children.isEmpty { (c.map Schema.frame).trimmed with
        allOf := none
        properties := if (c.map Schema.frame).trimmed.properties.any List.isEmpty then none
          else (c.map Schema.frame).trimmed.properties } =
      Children.isEmpty { c with
        allOf := none
        properties := if c.properties.any List.isEmpty then none else c.properties } := by
    obtain ⟨not, items, properties, allOf, oneOf, anyOf, additional⟩ := c
    rcases properties with _ | _ | _ <;>
      simp [Children.isEmpty, Children.trimmed, Children.map, Table.mapValues]
  have isObject (c' : Children Schema) : Schema.isObject ⟨k.gist, c'⟩ = Schema.isObject ⟨k, c⟩ := rfl
  have unfaded (c' : Children Schema) : Schema.isObject ⟨k.faded, c'⟩ = Schema.isObject ⟨k, c⟩ := rfl
  simp only [Schema.frame_mk, fades, Schema.isIdle, Schema.isVacuous, isObject, unfaded]
  exact congrArg₂ and keywords children

theorem fades_of_isIdle {s : Schema} (idle : s.isIdle) : fades s := by
  obtain ⟨k, c⟩ := s
  have unfaded (c' : Children Schema) : Schema.isObject ⟨k.faded, c'⟩ = Schema.isObject ⟨k, c'⟩ := rfl
  simp only [Schema.isIdle, Schema.isVacuous, Bool.and_eq_true] at idle
  simp only [fades, Schema.isIdle, Schema.isVacuous, Bool.and_eq_true, unfaded]
  exact ⟨Keywords.isEmpty_faded idle.1, idle.2⟩

variable {merge : Bool} {s : Schema}

theorem isMerged_frame (members : List Schema) :
    isMerged merge s.frame (members.map Schema.frame) = isMerged merge s members := by
  have inline (m : Schema) : m.frame.isInlineObject = m.isInlineObject := by
    obtain ⟨k, c⟩ := m
    rw [Schema.frame_mk]
    simp [Schema.isInlineObject, Children.trimmed, Children.map, Keywords.gist,
      Schema.isUntypedOrObject, Schema.isObject, Schema.hasType]
  have isOpen : isOpenObject s.frame = isOpenObject s := by
    obtain ⟨k, c⟩ := s
    rw [Schema.frame_mk]
    simp [isOpenObject, Children.trimmed, Children.map, Keywords.gist, Schema.isUntypedOrObject,
      Schema.isObject, Schema.hasType]
  have repeating (m : Schema) : m.frame.isRepeatingGroup = m.isRepeatingGroup := by
    obtain ⟨k, c⟩ := m
    have below (m : Schema) : (m.frame.children.allOf.isSome || m.frame.children.oneOf.isSome) =
        (m.children.allOf.isSome || m.children.oneOf.isSome) := by
      obtain ⟨k, c⟩ := m
      rw [Schema.frame_mk]
      simp [Children.trimmed, Children.map]
    rw [Schema.frame_mk]
    simp [Schema.isRepeatingGroup, Children.trimmed, Children.map, Keywords.gist, Schema.isArray,
      Schema.hasType, Option.any_map, below]
  have kept (m : Schema) : m.frame.keywords.reference.isNone = m.keywords.reference.isNone ∧
      m.frame.keywords.type = m.keywords.type := by
    obtain ⟨k, c⟩ := m
    rw [Schema.frame_mk]
    simp [Keywords.gist]
  have single : isSingleInline s.frame (members.map Schema.frame) = isSingleInline s members := by
    rcases members with _ | ⟨m, _ | _⟩
    · rfl
    · simp only [isSingleInline, List.map_cons, List.map_nil, kept, repeating]
    · rfl
  rw [isMerged, isMerged, single, isOpen, List.all_map]
  simp only [Function.comp_def, inline]

/-- Later passes leave the node settled, as far as they only take away what fades. -/
def Lasting (merge : Bool) (s : Schema) : Prop :=
  ∀ members, s.children.allOf = some members →
    members ≠ [] ∧ (∀ member ∈ members, fades member = false) ∧ isMerged merge s members = false

theorem settled_frame_iff : Settled merge s.frame ↔ Lasting merge s := by
  have allOf : s.frame.children.allOf = s.children.allOf.map (List.map Schema.frame) := by
    obtain ⟨k, c⟩ := s
    rw [Schema.frame_mk]
    rfl
  rw [Settled, Lasting, allOf]
  cases s.children.allOf with
  | none => simp
  | some members =>
    simp only [Option.map_some, Option.some.injEq, forall_eq']
    constructor
    · rintro ⟨nonempty, busy, apart⟩
      refine ⟨by simpa using nonempty, fun member listed => ?_, isMerged_frame members ▸ apart⟩
      exact isIdle_frame member ▸ busy _ (List.mem_map_of_mem listed)
    · rintro ⟨nonempty, busy, apart⟩
      refine ⟨by simpa using nonempty, List.forall_mem_map.mpr fun member listed => ?_,
        (isMerged_frame members).trans apart⟩
      exact (isIdle_frame member).trans (busy member listed)

theorem Lasting.settled (lasting : Lasting merge s) : Settled merge s := by
  intro members held
  obtain ⟨nonempty, stays, apart⟩ := lasting members held
  refine ⟨nonempty, fun member listed => ?_, apart⟩
  exact Bool.eq_false_iff.mpr fun idle =>
    Bool.eq_false_iff.mp (stays member listed) (fades_of_isIdle idle)

theorem still_frame_iff (trail : List String) (s : Schema) :
    Still (trail.head? != some "items") s.frame ↔
      ∀ node ∈ s.met trail, Lasting (node.1.head? != some "items") node.2 := by
  rw [still_iff_met, Schema.met_frame, List.forall_mem_map]
  simp only [settled_frame_iff]

end Squash
end SchemaGraph
