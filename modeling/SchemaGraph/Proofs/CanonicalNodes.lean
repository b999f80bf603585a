import SchemaGraph.Proofs.CanonicalForm
import SchemaGraph.Proofs.ShallowWalks

/- What canonicalizing leaves at every place. A node that the walk enters is canonical afterwards, and it is
   nullable as it was unless the keyword that it gives up denied what the other one said. What stands where
   no walk goes stays as it came. -/
namespace SchemaGraph.Canonical

/-- No null and no temporary key. -/
def IsClean (extra : Table Json) : Prop := ∀ e ∈ extra, e.2.isNull = false ∧ e.1 ∉ temporaryKeys

/-- The canonical form of a node, with the keyword for nullability that is asked for. -/
structure IsCanonical (v3 : Option Bool) (s : Schema) : Prop where
  extra : IsClean s.keywords.extra
  xml : ∀ x, s.keywords.xml = some x → IsClean x.extra
  xsiTypeXml : ∀ x, s.keywords.xsiTypeXml = some x → IsClean x.extra
  properties : s.children.properties = some [] → s.isObject
  xNullable : v3 = some true → s.keywords.xNullable = none
  nullable : v3 = some false → s.keywords.nullable = none

/-- The keyword that is given up denies what the other one says. -/
def Denies : Option Bool → Keywords → Prop
  | some true, k => k.xNullable = some false ∧ k.nullable = some true
  | some false, k => k.nullable = some false ∧ k.xNullable = some true
  | none, _ => False

/-- Every node of the second graph, wherever it stands, is canonical and nullable as it is in the first. -/
def Canonicalized (v3 : Option Bool) (before after : Definitions) : Prop :=
  ∀ name place t, after.node? name place = some t → IsCanonical v3 t ∧
    ∃ s, before.node? name place = some s ∧ t.isNullable = s.isNullable

theorem isClean_cleanExtra (extra : Table Json) : IsClean (cleanExtra extra) := by
  intro e kept
  simpa using (List.mem_filter.mp kept).2

theorem isClean_of_map_cleanXml {o : Option Xml} {x : Xml} (left : o.map cleanXml = some x) :
    IsClean x.extra := by
  obtain ⟨_, _, rfl⟩ := Option.map_eq_some_iff.mp left
  exact isClean_cleanExtra _

variable (v3 : Option Bool) (p : Position) (s : Schema)

theorem isObject_after : (after v3 p s).isObject = s.isObject := by
  rw [after_eq, Schema.isObject, Schema.hasType, type_cleaned]
  rfl

theorem isCanonical_after : IsCanonical v3 (after v3 p s) where
  extra := by
    rw [after_eq, extra_cleaned]
    exact isClean_cleanExtra _
  xml x held := by
    rw [after_eq, xml_cleaned] at held
    exact isClean_of_map_cleanXml held
  xsiTypeXml x held := by
    rw [after_eq, xsiTypeXml_cleaned] at held
    exact isClean_of_map_cleanXml held
  properties empty := by
    rw [isObject_after]
    rw [after_eq] at empty
    by_contra noObject
    have given : keptProperties s = s.children.properties :=
      (keptProperties_cases s).elim (fun gone => by simp [gone.2.2] at empty) id
    have held : s.children.properties = some [] := given ▸ empty
    simp [keptProperties, held, noObject] at given
  xNullable asked := by
    subst asked
    rw [after_eq]
    rfl
  nullable asked := by
    subst asked
    rw [after_eq]
    rfl

/-- Children that are walked are as many as before. -/
theorem IsCanonical.mapEntered {v3 : Option Bool} {s : Schema} (canonical : IsCanonical v3 s)
    (f : List String → Schema → Schema) :
    IsCanonical v3 ⟨s.keywords, s.children.mapEntered f⟩ :=
  { canonical with
    properties := fun empty =>
      canonical.properties ((Children.properties_mapEntered_eq_nil_iff f s.children).mp empty) }

theorem isNullable_after_eq_iff :
    (after v3 p s).isNullable = s.isNullable ↔ ¬ Denies v3 s.keywords := by
  obtain ⟨k, c⟩ := s
  have merged : (after v3 p ⟨k, c⟩).isNullable = ((chooseNullable v3 k).xNullable == some true ||
      (chooseNullable v3 k).nullable == some true) := by
    rw [after_eq]
    rcases v3 with _ | _ | _ <;> rfl
  rw [merged, Schema.isNullable]
  rcases v3 with _ | _ | _ <;> rcases nullable : k.nullable with _ | _ | _ <;>
    rcases xNullable : k.xNullable with _ | _ | _ <;>
    simp [chooseNullable, Denies, nullable, xNullable]

theorem child?_after (step : Step) : (after v3 p s).children.child? step = s.children.child? step := by
  rw [after_eq]
  rcases keptProperties_cases s with ⟨empty, _, gone⟩ | kept
  · cases step <;> simp [Children.child?, gone, empty, Table.get?]
  · rw [kept]

def visitor : Visitor Id := ⟨fun _ s => s, after v3⟩

theorem changeAfter_after (d : Document) : d.changeAfter (after v3) =
    { d with definitions := d.definitions.change d.flavor (visitor v3) } := rfl

theorem shallow_visitor : (visitor v3).Shallow where
  keywords _ _ _ _ := rfl
  keeps _ _ := rfl
  after := shallow_after v3

/-- What a walk makes of the node at which it starts. -/
theorem isCanonical_walk {levels : Nat} (enough : s.levels ≤ levels) :
    IsCanonical v3 (s.walk (visitor v3) levels p).run ∧
      ((s.walk (visitor v3) levels p).run.isNullable = s.isNullable ↔
        ¬ Denies v3 s.keywords) := by
  have shallow := shallow_visitor v3
  refine ⟨?_, ?_⟩
  · cases levels with
    | zero => exact absurd s.levels_pos (by omega)
    | succ levels =>
      rw [shallow.walk_succ]
      exact (isCanonical_after v3 p s).mapEntered _
  · rw [Schema.isNullable, shallow.keywords_walk enough]
    exact isNullable_after_eq_iff v3 p s

theorem node?_change_after (d : Document) {name : String} {place : Place}
    (stood : d.definitions.node? name place = some s) :
    ∃ t, (d.changeAfter (after v3)).definitions.node? name place = some t ∧
      if place.isEntered then
        IsCanonical v3 t ∧ (t.isNullable = s.isNullable ↔ ¬ Denies v3 s.keywords)
      else t = s := by
  obtain ⟨root, found, stood⟩ := Option.bind_eq_some_iff.mp stood
  have left := Definitions.node?_change (shallow_visitor v3) (child?_after v3) d.flavor
    d.definitions name place
  rw [found, Option.bind_some, stood, Option.map_some] at left
  refine ⟨_, left, ?_⟩
  split
  · exact isCanonical_walk v3 _ s (Nat.le_refl _)
  · rfl

theorem exists_of_node?_change_after (d : Document) {name : String} {place : Place} {t : Schema}
    (left : (d.changeAfter (after v3)).definitions.node? name place = some t) :
    ∃ s, d.definitions.node? name place = some s := by
  rw [changeAfter_after, Definitions.node?_change (shallow_visitor v3) (child?_after v3)] at left
  obtain ⟨root, found, left⟩ := Option.bind_eq_some_iff.mp left
  obtain ⟨s, stood, _⟩ := Option.map_eq_some_iff.mp left
  exact ⟨s, Option.bind_eq_some_iff.mpr ⟨root, found, stood⟩⟩

/-- Canonicalizing makes every node that the walk enters canonical and changes nothing elsewhere, so
the whole graph is canonical and as nullable as before exactly if no node that is entered gives up a
keyword that denies the other, and no node that is not entered had anything to lose. -/
theorem run_canonicalizes (options : Options) (d : Document) : ∃ left : Definitions,
    run options d = ({ d with definitions := left }, .ok {}) ∧
    (∀ name place s, d.definitions.node? name place = some s →
      ∃ t, left.node? name place = some t ∧
        if place.isEntered then IsCanonical options.v3Nullable t ∧
          (t.isNullable = s.isNullable ↔ ¬ Denies options.v3Nullable s.keywords)
        else t = s) ∧
    (Canonicalized options.v3Nullable d.definitions left ↔
      ∀ name place s, d.definitions.node? name place = some s →
        if place.isEntered then ¬ Denies options.v3Nullable s.keywords
        else IsCanonical options.v3Nullable s) := by
  refine ⟨(d.changeAfter (after options.v3Nullable)).definitions, rfl,
    fun name place s stood => node?_change_after _ s d stood,
    fun canonicalized name place s stood => ?_, fun harmless name place t left => ?_⟩
  · obtain ⟨t, left, becomes⟩ := node?_change_after options.v3Nullable s d stood
    obtain ⟨canonical, s', stood', same⟩ := canonicalized name place t left
    cases stood.symm.trans stood'
    split <;> rename_i entered
    · rw [if_pos entered] at becomes
      exact becomes.2.mp same
    · rw [if_neg entered] at becomes
      exact becomes ▸ canonical
  · obtain ⟨s, stood⟩ := exists_of_node?_change_after options.v3Nullable d left
    obtain ⟨t', left', becomes⟩ := node?_change_after options.v3Nullable s d stood
    cases left.symm.trans left'
    have lost := harmless name place s stood
    by_cases entered : place.isEntered
    · rw [if_pos entered] at becomes lost
      exact ⟨becomes.1, s, stood, becomes.2.mpr lost⟩
    · rw [if_neg entered] at becomes lost
      exact ⟨becomes ▸ lost, s, stood, becomes ▸ rfl⟩

/-- A text, what it says on null, its other keys and what it must not be. -/
def text (nullable xNullable : Option Bool) (extra : Table Json) (not : Option Schema) : Document where
  raw := [("definitions", .null)]
  flavor := .definitions
  hasSlot := true
  definitions :=
    [("A", { keywords := { type := some "string", nullable, xNullable, extra },
             children := { properties := some [], not } })]

/-- Nullable, with a temporary key. -/
def marked : Document := text none (some true) [("x-ibm-basic-choice", .bool true)] none

theorem run_canonicalizes_marked : ∃ left : Definitions,
    run { v3Nullable := some true } marked = ({ marked with definitions := left }, .ok {}) ∧
      Canonicalized (some true) marked.definitions left := by
  obtain ⟨left, ran, _, canonicalized⟩ := run_canonicalizes { v3Nullable := some true } marked
  refine ⟨left, ran, canonicalized.mpr fun name place s stood => ?_⟩
  obtain ⟨root, found, stood⟩ := Option.bind_eq_some_iff.mp stood
  obtain ⟨rfl, rfl⟩ : "A" = name ∧ _ = root := by
    simpa [marked, text, Table.get?] using found
  cases place with
  | nil =>
    cases stood
    simp [Place.isEntered, Denies]
  | cons step rest => cases step <;> simp [Schema.node?, Children.child?, Table.get?] at stood

/-- Nullable, which the other keyword denies. -/
def denied : Document := text (some true) (some false) [] none

/-- What the text must not be has a temporary key. -/
def markedBelow : Document :=
  text none none [] (some { keywords := { extra := [("x-ibm-basic-choice", .bool true)] } })

/-- The keyword that is given up wins although it denies the other one, and what stands under `not`
keeps its temporary key. -/
theorem nullability_not_kept :
    ¬ Canonicalized (some true) denied.definitions
      (run { v3Nullable := some true } denied).1.definitions ∧
    ¬ Canonicalized none markedBelow.definitions (run {} markedBelow).1.definitions := by
  constructor
  · intro canonicalized
    obtain ⟨_, s, stood, same⟩ := canonicalized "A" [] _ rfl
    cases stood
    cases same
  · intro canonicalized
    obtain ⟨canonical, _⟩ := canonicalized "A" [.not] _ rfl
    exact absurd (canonical.extra _ (List.mem_singleton.mpr rfl)).2 (by decide)

end SchemaGraph.Canonical
