import SchemaGraph.Proofs.Copies
import SchemaGraph.Proofs.Guarantee
import SchemaGraph.Proofs.Renaming
import SchemaGraph.Proofs.Sound

/- Copying hierarchies and reference integrity. Each planned copy extends the root or the copy of
   its own base, but the copies of elements are planned and not made; and elements that are replaced
   by their types are removed all at once, also where the type of one is another of them. Apart from
   these two, every reference that the copies make has its definition. -/
namespace SchemaGraph

namespace Guarantee
variable {m : Type → Type} [Monad m] (g : Guarantee m) {α β : Type}

theorem foldlM {p : β → Prop} {f : β → α → m β} {l : List α} {init : β} (start : p init)
    (step : ∀ b, p b → ∀ a ∈ l, g.Holds p (f b a)) : g.Holds p (l.foldlM f init) := by
  induction l generalizing init with
  | nil => exact g.pure start
  | cons a rest ih =>
    rw [List.foldlM_cons]
    exact g.bind (step init start a List.mem_cons_self) fun b held =>
      ih held fun b held a later => step b held a (List.mem_cons_of_mem _ later)

end Guarantee

namespace HierarchyCopies
open Definitions (Extended)

section
variable {definitions : Definitions} {root : String}

/-- The copy of `entry` is named for the root; it extends the root itself, or the copy of a
definition that is planned too and that the original extends. -/
structure PlannedCopy (definitions : Definitions) (root : String) (planned : List String)
    (entry : String × Copy) : Prop where
  defined : entry.1 ∈ definitions.keys
  named : entry.2.name = entry.1 ++ copySuffix root
  based : entry.2.base = root ∨ ∃ base ∈ planned,
    definitions.Below entry.1 base ∧ entry.2.base = base ++ copySuffix root

def Planned (definitions : Definitions) (root : String) (copies : Table Copy) : Prop :=
  ∀ entry ∈ copies, PlannedCopy definitions root copies.keys entry

theorem PlannedCopy.mono {planned more : List String} (subset : ∀ name ∈ planned, name ∈ more)
    {entry : String × Copy} (h : PlannedCopy definitions root planned entry) :
    PlannedCopy definitions root more entry :=
  { h with based := h.based.imp_right fun ⟨base, member, rest⟩ => ⟨base, subset base member, rest⟩ }

theorem Planned.put {copies : Table Copy} (planned : Planned definitions root copies)
    {base newBase subtype : String} (below : definitions.Below subtype base)
    (copied : newBase = root ∨ base ∈ copies.keys ∧ newBase = base ++ copySuffix root) :
    Planned definitions root (copies.put subtype ⟨subtype ++ copySuffix root, newBase⟩) := by
  have grown (name : String) (known : name ∈ copies.keys) :
      name ∈ (copies.put subtype ⟨subtype ++ copySuffix root, newBase⟩).keys :=
    (Table.mem_keys_put_iff _ _ _ _).mpr (Or.inl known)
  intro entry member
  rcases Table.mem_of_mem_put member with old | rfl
  · exact (planned entry old).mono grown
  · have ⟨s, inside, _⟩ := below
    exact ⟨(Table.mem_keys_iff _ _).mpr ⟨s, inside⟩, rfl,
      copied.imp_right fun ⟨known, same⟩ => ⟨base, grown base known, below, same⟩⟩

theorem planned_plan (depth : Nat) {base newBase : String} {copies : Table Copy}
    (planned : Planned definitions root copies)
    (copied : newBase = root ∨ base ∈ copies.keys ∧ newBase = base ++ copySuffix root) :
    Planned definitions root (plan definitions.subtypes root depth base newBase copies) ∧
      ∀ name ∈ copies.keys,
        name ∈ (plan definitions.subtypes root depth base newBase copies).keys := by
  induction depth generalizing base newBase copies with
  | zero => exact ⟨planned, fun _ => id⟩
  | succ depth ih =>
    rw [plan]
    -- Over the extensions of `base`; the names planned before stay planned.
    refine List.foldlRecOn (motive := fun more => Planned definitions root more ∧
      ∀ name ∈ copies.keys, name ∈ Table.keys more) _ _ ⟨planned, fun _ => id⟩ ?_
    rintro more ⟨plannedMore, grown⟩ subtype listed
    have below := (definitions.mem_subtypes_iff base subtype).mp listed
    have put := plannedMore.put below (copied.imp_right fun h => ⟨grown base h.1, h.2⟩)
    obtain ⟨deeper, kept⟩ := ih put
      (Or.inr ⟨(Table.mem_keys_put_iff _ _ _ _).mpr (Or.inr rfl), rfl⟩)
    exact ⟨deeper, fun name known => kept name
      ((Table.mem_keys_put_iff _ _ _ _).mpr (Or.inl (grown name known)))⟩

theorem planned_of_get? {maxDepth : Nat} {copies : Table Copy}
    (found : (plans definitions maxDepth).get? root = some copies) :
    Planned definitions root copies := by
  obtain ⟨⟨name, s⟩, _, planned⟩ := List.mem_filterMap.mp (Table.mem_of_get? found)
  dsimp only at planned
  split at planned
  · split at planned
    · cases planned
    · cases planned
      exact (planned_plan maxDepth (by simp [Planned]) (Or.inl rfl)).1
  · cases planned

end

/-- The name that an element's copy would have, which a planned copy is to extend. -/
def BeneathElement (dictionary : Dictionary) (definitions : Definitions) (maxDepth : Nat)
    (name : String) : Prop :=
  ∃ root copies, (plans definitions maxDepth).get? root = some copies ∧
    ∃ entry ∈ copies, entry.2.base = name ∧
      ∃ element, definitions.Below entry.1 element ∧ dictionary.isKind element .element ∧
        name = element ++ copySuffix root

/-- The reference is plain and its definition is there, or its name is one that may be missing. -/
def Known (loose : String → Prop) (definitions : Definitions) (r : Reference) : Prop :=
  r.IsPlain ∧ (r.name ∈ definitions.keys ∨ loose r.name)

/-- A state of the copying: the names stay defined, and every reference is known. -/
structure Sound (names : List String) (loose : String → Prop) (definitions : Definitions) :
    Prop where
  distinct : definitions.Distinct
  defines : ∀ name ∈ names, name ∈ definitions.keys
  each : ∀ e ∈ definitions, e.2.Each (Known loose definitions)

theorem Known.mono {loose : String → Prop} {before after : Definitions}
    (defines : ∀ name ∈ before.keys, name ∈ after.keys) {r : Reference}
    (h : Known loose before r) : Known loose after r :=
  ⟨h.1, h.2.imp_left (defines r.name)⟩

section
variable {names : List String} {loose : String → Prop} {root : String}

theorem Sound.extended {before after : Definitions}
    (sound : Sound names loose before)
    (extended : Extended (Known loose after) before after) :
    Sound names loose after where
  distinct := extended.distinct sound.distinct
  defines name known := extended.defines (sound.defines name known)
  each := extended.each fun e member =>
    (sound.each e member).mono fun _ => Known.mono fun _ => extended.defines

theorem Sound.rebase {definitions : Definitions}
    (sound : Sound names loose definitions) {f : Reference → Reference}
    (turns : ∀ s, definitions.get? root = some s → ∀ r, s.base? = some r →
      Known loose definitions (f r)) :
    Sound names loose (definitions.modify root (Schema.mapBase f)) := by
  have same := definitions.keys_modify root (Schema.mapBase f)
  refine ⟨?_, ?_, fun e member => ?_⟩
  · rw [Table.Distinct, same]
    exact sound.distinct
  · rw [same]
    exact sound.defines
  · have known (r : Reference) (h : Known loose definitions r) :
        Known loose (definitions.modify root (Schema.mapBase f)) r :=
      h.mono fun _ defined => same ▸ defined
    rcases Table.mem_of_mem_modify member with other | ⟨s, itself, rfl⟩
    · exact (sound.each e other).mono known
    · have found := Table.get?_of_mem sound.distinct itself
      exact ((sound.each _ itself).mono known).mapBase fun r based =>
        known _ (turns s found r based)

section
variable (copied : ∀ name, loose name → loose (name ++ copySuffix root))
include copied

/-- The copy of an ancestor is there once all are copied, unless the ancestor itself may be
missing. -/
theorem ancestor_known {ancestors : List Reference} {state : Progress} {current : Option Schema}
    (ascends : state.1.Ascends current ancestors) (xml : Option Xml) {r : Reference}
    (member : r ∈ ancestors) (known : Known loose state.1 r) :
    Known loose (copyAncestors xml (copySuffix root) ancestors state).1
      (r.withSuffix (copySuffix root)) :=
  ⟨known.1, known.2.imp (mem_keys_copyAncestors xml _ ascends member) (copied r.name)⟩

theorem Sound.copyAncestors {ancestors : List Reference} {state : Progress}
    {current : Option Schema} (ascends : state.1.Ascends current ancestors)
    (sound : Sound names loose state.1)
    (known : ∀ r ∈ ancestors, Known loose state.1 r) (xml : Option Xml) :
    Sound names loose
      (copyAncestors xml (copySuffix root) ancestors state).1 :=
  sound.extended <| extended_copyAncestors xml _ ascends fun r member =>
    ancestor_known copied ascends xml member (known r member)

end

section
variable {dictionary : Dictionary} {original : Definitions} {maxDepth : Nat}
  (left : ∀ name ∈ original.keys, name ∈ names ∨ dictionary.isKind name .element)
  (beneath : ∀ name, BeneathElement dictionary original maxDepth name → loose name)
include left beneath

/-- Every planned base is there once the extensions of a root are copied, unless it lies beneath an
element. -/
theorem planned_base_known
    {copies : Table Copy} (found : (plans original maxDepth).get? root = some copies)
    {state : Progress} (sound : Sound names loose state.1) (xml : Option Xml)
    (rootDefined : root ∈ state.1.keys) {entry : String × Copy} (member : entry ∈ copies) :
    entry.2.base ∈ (copies.foldl (copySubtype dictionary xml) state).1.keys ∨
      loose entry.2.base := by
  have planned := planned_of_get? found
  rcases (planned entry member).based with itself | ⟨base, listed, below, named⟩
  · have extended := extended_copySubtypes (p := fun _ => True) dictionary xml copies
      (fun _ _ _ _ => trivial) state
    exact Or.inl (itself ▸ extended.defines rootDefined)
  · cases isElement : dictionary.isKind base .element with
    | true => exact Or.inr (beneath _ ⟨root, copies, found, entry, member, rfl, base, below,
        isElement, named⟩)
    | false =>
      obtain ⟨copy, inside⟩ := (Table.mem_keys_iff _ _).mp listed
      have plannedBase := planned _ inside
      have named_ := (left base plannedBase.defined).resolve_right (by simp [isElement])
      have copied := mem_keys_copySubtypes dictionary xml inside isElement
        (sound.defines base named_)
      rw [plannedBase.named, ← named] at copied
      exact Or.inl copied

theorem Sound.copySubtypes
    {copies : Table Copy} (found : (plans original maxDepth).get? root = some copies)
    {state : Progress} (sound : Sound names loose state.1) (xml : Option Xml)
    (rootDefined : root ∈ state.1.keys) :
    Sound names loose (copies.foldl (copySubtype dictionary xml) state).1 :=
  sound.extended <| extended_copySubtypes dictionary xml copies
    (fun _ member _ known =>
      ⟨known.1, planned_base_known left beneath found sound xml rootDefined member⟩) state

theorem Sound.copyHierarchy (copied : ∀ name, loose name → loose (name ++ copySuffix root))
    {state : Progress} (sound : Sound names loose state.1) :
    Sound names loose
      (copyHierarchy dictionary (plans original maxDepth) maxDepth state root).1 := by
  rw [HierarchyCopies.copyHierarchy]
  split
  · rename_i copies s found defined
    have rootDefined : root ∈ state.1.keys :=
      (Table.mem_keys_iff _ _).mpr ⟨s, Table.mem_of_get? defined⟩
    have below := sound.copySubtypes left beneath found s.keywords.xml rootDefined
    dsimp only
    generalize copies.foldl (copySubtype dictionary s.keywords.xml) state = middle at below ⊢
    have ascends := middle.1.ascends_ancestors root maxDepth
    have known := ascends.each (fun _ found => (below.each _ (Table.mem_of_get? found)).base)
      fun e member => (below.each e member).base
    have whole := below.copyAncestors copied ascends known s.keywords.xml
    have extended := extended_copyAncestors (p := fun _ => True) s.keywords.xml (copySuffix root)
      ascends fun _ _ => trivial
    split
    · exact whole
    · rename_i based
      rw [List.isEmpty_iff] at based
      obtain ⟨_, r, extends_, _⟩ := (middle.1.ancestors_ne_nil_iff root maxDepth).mp based
      have first := Definitions.mem_ancestors_of_base extends_ based
      obtain ⟨before, stood, extends_⟩ := Option.bind_eq_some_iff.mp extends_
      refine whole.rebase fun after atRoot next extendsNext => ?_
      -- The root stands as it did when its ancestors were looked up.
      have same : before = after :=
        Option.some.inj ((extended.retains root before stood).symm.trans atRoot)
      have : r = next := Option.some.inj (extends_.symm.trans (same ▸ extendsNext))
      exact this ▸ ancestor_known copied ascends _ first (known r first)
  · exact sound

theorem Sound.copyHierarchies (copied : ∀ root name, loose name → loose (name ++ copySuffix root))
    (state : Progress) (sound : Sound names loose state.1) (roots : List String) :
    Sound names loose (roots.foldl
      (HierarchyCopies.copyHierarchy dictionary (plans original maxDepth) maxDepth) state).1 :=
  List.foldlRecOn (motive := fun state : Progress => Sound names loose state.1) roots _ sound
    fun _ sound root _ => sound.copyHierarchy left beneath (copied root)

end

end

section
variable (dictionary : Dictionary) (options : Options) (d : Document)

/-- The elements that are replaced, each with its type. -/
def elements : Renaming :=
  match replacements dictionary options.maxDepth d.definitions with
  | .ok elements => elements
  | .error _ => []

/-- The document whose hierarchies are copied, and the elements that were removed from it. -/
def replaced : Document × List String :=
  let elements := elements dictionary options d
  if threshold < copiesFor (plans d.definitions options.maxDepth) d.definitions options.maxDepth
      elements.keys then replaceElements elements d
  else (d, [])

theorem run_eq : (run dictionary options d).1 =
    { (replaced dictionary options d).1 with
      definitions := ((replaced dictionary options d).1.definitions.keys.foldl
        (copyHierarchy dictionary (plans d.definitions options.maxDepth) options.maxDepth)
        ((replaced dictionary options d).1.definitions, [])).1 } := by
  rw [run, replaced, elements]
  cases replacements dictionary options.maxDepth d.definitions with
  | ok elements => rfl
  | error e => cases e <;> rfl

end

section
variable {dictionary : Dictionary} {options : Options} {d : Document}

theorem isKind_of_replacementType? {element type : String}
    (found : replacementType? dictionary element = some type) :
    dictionary.isKind element .element := by
  obtain ⟨entry, listed, found⟩ := Option.bind_eq_some_iff.mp found
  dsimp only at found
  split at found
  · cases found
  · rename_i kind
    simp [Dictionary.isKind, listed, Decidable.not_not.mp kind]

/-- Only elements are replaced, and only by types that are defined. -/
def Replaces (dictionary : Dictionary) (definitions : Definitions) (element type : String) : Prop :=
  dictionary.isKind element .element ∧ type ∈ definitions.keys

theorem replaces_of_replacement? {maxDepth : Nat} {definitions : Definitions}
    {usage : Table Usage} {name type : String} {s : Schema}
    (judged : replacement? dictionary maxDepth definitions usage name s = .ok (some type)) :
    Replaces dictionary definitions name type := by
  rw [replacement?] at judged
  split at judged
  · cases judged
  · rename_i found
    split at judged
    · cases judged
    · cases judged
    · rename_i annotated _
      obtain ⟨s, defined, _⟩ := Option.bind_eq_some_iff.mp annotated
      split at judged
      · cases judged
        exact ⟨isKind_of_replacementType? found,
          (Table.mem_keys_iff _ _).mpr ⟨s, Table.mem_of_get? defined⟩⟩
      · cases judged

/-- The elements were judged one by one. -/
theorem replacement?_of_mem_elements {entry : String × String}
    (member : entry ∈ elements dictionary options d) : ∃ s, (entry.1, s) ∈ d.definitions ∧
      replacement? dictionary options.maxDepth d.definitions d.definitions.usage entry.1 s =
        .ok (some entry.2) := by
  have each : Ends (fun _ => True)
      (fun t : Renaming => ∀ e ∈ t, ∃ s, (e.1, s) ∈ d.definitions ∧
        replacement? dictionary options.maxDepth d.definitions d.definitions.usage e.1 s =
          .ok (some e.2))
      (replacements dictionary options.maxDepth d.definitions) := by
    refine (Guarantee.checked fun _ => True).foldlM (by simp) fun t held ⟨name, s⟩ listed => ?_
    have judged : Ends (fun _ => True)
        (fun o => replacement? dictionary options.maxDepth d.definitions d.definitions.usage name s =
          .ok o)
        (replacement? dictionary options.maxDepth d.definitions d.definitions.usage name s) := by
      cases replacement? dictionary options.maxDepth d.definitions d.definitions.usage name s
      · trivial
      · rfl
    refine (Guarantee.checked fun _ => True).bind judged fun o found => ?_
    cases o with
    | none => exact held
    | some type =>
      intro e put
      rcases Table.mem_of_mem_put put with old | rfl
      · exact held e old
      · exact ⟨s, listed, found⟩
  rw [elements] at member
  split at member
  · rename_i found
    rw [found] at each
    exact each entry member
  · simp at member

theorem replaces_of_mem_elements {entry : String × String}
    (member : entry ∈ elements dictionary options d) :
    Replaces dictionary d.definitions entry.1 entry.2 := by
  obtain ⟨s, _, judged⟩ := replacement?_of_mem_elements member
  exact replaces_of_replacement? judged

theorem isKind_of_mem_removed {name : String} (removed : name ∈ (replaced dictionary options d).2) :
    dictionary.isKind name .element := by
  dsimp only [replaced] at removed
  split at removed
  · obtain ⟨type, member⟩ := (Table.mem_keys_iff _ _).mp (List.mem_filter.mp removed).1
    exact (replaces_of_mem_elements member).1
  · simp at removed

theorem distinct_replaced (distinct : d.definitions.Distinct) :
    (replaced dictionary options d).1.definitions.Distinct := by
  dsimp only [replaced]
  split
  · refine Table.distinct_foldl_erase ?_ _
    rw [Table.Distinct, Document.rename, Definitions.rename, Table.keys_mapValues]
    exact distinct
  · exact distinct

theorem mem_keys_replaced {name : String} (known : name ∈ d.definitions.keys) :
    name ∈ (replaced dictionary options d).1.definitions.keys ∨
      name ∈ (replaced dictionary options d).2 := by
  dsimp only [replaced]
  split
  · rw [or_iff_not_imp_right]
    intro stays
    let elements : Renaming := elements dictionary options d
    rw [← Table.keys_mapValues (Schema.redirect elements.apply?)] at known
    obtain ⟨s, member⟩ := (Table.mem_keys_iff _ _).mp known
    exact (Table.mem_keys_iff _ _).mpr ⟨s, (Table.mem_foldl_erase_iff _ _ _).mpr ⟨member, stays⟩⟩
  · exact Or.inl known

theorem among_of_refers_replaced (sound : d.Sound d.definitions.keys) {r : Reference}
    (refers : (replaced dictionary options d).1.Refers r) : r.Among d.definitions.keys := by
  dsimp only [replaced] at refers
  split at refers
  · have types : ∀ e ∈ elements dictionary options d, e.2 ∈ d.definitions.keys := fun e member =>
      (replaces_of_mem_elements member).2
    refine (sound.rename types).refers ?_
    rcases refers with ⟨name, s, member, inside⟩ | raw
    · exact Or.inl ⟨name, s, ((Table.mem_foldl_erase_iff _ _ _).mp member).1, inside⟩
    · exact Or.inr raw
  · exact sound.refers refers

/-- The references of a run are known when those to removed elements, and those that the copies of
elements would have resolved, may be missing. -/
theorem known_of_refers_run (distinct : d.definitions.Distinct) (closed : d.Closed)
    (plain : d.Plain) (loose : String → Prop)
    (removed : ∀ r, (replaced dictionary options d).1.Refers r →
      r.name ∈ (replaced dictionary options d).2 → loose r.name)
    (beneath : ∀ name, BeneathElement dictionary d.definitions options.maxDepth name → loose name)
    (copied : ∀ root name, loose name → loose (name ++ copySuffix root)) {r : Reference}
    (refers : (run dictionary options d).1.Refers r) :
    Known loose (run dictionary options d).1.definitions r := by
  have known (r : Reference) (refers : (replaced dictionary options d).1.Refers r) :
      Known loose (replaced dictionary options d).1.definitions r := by
    have among := among_of_refers_replaced (d.sound_of_closed closed plain) refers
    exact ⟨among.1, (mem_keys_replaced among.2).imp_right (removed r refers)⟩
  have start : Sound (replaced dictionary options d).1.definitions.keys loose
      (replaced dictionary options d).1.definitions :=
    ⟨distinct_replaced distinct, fun _ => id, fun e member =>
      (Document.each_refers _ e member).mono known⟩
  have copies := start.copyHierarchies
    (fun name known => (mem_keys_replaced known).imp_right isKind_of_mem_removed) beneath copied
    (_, []) (replaced dictionary options d).1.definitions.keys
  rw [run_eq] at refers ⊢
  rcases refers with ⟨name, s, member, node, inside, refers⟩ | raw
  · exact (Keywords.each_iff _ _).mp (copies.each (name, s) member node inside) r refers
  · exact (known r (Or.inr raw)).mono copies.defines

/-- The names that references can have without a definition: those of elements that were replaced,
those that copies of elements would have, and those that the copies of such a definition would. -/
inductive Missing (dictionary : Dictionary) (options : Options) (d : Document) : String → Prop
  | removed {name} : name ∈ (replaced dictionary options d).2 → Missing dictionary options d name
  | beneath {name} : BeneathElement dictionary d.definitions options.maxDepth name →
      Missing dictionary options d name
  | copied {name} (root) : Missing dictionary options d name →
      Missing dictionary options d (name ++ copySuffix root)

/-- Copying leaves plain references. The document is closed exactly when those that have one of
these names are defined anyway; so it is closed where no element is extended and nothing refers to a
replaced element any more. -/
theorem closed_copies_iff (dictionary : Dictionary) (options : Options) (d : Document)
    (distinct : d.definitions.Distinct) (closed : d.Closed) (plain : d.Plain) :
    (run dictionary options d).1.Plain ∧
    ((run dictionary options d).1.Closed ↔ ∀ r, (run dictionary options d).1.Refers r →
      Missing dictionary options d r.name →
        r.name ∈ (run dictionary options d).1.definitions.keys) ∧
    ((∀ name base, d.definitions.Below name base → dictionary.isKind base .element = false) →
      (∀ r, (replaced dictionary options d).1.Refers r →
        r.name ∉ (replaced dictionary options d).2) →
      (run dictionary options d).1.Closed) := by
  have known (r : Reference) (refers : (run dictionary options d).1.Refers r) :=
    known_of_refers_run distinct closed plain (Missing dictionary options d)
      (fun _ _ => Missing.removed) (fun _ => Missing.beneath) (fun root _ => Missing.copied root)
      refers
  have plainRun := (Document.plain_iff _).mpr fun r refers => (known r refers).1
  rw [Document.closed_iff_of_plain plainRun]
  refine ⟨plainRun, ⟨?_, ?_⟩, fun none removed r refers => ?_⟩
  · exact fun defines r refers _ => defines r refers
  · exact fun defines r refers => (known r refers).2.elim id (defines r refers)
  · have noElement (name : String)
        (beneath : BeneathElement dictionary d.definitions options.maxDepth name) : False := by
      obtain ⟨_, _, _, entry, _, _, element, below, isElement, _⟩ := beneath
      simp [none entry.1 element below] at isElement
    have all := known_of_refers_run distinct closed plain (fun _ => False) removed noElement
      (fun _ _ => id) refers
    exact all.2.resolve_right id

def useOf (name : String) : Schema := .ofReference (.toDefinition name .definitions)

def extending (base : String) : Schema where
  children := { allOf := some [useOf base] }

/-- `Message` was generated for `Base`, whose extensions are a chain with the element `Special` in
it. -/
def messages : Document where
  raw := [("definitions", .null)]
  flavor := .definitions
  hasSlot := true
  definitions := [
    ("Message", { keywords := { type := some "object", uniqueName := some "Base" } }),
    ("Base", { keywords := { type := some "object" } }), ("Special", extending "Base"),
    ("Detailed", extending "Special")]

def specialElement : Dictionary where
  entries := [("Special", { kind := some .element })]

theorem closed_copies_iff_messages : messages.definitions.Distinct ∧ messages.Closed ∧
    messages.Plain ∧ (run specialElement {} messages).1.Plain ∧
    ((run specialElement {} messages).1.Closed ↔
      ∀ r, (run specialElement {} messages).1.Refers r → Missing specialElement {} messages r.name →
        r.name ∈ (run specialElement {} messages).1.definitions.keys) ∧
    (run {} {} messages).1.Closed := by
  have copied := closed_copies_iff specialElement {} messages (by decide) rfl (by decide)
  refine ⟨by decide, rfl, by decide, copied.1, copied.2.1, ?_⟩
  exact (closed_copies_iff {} {} messages (by decide) rfl (by decide)).2.2 (fun _ _ _ => rfl)
    fun _ _ => List.not_mem_nil

def elementNames : List String := ["E0", "E1", "E2", "E3", "E4", "E5", "E6", "E7", "E8"]

def extensionNames : List String := ["S0", "S1", "S2", "S3", "S4", "S5", "S6", "S7", "S8"]

def generated : Schema where
  keywords := { xml := some { uri := some "urn:a" }, uniqueName := some "T" }

/-- Nine elements of the type `B`, which is an element of the type `T` itself; the extensions of `T`
would be copied for each of them. -/
def catalogue : Document where
  raw := [("definitions", .null)]
  flavor := .definitions
  hasSlot := true
  definitions := elementNames.map (·, generated) ++ [("B", generated),
      ("T", { keywords := { xml := some { uri := some "urn:a" } } })] ++
    extensionNames.map (·, extending "T") ++
    [("Holder", { children := { properties := some [("e", useOf "E0")] } })]

def aliasedElements : Dictionary where
  entries := elementNames.map (·, { kind := some .element, typeName := some "B" }) ++ [
    ("B", { kind := some .element, typeName := some "T", schemaType := some "typeOf" }),
    ("T", { kind := some .typedef, typeName := some "T0", schemaType := some "typeOf" }),
    ("T0", { kind := some .type })]

/-- The copy of `Detailed` extends a copy of `Special`, which is not made; and `Holder` is turned
from `E0` to `B`, which is removed with it. -/
theorem hierarchy_copies_left_dangling :
    (messages.Closed ∧ messages.Plain ∧ ¬ (run specialElement {} messages).1.Closed) ∧
    (catalogue.Closed ∧ catalogue.Plain ∧ ¬ (run aliasedElements {} catalogue).1.Closed) := by
  refine ⟨⟨rfl, by decide, ?_⟩, ⟨rfl, by decide, ?_⟩⟩
  · intro closed
    cases closed
  · intro closed
    cases closed

end
end HierarchyCopies
end SchemaGraph
