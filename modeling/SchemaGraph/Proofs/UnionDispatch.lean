import Mathlib.Data.List.Pairwise
import SchemaGraph.Proofs.RelatedWalks
import SchemaGraph.Proofs.ShapeChains

/- How unions dispatch. The mapping of a union is read off the list of its entries, whatever names
   collide; a run that also records every node that it makes shows that each union dispatches when
   it is made. -/
namespace SchemaGraph.TypeExpansion

theorem localName?_append (before : List Char) {after : List Char} (absent : '\x7d' ∉ after) :
    localName? (before ++ '\x7d' :: after) = some after := by
  have braced : (before ++ '\x7d' :: after).contains '\x7d' = true := by simp
  have kept : ∀ c ∈ after.reverse, (c != '\x7d') = true := by
    intro c member
    rw [bne_iff_ne]
    rintro rfl
    exact absent (List.mem_reverse.mp member)
  rw [localName?, if_pos braced, List.reverse_append, List.reverse_cons, List.append_assoc,
    List.takeWhile_append_of_pos kept]
  simp

/-- The part after the last closing brace is what the name ends with after one, and holds none. -/
theorem localName?_eq_some_iff (name after : List Char) : localName? name = some after ↔
    ∃ before, name = before ++ '\x7d' :: after ∧ '\x7d' ∉ after := by
  constructor
  · intro found
    have braced : '\x7d' ∈ name.reverse := by
      by_contra absent
      rw [localName?, if_neg (by simpa using absent)] at found
      cases found
    obtain ⟨later, earlier, split, absent⟩ := List.eq_append_cons_of_mem braced
    have whole : name = earlier.reverse ++ '\x7d' :: later.reverse := by
      simpa using congrArg List.reverse split
    have absent : '\x7d' ∉ later.reverse := by simpa using absent
    rw [whole, localName?_append _ absent] at found
    rw [← Option.some.inj found]
    exact ⟨_, whole, absent⟩
  · rintro ⟨before, rfl, absent⟩
    exact localName?_append before absent

/-- The name is to select the member: it is the name of the member's type or the part of that after
its last closing brace, the reference as written, or the definition's name. -/
def Selects (graph : Definitions) (member : Reference) (name : String) : Prop :=
  ∃ target xsiType, graph.target? member = some target ∧ target.xsiTypeName? = some xsiType ∧
    (name = xsiType ∨ (∃ before, xsiType.toList = before ++ '\x7d' :: name.toList ∧
      '\x7d' ∉ name.toList) ∨ name = member.raw ∨ name = member.name)

/-- The member has a type that is not abstract. -/
def Concrete (graph : Definitions) (member : Reference) : Prop :=
  ∃ target xsiType, graph.target? member = some target ∧ target.xsiTypeName? = some xsiType

section
variable (graph : Definitions)

/-- What is put into a mapping for a member. -/
def memberEntries (isFirst : Bool) (member : Reference) : List (String × String) :=
  match (graph.target? member).bind Schema.xsiTypeName? with
  | some xsiType => (memberNames isFirst member xsiType).map (·, member.raw)
  | none => []

/-- What is put into a mapping, in order. -/
def mappingEntries : Bool → List Reference → List (String × String)
  | _, [] => []
  | isFirst, member :: rest => memberEntries graph isFirst member ++ mappingEntries false rest

theorem mapping_of_ok {location : String} {isFirst : Bool} {start t : Table String}
    {members : List Reference} (mapped : mapping graph location isFirst start members = .ok t) :
    (∀ member ∈ members, (graph.target? member).isSome) ∧
      t = (mappingEntries graph isFirst members).foldl (fun t e => t.put e.1 e.2) start := by
  induction members generalizing isFirst start with
  | nil => exact ⟨nofun, (Except.ok.inj mapped).symm⟩
  | cons member rest ih =>
    rw [mapping] at mapped
    obtain ⟨target, resolved, mapped⟩ := of_bind_eq_ok mapped
    have meant := Definitions.target?_of_resolve resolved
    obtain ⟨others, put⟩ := ih mapped
    refine ⟨List.forall_mem_cons.mpr ⟨by rw [meant]; rfl, others⟩, ?_⟩
    rw [put, mappingEntries, List.foldl_append, memberEntries, meant, Option.bind_some]
    cases target.xsiTypeName? with
    | none => rfl
    | some xsiType =>
      dsimp only
      rw [List.foldl_map]

theorem mem_memberNames_iff (isFirst : Bool) (member : Reference) (xsiType name : String) :
    name ∈ memberNames isFirst member xsiType ↔ isFirst = true ∧ name = "" ∨
      (name = xsiType ∨ (∃ before, xsiType.toList = before ++ '\x7d' :: name.toList ∧
        '\x7d' ∉ name.toList) ∨ name = member.raw ∨ name = member.name) := by
  have part : name ∈ ((localName? xsiType.toList).map String.ofList).toList ↔
      ∃ before, xsiType.toList = before ++ '\x7d' :: name.toList ∧ '\x7d' ∉ name.toList := by
    rw [← localName?_eq_some_iff, Option.mem_toList, Option.map_eq_some_iff]
    constructor
    · rintro ⟨l, found, rfl⟩
      rw [String.toList_ofList]
      exact found
    · intro found
      exact ⟨name.toList, found, String.ofList_toList⟩
  have first : name ∈ (if isFirst then [""] else []) ↔ isFirst = true ∧ name = "" := by
    cases isFirst <;> simp
  rw [memberNames]
  simp only [List.mem_append, List.mem_cons, List.not_mem_nil, or_false, part, first, or_assoc]

theorem mem_memberEntries_iff {isFirst : Bool} {member : Reference} {name value : String} :
    (name, value) ∈ memberEntries graph isFirst member ↔ value = member.raw ∧
      (Selects graph member name ∨ isFirst = true ∧ name = "" ∧ Concrete graph member) := by
  rw [memberEntries]
  cases meant : graph.target? member with
  | none => simp [Selects, Concrete, meant]
  | some target =>
    cases typed : target.xsiTypeName? with
    | none => simp [Selects, Concrete, meant, typed]
    | some xsiType =>
      have listed : (name, value) ∈ (memberNames isFirst member xsiType).map (·, member.raw) ↔
          value = member.raw ∧ name ∈ memberNames isFirst member xsiType := by
        simp only [List.mem_map, Prod.mk.injEq]
        constructor
        · rintro ⟨_, inside, rfl, rfl⟩
          exact ⟨rfl, inside⟩
        · rintro ⟨rfl, inside⟩
          exact ⟨name, inside, rfl, rfl⟩
      simp only [Option.bind_some, typed, listed, mem_memberNames_iff]
      refine and_congr_right fun _ => ?_
      simp only [Selects, Concrete, meant, Option.some.injEq, exists_and_left, exists_eq_left',
        typed, exists_eq', and_true]
      exact or_comm

theorem mem_mappingEntries_iff (isFirst : Bool) (members : List Reference) (name value : String) :
    (name, value) ∈ mappingEntries graph isFirst members ↔
      (∃ member ∈ members, Selects graph member name ∧ value = member.raw) ∨
        isFirst = true ∧ name = "" ∧ ∃ first, members.head? = some first ∧ Concrete graph first ∧
          value = first.raw := by
  induction members generalizing isFirst with
  | nil => simp [mappingEntries]
  | cons member rest ih =>
    rw [mappingEntries, List.mem_append, ih, mem_memberEntries_iff]
    simp only [Bool.false_eq_true, false_and, or_false, List.mem_cons, exists_eq_or_imp,
      List.head?_cons, Option.some.injEq, exists_eq_left']
    rw [or_right_comm]
    refine or_congr_left ?_
    constructor
    · rintro ⟨value, selects | ⟨first, empty, concrete⟩⟩
      · exact Or.inl ⟨selects, value⟩
      · exact Or.inr ⟨first, empty, concrete, value⟩
    · rintro (⟨selects, value⟩ | ⟨first, empty, concrete, value⟩)
      · exact ⟨value, Or.inl selects⟩
      · exact ⟨value, Or.inr ⟨first, empty, concrete⟩⟩

end

/-- No name is to select both. -/
def Apart (graph : Definitions) (a b : Reference) : Prop :=
  ∀ name, ¬ (Selects graph a name ∧ Selects graph b name)

instance (graph : Definitions) : Std.Symm (Apart graph) :=
  ⟨fun _ _ apart name both => apart name both.symm⟩

/-- How the mapping of a union is to dispatch over its members. -/
structure Dispatches (graph : Definitions) (members : List Reference) (t : Table String) :
    Prop where
  /-- Every value stands for a member that there is. -/
  values : ∀ name value, (name, value) ∈ t →
    ∃ member ∈ members, value = member.raw ∧ (graph.target? member).isSome
  /-- Every name that is to select a member is a key. -/
  keys : ∀ member ∈ members, ∀ name, Selects graph member name → name ∈ t.keys
  /-- Names that are to select one member only, and are not empty, select that member. -/
  own : members.Pairwise (Apart graph) → (∀ member ∈ members, ¬ Selects graph member "") →
    ∀ member ∈ members, ∀ name, Selects graph member name → t.get? name = some member.raw
  /-- Where the empty name is no member's, it selects the first one if that is concrete. -/
  empty : (∀ member ∈ members, ¬ Selects graph member "") →
    ∀ first, members.head? = some first →
      (Concrete graph first → t.get? "" = some first.raw) ∧
        (¬ Concrete graph first → t.get? "" = none)
  /-- No other name is a key. -/
  only : ∀ name ∈ t.keys, name = "" ∨ ∃ member ∈ members, Selects graph member name

section
variable {graph : Definitions} {members : List Reference}

theorem mem_mapping {name value : String}
    (listed : (name, value) ∈ Table.ofList (mappingEntries graph true members)) :
    (∃ member ∈ members, Selects graph member name ∧ value = member.raw) ∨
      name = "" ∧ ∃ first, members.head? = some first ∧ Concrete graph first ∧
        value = first.raw := by
  have entry := (mem_mappingEntries_iff graph true members name value).mp
    (Table.mem_of_mem_ofList _ listed)
  exact entry.imp_right And.right

theorem get?_mapping_of_selects (apart : members.Pairwise (Apart graph))
    (noneEmpty : ∀ member ∈ members, ¬ Selects graph member "") {member : Reference}
    (inside : member ∈ members) {name : String} (selects : Selects graph member name) :
    (Table.ofList (mappingEntries graph true members)).get? name = some member.raw := by
  have entries (value : String) := mem_mappingEntries_iff graph true members name value
  refine Table.get?_ofList_of_agree
    ((entries _).mpr (Or.inl ⟨member, inside, selects, rfl⟩)) fun other listed => ?_
  rcases (entries other).mp listed with ⟨also, alsoInside, selectsAlso, rfl⟩ | ⟨_, rfl, _⟩
  · -- An entry that disagrees is one of another member, which the name is to select as well.
    by_contra differs
    have different : member ≠ also := fun same => differs (same ▸ rfl)
    exact apart.forall inside alsoInside different name ⟨selects, selectsAlso⟩
  · exact absurd selects (noneEmpty member inside)

theorem get?_mapping_empty (noneEmpty : ∀ member ∈ members, ¬ Selects graph member "")
    {first : Reference} (head : members.head? = some first) :
    (Concrete graph first →
      (Table.ofList (mappingEntries graph true members)).get? "" = some first.raw) ∧
    (¬ Concrete graph first →
      (Table.ofList (mappingEntries graph true members)).get? "" = none) := by
  have entries (value : String) : ("", value) ∈ mappingEntries graph true members ↔
      Concrete graph first ∧ value = first.raw := by
    rw [mem_mappingEntries_iff]
    constructor
    · rintro (⟨member, inside, selects, _⟩ | ⟨_, _, other, here, concrete, rfl⟩)
      · exact absurd selects (noneEmpty member inside)
      · obtain rfl := Option.some.inj (head.symm.trans here)
        exact ⟨concrete, rfl⟩
    · rintro ⟨concrete, rfl⟩
      exact Or.inr ⟨rfl, rfl, first, head, concrete, rfl⟩
  constructor
  · intro concrete
    exact Table.get?_ofList_of_agree ((entries _).mpr ⟨concrete, rfl⟩)
      fun other listed => ((entries other).mp listed).2
  · intro abstract
    rw [Table.get?_eq_none_iff]
    intro known
    obtain ⟨value, listed⟩ := (Table.mem_keys_iff _ _).mp known
    exact abstract ((entries value).mp (Table.mem_of_mem_ofList _ listed)).1

theorem dispatches_of_mapping {location : String} {t : Table String}
    (mapped : mapping graph location true [] members = .ok t) : Dispatches graph members t := by
  obtain ⟨meant, rfl⟩ := mapping_of_ok graph mapped
  change Dispatches graph members (Table.ofList (mappingEntries graph true members))
  constructor
  · intro name value listed
    rcases mem_mapping listed with ⟨member, inside, _, rfl⟩ | ⟨_, first, head, _, rfl⟩
    · exact ⟨member, inside, rfl, meant member inside⟩
    · have inside := List.mem_of_mem_head? head
      exact ⟨first, inside, rfl, meant first inside⟩
  · intro member inside name selects
    have entry := (mem_mappingEntries_iff graph true members name member.raw).mpr
      (Or.inl ⟨member, inside, selects, rfl⟩)
    exact Table.mem_keys_ofList entry
  · intro apart noneEmpty member inside name selects
    exact get?_mapping_of_selects apart noneEmpty inside selects
  · intro noneEmpty first head
    exact get?_mapping_empty noneEmpty head
  · intro name known
    obtain ⟨value, listed⟩ := (Table.mem_keys_iff _ _).mp known
    rcases mem_mapping listed with ⟨member, inside, selects, _⟩ | ⟨empty, _⟩
    · exact Or.inr ⟨member, inside, selects⟩
    · exact Or.inl empty

end

/-- An expansion: the graph and the place where a node with the shape `typeOf` became another
one. -/
structure Expansion where
  graph : Definitions
  position : Position
  node : Schema
  typeOf : Reference
  made : Schema

/-- The node that was made is a union of the last shape and its extensions, and its mapping
dispatches over them in the graph as it was. -/
def Expansion.Dispatches (x : Expansion) : Prop :=
  ∃ targets final t, Chain x.graph x.typeOf targets final ∧
    x.made.children.oneOf = some ((unionMembers x.node targets final).map Schema.ofReference) ∧
    x.made.keywords.discriminator =
      some { propertyName := some discriminatorProperty, mapping := some t } ∧
    TypeExpansion.Dispatches x.graph (unionMembers x.node targets final) t

theorem dispatches_of_expand {dictionary : Dictionary} {maxDepth : Nat} {graph : Definitions}
    {p : Position} {s made : Schema} {typeOf : Reference}
    (expanded : expand dictionary maxDepth graph p s typeOf = .ok made)
    (union : IsUnion dictionary made) : Expansion.Dispatches ⟨graph, p, s, typeOf, made⟩ := by
  obtain ⟨targets, final, target, chain, _, ⟨plain, rfl⟩ | ⟨_, t, mapped, rfl⟩⟩ :=
    expand_of_ok expanded
  · exact absurd union plain
  · exact ⟨targets, final, t, chain, rfl, rfl, dispatches_of_mapping mapped⟩

section
variable (dictionary : Dictionary) (maxDepth : Nat)

/-- The hook that also records what it does. -/
def recordAfter (graph : Definitions) (p : Position) (s : Schema) :
    ExceptT Error (StateM (Bool × List Expansion)) Schema := do
  match s.keywords.typeOf with
  | none => return s
  | some typeOf =>
    let made ← expand dictionary maxDepth graph p s typeOf
    modify fun (_, record) => (true, record ++ [⟨graph, p, s, typeOf, made⟩])
    return made

/-- The rounds, with a record of all that they expand. -/
def recordAll : Nat → Document → List Expansion → (Document × Except Error Unit) × List Expansion
  | rounds, d, record =>
    let ((d, result), (expanded, record)) :=
      (d.walkAfterM (recordAfter dictionary maxDepth)).run (false, record)
    match result, expanded, rounds with
    | .error e, _, _ => ((d, .error e), record)
    | .ok _, false, _ => ((d, .ok ()), record)
    | .ok _, true, 0 => ((d, .error (.depthExceeded d.flavor.root maxDepth)), record)
    | .ok _, true, rounds + 1 => recordAll rounds d record

end

/-- Recording changes nothing else, and what is added to the record satisfies the predicate. -/
def recording (good : Expansion → Prop) :
    Likeness (StateM (Bool × List Expansion)) (StateM Bool) where
  Alike p x y := ∀ noted record, ∃ a after added, p a ∧ (∀ e ∈ added, good e) ∧
    x.run (noted, record) = (a, (after, record ++ added)) ∧ y.run noted = (a, after)
  pure {α p a} h noted record := ⟨a, noted, [], h, nofun, by simp; rfl, rfl⟩
  bind hx hf noted record := by
    obtain ⟨a, between, first, holds, goodFirst, recorded, ran⟩ := hx noted record
    obtain ⟨b, after, later, holdsLater, goodLater, recordedLater, ranLater⟩ :=
      hf a holds between (record ++ first)
    refine ⟨b, after, first ++ later, holdsLater, List.forall_mem_append.mpr ⟨goodFirst, goodLater⟩,
      ?_, ?_⟩
    · rw [StateT.run_bind, recorded]
      exact recordedLater.trans (by rw [List.append_assoc])
    · rw [StateT.run_bind, ran]
      exact ranLater

section
variable (dictionary : Dictionary) (maxDepth : Nat)

/-- What is recorded is an expansion, and a union among them dispatches. -/
def Sensible (x : Expansion) : Prop :=
  expand dictionary maxDepth x.graph x.position x.node x.typeOf = .ok x.made ∧
    (IsUnion dictionary x.made → x.Dispatches)

theorem recordAfter_alike (graph : Definitions) (p : Position) (s : Schema) :
    (recording (Sensible dictionary maxDepth)).throwing.Alike (fun _ => True)
      (recordAfter dictionary maxDepth graph p s) (after dictionary maxDepth graph p s) := by
  let like := (recording (Sensible dictionary maxDepth)).throwing
  rw [recordAfter, after]
  cases s.keywords.typeOf with
  | none => exact like.pure trivial
  | some typeOf =>
    have lifted : like.Alike (fun made => expand dictionary maxDepth graph p s typeOf = .ok made)
        (liftM (expand dictionary maxDepth graph p s typeOf))
        (liftM (expand dictionary maxDepth graph p s typeOf)) := by
      refine (recording (Sensible dictionary maxDepth)).pure ?_
      cases expand dictionary maxDepth graph p s typeOf with
      | ok made => rfl
      | error e => trivial
    refine like.bind lifted fun made expanded => ?_
    have noted : like.Alike (fun _ => True)
        (modify fun (_, record) => (true, record ++ [⟨graph, p, s, typeOf, made⟩]))
        (set true) := by
      intro _ record
      refine ⟨.ok ⟨⟩, true, [⟨graph, p, s, typeOf, made⟩], trivial, ?_, rfl, rfl⟩
      exact List.forall_mem_singleton.mpr ⟨expanded, dispatches_of_expand expanded⟩
    exact like.bind noted fun _ _ => like.pure trivial

theorem recordRound_alike (d : Document) :
    (recording (Sensible dictionary maxDepth)).Alike (fun _ => True)
      (d.walkAfterM (recordAfter dictionary maxDepth))
      (d.walkAfterM (after dictionary maxDepth)) := by
  let like := recording (Sensible dictionary maxDepth)
  refine like.bind (like.walkFrom d.flavor 0 (fun graph levels position s => ?_) [] d.definitions)
    fun out _ => like.pure trivial
  exact like.throwing.walk Schema.hereditary_true
    (fun position s _ => recordAfter_alike dictionary maxDepth graph position s) levels position
    trivial

theorem recordAll_alike (rounds : Nat) (d : Document) (record : List Expansion) :
    ∃ added, (∀ x ∈ added, Sensible dictionary maxDepth x) ∧
      recordAll dictionary maxDepth rounds d record =
        (expandAll dictionary maxDepth rounds d, record ++ added) := by
  induction rounds generalizing d record with
  | zero =>
    obtain ⟨⟨left, result⟩, noted, added, _, good, recorded, ran⟩ :=
      recordRound_alike dictionary maxDepth d false record
    refine ⟨added, good, ?_⟩
    rw [recordAll, expandAll, recorded, ran]
    cases result with
    | error e => rfl
    | ok _ => cases noted <;> rfl
  | succ rounds ih =>
    obtain ⟨⟨left, result⟩, noted, added, _, good, recorded, ran⟩ :=
      recordRound_alike dictionary maxDepth d false record
    rw [recordAll, expandAll, recorded, ran]
    cases result with
    | error e => exact ⟨added, good, rfl⟩
    | ok _ =>
      cases noted with
      | false => exact ⟨added, good, rfl⟩
      | true =>
        obtain ⟨more, goodMore, same⟩ := ih left (record ++ added)
        refine ⟨added ++ more, List.forall_mem_append.mpr ⟨good, goodMore⟩, ?_⟩
        rw [← List.append_assoc]
        exact same

end

/-- All that a run expands, in order. -/
def expansions (dictionary : Dictionary) (options : Options) (d : Document) : List Expansion :=
  (recordAll dictionary options.maxDepth options.maxDepth d []).2

/-- The run that records its expansions comes to the same document and the same end, and each union
that it makes lists the last shape and its extensions and dispatches over them when it is made. -/
theorem unions_dispatch (dictionary : Dictionary) (options : Options) (d : Document) :
    (recordAll dictionary options.maxDepth options.maxDepth d []).1 =
        expandAll dictionary options.maxDepth options.maxDepth d ∧
      ∀ x ∈ expansions dictionary options d,
        expand dictionary options.maxDepth x.graph x.position x.node x.typeOf = .ok x.made ∧
          (IsUnion dictionary x.made → x.Dispatches) := by
  obtain ⟨added, good, same⟩ := recordAll_alike dictionary options.maxDepth options.maxDepth d []
  rw [expansions, same]
  exact ⟨rfl, good⟩

/-- A `Trip` has the shape of a `Vehicle`, which is a `Vehicle` or a `Car`. -/
def trips : Document where
  raw := [("definitions", .null)]
  flavor := .definitions
  hasSlot := true
  definitions :=
    let named (name : String) : Reference := .toDefinition name .definitions
    [("Trip", { keywords := {
        typeOf := some (named "Vehicle"), descendants := some [named "Car"] } }),
      ("Vehicle", { keywords := {
        type := some "object", polymorphic := some (.bool true), xsiType := some "Vehicle",
        xsiTypeXml := some { uri := some "urn:s" } } }),
      ("Car", { keywords := { xsiType := some "CarType" } })]

theorem unions_dispatch_trips : ∃ x ∈ expansions { unions := true } {} trips,
    IsUnion { unions := true } x.made ∧ x.Dispatches ∧
      (x.made.keywords.discriminator.bind (·.mapping)).map Table.keys =
        some ["", "\x7burn:s\x7dVehicle", "Vehicle", "#/definitions/Vehicle", "CarType",
          "#/definitions/Car", "Car"] := by
  have all := (unions_dispatch { unions := true } {} trips).2
  obtain ⟨x, one⟩ : ∃ x, expansions { unions := true } {} trips = [x] := ⟨_, rfl⟩
  have listed : x ∈ expansions { unions := true } {} trips := by simp [one]
  have made : (expansions { unions := true } {} trips).map (·.made.keywords.polymorphic) =
      [some (.bool true)] := rfl
  have mapped : (expansions { unions := true } {} trips).map
      (fun x => (x.made.keywords.discriminator.bind (·.mapping)).map Table.keys) =
        [some ["", "\x7burn:s\x7dVehicle", "Vehicle", "#/definitions/Vehicle", "CarType",
          "#/definitions/Car", "Car"]] := by decide +kernel
  rw [one, List.map_singleton, List.singleton_inj] at made mapped
  have union : IsUnion { unions := true } x.made := ⟨rfl, by rw [made]; rfl⟩
  exact ⟨x, listed, union, (all x listed).2 union, mapped⟩

end SchemaGraph.TypeExpansion
