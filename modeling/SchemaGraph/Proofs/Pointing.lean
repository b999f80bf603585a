import SchemaGraph.Proofs.Lifting

/- References as a reader of the written document follows them: segment by segment through the JSON
   value. In a closed document a reference with the document's own prefix leads to the node that was
   found for it, unless an index in it is not written plainly; one with the other prefix leads
   wherever it leads without the definitions. -/
namespace SchemaGraph

namespace Json

/-- The number that is written so, without a sign or leading zeros. -/
def index? (segment : String) : Option Nat :=
  (Schema.index? segment).filter fun n => toString n = segment

/-- The value that segments lead to. -/
def at? : List String → Json → Option Json
  | [], value => some value
  | key :: rest, obj entries => (Table.get? entries key).bind (at? rest)
  | i :: rest, arr items => ((index? i).bind fun n => items[n]?).bind (at? rest)
  | _, _ => none

/-- The value that a pointer leads to. Every '/' begins a segment. -/
def follow? (value : Json) (pointer : String) : Option Json :=
  match pointer.toList with
  | ['#'] => some value
  | '#' :: '/' :: cs =>
    value.at? ((Pointer.parts cs).map fun part => String.ofList (Pointer.unescapeChars part))
  | _ => none

end Json

namespace Schema

/-- What is written under the key of a child or of several children. -/
def childJson? (c : Children Json) : String → Option Json
  | "not" => c.not
  | "items" => c.items
  | "properties" => c.properties.map .obj
  | "allOf" => c.allOf.map .arr
  | "oneOf" => c.oneOf.map .arr
  | "anyOf" => c.anyOf.map .arr
  | "additionalProperties" => c.additional.map additionalJson
  | _ => none

/-- Nothing else is written under such a key before it. -/
theorem get?_entriesOf_child (k : Keywords) {c : Children Json} {key : String} {value : Json}
    (held : childJson? c key = some value) : (entriesOf k c).get? key = some value := by
  unfold childJson? at held
  split at held <;>
    first
      | cases held
      | (unfold entriesOf
         simp only [Table.get?_append, Json.get?_present, String.reduceEq, ↓reduceIte,
           Option.map_id_fun, id, held, Option.some_or, Option.none_or])

theorem at?_toJson_child {s : Schema} {key : String} {value : Json} (rest : List String)
    (held : childJson? (s.children.map toJson) key = some value) :
    s.toJson.at? (key :: rest) = value.at? rest := by
  obtain ⟨k, c⟩ := s
  rw [toJson_mk, Json.at?, get?_entriesOf_child k held]
  rfl

/-- Every index in the segments is written plainly. -/
def plainIndices : List String → Bool
  | [] => true
  | "properties" :: _ :: rest => plainIndices rest
  | "allOf" :: i :: rest => (Json.index? i).isSome && plainIndices rest
  | "oneOf" :: i :: rest => (Json.index? i).isSome && plainIndices rest
  | "anyOf" :: i :: rest => (Json.index? i).isSome && plainIndices rest
  | _ :: rest => plainIndices rest

/-- Reading on in a child, given how the rest is read. -/
theorem at?_toJson_single {s t : Schema} {key : String} {o : Option Schema} {rest : List String}
    (found : o.bind (descend rest) = some t)
    (written : childJson? (s.children.map toJson) key = o.map toJson)
    (deeper : ∀ child : Schema, child.descend rest = some t →
      child.toJson.at? rest = if plainIndices rest then some t.toJson else none) :
    s.toJson.at? (key :: rest) = if plainIndices rest then some t.toJson else none := by
  obtain ⟨child, held, below⟩ := Option.bind_eq_some_iff.mp found
  rw [at?_toJson_child rest (by rw [written, held]; rfl)]
  exact deeper child below

/-- Reading on in one of several children, given how the rest is read. -/
theorem at?_toJson_member {s t : Schema} {key : String} {list : Option (List Schema)} {i : String}
    {rest : List String} (found : (descend.member? list i).bind (descend rest) = some t)
    (written : childJson? (s.children.map toJson) key = (list.map (List.map toJson)).map .arr)
    (deeper : ∀ child : Schema, child.descend rest = some t →
      child.toJson.at? rest = if plainIndices rest then some t.toJson else none) :
    s.toJson.at? (key :: i :: rest) =
      if (Json.index? i).isSome && plainIndices rest then some t.toJson else none := by
  obtain ⟨child, member, below⟩ := Option.bind_eq_some_iff.mp found
  obtain ⟨members, held, indexed⟩ := Option.bind_eq_some_iff.mp member
  obtain ⟨n, read, inside⟩ := Option.bind_eq_some_iff.mp indexed
  rw [at?_toJson_child (i :: rest) (by rw [written, held]; rfl), Json.at?]
  cases plain : Json.index? i with
  | none => simp
  | some m =>
    have same : m = n := by
      rw [Json.index?, read, Option.filter_some] at plain
      split at plain
      · exact (Option.some.inj plain).symm
      · cases plain
    subst same
    simp [inside, deeper child below]

/-- What is found below a node is what is written there. -/
theorem at?_toJson {tail : List String} {s t : Schema} (found : s.descend tail = some t) :
    s.toJson.at? tail = if plainIndices tail then some t.toJson else none := by
  induction length : tail.length using Nat.strongRecOn generalizing tail s with
  | ind n ih =>
    have deeper (rest : List String) (shorter : rest.length < n) (child : Schema)
        (below : child.descend rest = some t) :
        child.toJson.at? rest = if plainIndices rest then some t.toJson else none :=
      ih rest.length shorter below rfl
    have oneOn {key : String} {rest : List String} (there : (key :: rest).length = n) :
        rest.length < n := there ▸ Nat.lt_succ_self _
    have twoOn {key i : String} {rest : List String} (there : (key :: i :: rest).length = n) :
        rest.length < n := Nat.lt_of_succ_lt (oneOn there)
    cases tail, s using descend.induct with
    | case1 s =>
      cases found
      rfl
    | case2 rest s | case3 rest s =>
      exact at?_toJson_single found rfl (deeper rest (oneOn length))
    | case4 rest s =>
      refine at?_toJson_single found ?_ (deeper rest (oneOn length))
      obtain ⟨child, inner, below⟩ := Option.bind_eq_some_iff.mp found
      obtain ⟨additional, held, isSchema⟩ := Option.bind_eq_some_iff.mp inner
      cases additional with
      | flag allowed => cases isSchema
      | schema value =>
        cases isSchema
        simp [childJson?, Children.map, held, Additional.map, additionalJson, Additional.schema?]
    | case5 key rest s =>
      obtain ⟨child, inner, below⟩ := Option.bind_eq_some_iff.mp found
      obtain ⟨table, held, entry⟩ := Option.bind_eq_some_iff.mp inner
      have written : childJson? (s.children.map toJson) "properties" =
          some (.obj (Table.mapValues toJson table)) := by
        simp [childJson?, Children.map, held]
      rw [at?_toJson_child _ written, Json.at?, Table.get?_mapValues, entry]
      exact deeper rest (twoOn length) child below
    | case6 i rest s | case7 i rest s | case8 i rest s =>
      exact at?_toJson_member found rfl (deeper rest (twoOn length))
    | case9 tail s h1 h2 h3 h4 h5 h6 h7 h8 =>
      rw [descend.eq_9 tail s h1 h2 h3 h4 h5 h6 h7 h8] at found
      cases found

end Schema

theorem Flavor.segments_of_ofSegments? {segments rest : List String} {flavor : Flavor}
    (read : ofSegments? segments = some (flavor, rest)) : segments = flavor.segments ++ rest := by
  unfold ofSegments? at read
  split at read
  · cases read
    rfl
  · cases read
    rfl
  · cases read

/-- The text of a reference is followed along what it is read as. -/
theorem Reference.follow?_raw (r : Reference) (value : Json) :
    value.follow? r.raw = value.at? (r.flavor.segments ++ r.name :: r.tail) := by
  have located := r.located
  unfold locate? at located
  split at located
  · rename_i cs text
    have segments := Flavor.segments_of_ofSegments? located
    have body : Pointer.dropHead '/' (Pointer.dropHead '#' r.raw.toList) = cs := by
      rw [text]
      simp [Pointer.dropHead]
    have filled : cs ≠ [] := by
      intro empty
      rw [Pointer.split, body, if_pos empty] at segments
      cases flavor : r.flavor <;> simp [flavor, Flavor.segments] at segments
    rw [Pointer.split, body, if_neg filled] at segments
    rw [← segments]
    unfold Json.follow?
    rw [text]
    rfl
  · cases located

namespace Document
variable {d : Document}

theorem at?_definitions (definitions : Definitions) (name : String) (tail : List String) :
    (Definitions.toJson definitions).at? (name :: tail) =
      (definitions.get? name).bind fun s => s.toJson.at? tail := by
  rw [Definitions.toJson, Json.at?, Table.get?_mapValues]
  cases definitions.get? name <;> rfl

/-- The document's own prefix leads to its definitions. -/
theorem at?_toJson_own (lifted : d.Lifted) (filled : d.definitions ≠ []) (name : String)
    (tail : List String) : d.toJson.at? (d.flavor.segments ++ name :: tail) =
      (d.definitions.get? name).bind fun s => s.toJson.at? tail := by
  rw [← at?_definitions]
  rcases lifted.toJson_eq filled with ⟨flavored, written⟩ | ⟨flavored, _, components, written⟩
  · rw [written, flavored, Flavor.segments, List.singleton_append, Json.at?, Table.get?_put,
      if_pos rfl, Option.bind_some]
  · rw [written, flavored, Flavor.segments, List.cons_append, List.singleton_append, Json.at?,
      Table.get?_put, if_pos rfl, Option.bind_some, Json.at?, Table.get?_put, if_pos rfl,
      Option.bind_some]

/-- The other prefix leads past them. -/
theorem at?_toJson_other (lifted : d.Lifted) (filled : d.definitions ≠ []) {flavor : Flavor}
    (other : flavor ≠ d.flavor) (rest : List String) :
    d.toJson.at? (flavor.segments ++ rest) = (Json.obj d.raw).at? (flavor.segments ++ rest) := by
  rcases lifted.toJson_eq filled with ⟨flavored, written⟩ | ⟨flavored, _, components, written⟩
  · cases flavor with
    | definitions => exact absurd flavored.symm other
    | components =>
      rw [written, Flavor.segments, List.cons_append, Json.at?, Json.at?, Table.get?_put]
      rfl
  · cases flavor with
    | definitions =>
      rw [written, Flavor.segments, List.cons_append, Json.at?, Json.at?, Table.get?_put]
      rfl
    | components => exact absurd flavored.symm other

/-- A closed document gives every reference a node. Followed through what is written, a reference
with the document's prefix leads to that node as it is written, an object, provided that its indices
are written plainly, and otherwise nowhere. A reference with the other prefix leads where it leads
in the raw part. -/
theorem followed_references (d : Document) (lifted : d.Lifted) (closed : d.Closed) {r : Reference}
    (refers : d.Refers r) : ∃ t, d.definitions.target? r = some t ∧
      (∃ entries, t.toJson = .obj entries) ∧
      d.toJson.follow? r.raw = if r.flavor = d.flavor then
          if Schema.plainIndices r.tail then some t.toJson else none
        else (Json.obj d.raw).follow? r.raw := by
  rw [closed_iff] at closed
  obtain ⟨t, meant⟩ := Option.isSome_iff_exists.mp (closed r refers)
  refine ⟨t, meant, ?_, ?_⟩
  · obtain ⟨k, c⟩ := t
    exact ⟨_, Schema.toJson_mk k c⟩
  · obtain ⟨s, named, below⟩ := Option.bind_eq_some_iff.mp meant
    have filled : d.definitions ≠ [] := by
      intro empty
      rw [empty] at named
      cases named
    rw [r.follow?_raw, r.follow?_raw]
    split
    · rename_i same
      rw [same, at?_toJson_own lifted filled, named]
      exact Schema.at?_toJson below
    · rename_i other
      exact at?_toJson_other lifted filled other _

/-- One property has the prefix of the other kind of document. -/
def twoPrefixes : Document where
  raw := [("definitions", .null)]
  flavor := .definitions
  hasSlot := true
  definitions :=
    let own : Schema := .ofReference (.toDefinition "A" .definitions)
    let other : Schema := .ofReference (.toDefinition "A" .components)
    [("A", { keywords := { type := some "string" } }),
      ("B", { children := { properties := some [("a", other), ("b", own)] } })]

theorem lifted_twoPrefixes : twoPrefixes.Lifted := .definitions rfl rfl rfl

theorem refers_twoPrefixes (flavor : Flavor) : twoPrefixes.Refers (.toDefinition "A" flavor) := by
  rw [refers_iff]
  cases flavor with
  | definitions => exact ⟨["b", "properties", "B", "definitions"], by decide⟩
  | components => exact ⟨["a", "properties", "B", "definitions"], by decide⟩

theorem followed_references_twoPrefixes :
    twoPrefixes.Lifted ∧ twoPrefixes.Closed ∧ twoPrefixes.Refers (.toDefinition "A" .definitions) ∧
    ∃ t, twoPrefixes.definitions.target? (.toDefinition "A" .definitions) = some t ∧
      (∃ entries, t.toJson = .obj entries) ∧
      twoPrefixes.toJson.follow? "#/definitions/A" = some t.toJson := by
  obtain ⟨t, meant, written, followed⟩ := followed_references twoPrefixes lifted_twoPrefixes rfl
    (refers_twoPrefixes .definitions)
  exact ⟨lifted_twoPrefixes, rfl, refers_twoPrefixes .definitions, t, meant, written, followed⟩

theorem other_prefix_leads_nowhere : twoPrefixes.Lifted ∧ twoPrefixes.Closed ∧
    twoPrefixes.Refers (.toDefinition "A" .components) ∧
    twoPrefixes.toJson.follow? "#/components/schemas/A" = none :=
  ⟨lifted_twoPrefixes, rfl, refers_twoPrefixes .components, rfl⟩

/-- A signed index is found, and leads nowhere in what is written. -/
example : Schema.index? "+0" = some 0 ∧ Json.index? "+0" = none := by decide

end Document
end SchemaGraph
