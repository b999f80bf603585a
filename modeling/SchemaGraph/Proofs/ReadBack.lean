import SchemaGraph.Proofs.Lifting
import SchemaGraph.Proofs.Readable

/- Reading back what was written. The entries of a node are read one by one, each of them sets what
   it was written from, and nothing else is set; so a readable schema is what its JSON reads as. -/
namespace SchemaGraph

namespace Table
variable {α : Type}

theorem putSorted_of_above {t : Table α} {k : String} (above : ∀ key ∈ t.keys, key < k) (v : α) :
    t.putSorted k v = t ++ [(k, v)] := by
  induction t with
  | nil => rfl
  | cons entry rest ih =>
    obtain ⟨k₁, v₁⟩ := entry
    obtain ⟨first, later⟩ := List.forall_mem_cons.mp above
    have differs : k₁ ≠ k := fun same => String.lt_irrefl k (same ▸ first)
    rw [putSorted, if_neg differs, if_neg (String.lt_asymm first), ih later, List.cons_append]

theorem put_put (t : Table α) (k : String) (v w : α) : (t.put k v).put k w = t.put k w := by
  induction t with
  | nil => simp [put]
  | cons entry rest ih =>
    obtain ⟨k₁, v₁⟩ := entry
    by_cases known : k₁ = k
    · simp [put, known]
    · simp [put, known, ih]

/-- Nothing changes when a key is given the value that it has. -/
theorem put_of_get? {t : Table α} {k : String} {v : α} (held : t.get? k = some v) :
    t.put k v = t := by
  induction t with
  | nil => cases held
  | cons entry rest ih =>
    obtain ⟨k₁, v₁⟩ := entry
    rw [get?] at held
    split at held
    · rename_i known
      cases held
      rw [put, if_pos known, known]
    · rename_i other
      rw [put, if_neg other, ih held]

theorem overSorted_append {t top : Table Json} (ascending : Ascending (t ++ top)) :
    top.overSorted t = t ++ top := by
  unfold overSorted
  induction top generalizing t with
  | nil => rw [List.foldl_nil, List.append_nil]
  | cons entry rest ih =>
    have above : ∀ key ∈ t.keys, key < entry.1 := by
      rw [Ascending, keys_append] at ascending
      exact fun key listed => (List.pairwise_append.mp ascending).2.2 key listed entry.1 (by simp [keys])
    have joined : t ++ entry :: rest = (t ++ [entry]) ++ rest := by simp
    rw [joined] at ascending ⊢
    change List.foldl _ (t.putSorted entry.1 entry.2) rest = _
    rw [putSorted_of_above above, ih ascending]

/-- Entries in order, put into an empty table one by one, are the table. -/
theorem overSorted_nil {t : Table Json} (ascending : t.Ascending) : t.overSorted [] = t :=
  overSorted_append (t := []) ascending

theorem Beside.get? {named : List String} {t : Table α} (h : t.Beside named) {key : String}
    (listed : key ∈ named) : t.get? key = none :=
  (get?_eq_none_iff t key).mpr fun there => h.other key there listed

end Table

namespace Json
variable {α : Type}

theorem others_append (entries more : Table Json) (named : List String) :
    others (entries ++ more) named =
      more.foldl (fun t (key, value) => if named.contains key then t else t.putSorted key value)
        (others entries named) := List.foldl_append

/-- A named entry is none of the others. -/
theorem others_append_present (entries : Table Json) {named : List String} {key : String}
    (listed : key ∈ named) (value : Option α) (write : α → Json) :
    others (entries ++ present key value write) named = others entries named := by
  rw [others_append]
  cases value with
  | none => rfl
  | some v => simp [present, listed]

theorem others_append_beside (entries : Table Json) {named : List String} {extra : Table Json}
    (beside : extra.Beside named) :
    others (entries ++ extra) named = extra.overSorted (others entries named) := by
  rw [others_append, Table.overSorted]
  refine List.foldl_ext _ _ _ fun t entry member => ?_
  have other := beside.other entry.1 (List.mem_map_of_mem member)
  simp [other]

theorem readReference_raw {r : Reference} (named : r.name ≠ "") :
    readReference (.str r.raw) = .ok r := by
  rw [readReference, Reference.parse?_raw named]

theorem readReferenceRecord_ofReferenceRecord {r : Reference} (named : r.name ≠ "") :
    readReferenceRecord (ofReferenceRecord r) = .ok r := readReference_raw named

theorem mapM_map_eq_ok {β : Type} {read : β → Except Fault α} {write : α → β} {l : List α}
    (back : ∀ a ∈ l, read (write a) = .ok a) : (l.map write).mapM read = .ok l := by
  induction l with
  | nil => rfl
  | cons a rest ih =>
    obtain ⟨first, later⟩ := List.forall_mem_cons.mp back
    rw [List.map_cons, List.mapM_cons, first, ih later]
    rfl

theorem readList_arr {read : Json → Except Fault α} {write : α → Json} {l : List α}
    (back : ∀ a ∈ l, read (write a) = .ok a) : readList read (.arr (l.map write)) = .ok l :=
  mapM_map_eq_ok back

theorem readTable_obj (t : Table String) : readTable readText (.obj (t.mapValues .str)) = .ok t :=
  mapM_map_eq_ok fun _ _ => rfl

theorem readOption_eq_ok {read : Json → Except Fault α} {value : Json} {v : α}
    (there : value ≠ .null) (back : read value = .ok v) :
    readOption read value = .ok (some v) := by
  cases value with
  | null => exact absurd rfl there
  | _ =>
    rw [readOption, back]
    · rfl
    · exact there

end Json
/-- A field is read back from the value that was written of it. -/
theorem Json.field?_eq_ok {α : Type} {read : Json → Except Fault α} (write : α → Json)
    {entries : Table Json} {key : String} {value : Option α}
    (held : entries.get? key = value.map write)
    (back : ∀ v, readOption read (write v) = .ok (some v)) :
    field? read entries key = .ok value := by
  rw [field?, held]
  cases value with
  | none => rfl
  | some v => exact back v

namespace Xml
open Json (present)

/-- What is written of an annotation. -/
def entries (x : Xml) : Table Json :=
  present "namespace" x.uri .str ++ present "prefix" x.qualifier .str ++
    present "name" x.name .str ++ present "attribute" x.attr .bool ++ x.extra

theorem others_entries {x : Xml} (beside : x.extra.Beside names) :
    Json.others x.entries names = x.extra := by
  have first : Json.others (present "namespace" x.uri .str) names = [] :=
    Json.others_append_present [] (by decide) x.uri .str
  rw [entries, Json.others_append_beside _ beside, Json.others_append_present _ (by decide),
    Json.others_append_present _ (by decide), Json.others_append_present _ (by decide), first]
  exact Table.overSorted_nil beside.ascending

theorem ofJson_toJson {x : Xml} (beside : x.extra.Beside names) : ofJson x.toJson = .ok x := by
  have held (key : String) (listed : key ∈ names) : x.entries.get? key =
      (((if "namespace" = key then x.uri.map Json.str else none).or
        (if "prefix" = key then x.qualifier.map Json.str else none)).or
        (if "name" = key then x.name.map Json.str else none)).or
        (if "attribute" = key then x.attr.map Json.bool else none) := by
    simp only [entries, Table.get?_append, Json.get?_present, beside.get? listed, Option.or_none]
  have uri : Json.field? Json.readText x.entries "namespace" = .ok x.uri :=
    Json.field?_eq_ok .str (by rw [held _ (by decide)]; simp) fun _ => rfl
  have qualifier : Json.field? Json.readText x.entries "prefix" = .ok x.qualifier :=
    Json.field?_eq_ok .str (by rw [held _ (by decide)]; simp) fun _ => rfl
  have name : Json.field? Json.readText x.entries "name" = .ok x.name :=
    Json.field?_eq_ok .str (by rw [held _ (by decide)]; simp) fun _ => rfl
  have attr : Json.field? Json.readFlag x.entries "attribute" = .ok x.attr :=
    Json.field?_eq_ok .bool (by rw [held _ (by decide)]; simp) fun _ => rfl
  change ofJson (.obj x.entries) = _
  rw [ofJson, uri, qualifier, name, attr, others_entries beside]
  rfl

end Xml

namespace Discriminator
open Json (present)

/-- What is written of a discriminator. -/
def entries (d : Discriminator) : Table Json :=
  present "propertyName" d.propertyName .str ++
    present "mapping" d.mapping (fun t => .obj (t.mapValues .str)) ++ d.extra

theorem others_entries {d : Discriminator} (beside : d.extra.Beside names) :
    Json.others d.entries names = d.extra := by
  have first : Json.others (present "propertyName" d.propertyName .str) names = [] :=
    Json.others_append_present [] (by decide) d.propertyName .str
  rw [entries, Json.others_append_beside _ beside, Json.others_append_present _ (by decide), first]
  exact Table.overSorted_nil beside.ascending

theorem ofJson_toJson {d : Discriminator} (beside : d.extra.Beside names) :
    ofJson d.toJson = .ok d := by
  have missing (key : String) (listed : key ∈ names) : Table.get? d.extra key = none :=
    beside.get? listed
  have propertyName : Json.field? Json.readText d.entries "propertyName" = .ok d.propertyName := by
    refine Json.field?_eq_ok .str ?_ fun _ => rfl
    simp [entries, Table.get?_append, Json.get?_present,
      missing "propertyName" (by decide)]
  have mapping :
      Json.field? (Json.readTable Json.readText) d.entries "mapping" = .ok d.mapping := by
    refine Json.field?_eq_ok (fun t => .obj (t.mapValues .str)) ?_ fun t =>
      Json.readOption_eq_ok (by simp) (Json.readTable_obj t)
    simp [entries, Table.get?_append, Json.get?_present, missing "mapping" (by decide)]
  have others := others_entries beside
  rw [names] at others
  change ofJson (.obj d.entries) = _
  rw [ofJson, propertyName, mapping, others]
  rfl

end Discriminator

namespace Schema
open Json

/-- The entries set what `f` sets, whatever is read after them. -/
def Reads (entries : List (String × Json)) (f : Schema → Schema) : Prop :=
  ∀ s rest, ofEntries s (entries ++ rest) = ofEntries (f s) rest

theorem Reads.append {first second : List (String × Json)} {f g : Schema → Schema}
    (hf : Reads first f) (hg : Reads second g) : Reads (first ++ second) fun s => g (f s) := by
  intro s rest
  rw [List.append_assoc, hf, hg]

/-- The keys that hold schemas. -/
def childNames : List String :=
  ["not", "items", "properties", "allOf", "oneOf", "anyOf", "additionalProperties"]

theorem childNames_subset_names : ∀ key ∈ childNames, key ∈ names := by decide

theorem ofEntries_cons {key : String} (notChild : key ∉ childNames) (s : Schema) (value : Json)
    (rest : List (String × Json)) :
    ofEntries s ((key, value) :: rest) = (do
      match ← s.keywords.read key value with
      | some keywords => ofEntries { s with keywords } rest
      | none =>
        ofEntries { s with keywords.extra := s.keywords.extra.putSorted key value } rest) := by
  conv =>
    lhs
    unfold ofEntries
  split
  case h_8 =>
    cases s.keywords.read key value with
    | error e => rfl
    | ok keywords? => cases keywords? <;> rfl
  all_goals simp [childNames] at notChild

/-- What stands under a key is read back from what was written of it, and what was set before stays
when nothing was written. -/
theorem reads_present {α : Type} (key : String) (read : Json → Except Fault (Option α))
    (write : α → Json) (set : Option α → Schema → Schema) (get : Schema → Option α)
    (shape : ∀ s value rest, ofEntries s ((key, value) :: rest) =
      read value >>= fun v => ofEntries (set v s) rest)
    (same : ∀ s, set (get s) s = s) (value : Option α)
    (back : ∀ v, value = some v → read (write v) = .ok (some v)) :
    Reads (present key value write) fun s => set (value.or (get s)) s := by
  intro s rest
  cases value with
  | none =>
    dsimp only
    rw [Option.none_or, same]
    rfl
  | some v =>
    change ofEntries s ((key, write v) :: rest) = _
    rw [shape, back v rfl]
    rfl

/-- As `reads_present`, for a key of the keywords. -/
theorem reads_keyword (key : String) {α : Type} (read : Json → Except Fault α) (write : α → Json)
    (set : Option α → Keywords → Keywords) (get : Keywords → Option α) {value : Option α}
    (back : ∀ v, value = some v → readOption read (write v) = .ok (some v))
    (notChild : key ∉ childNames := by decide)
    (shape : ∀ k value, Keywords.read k key value =
      (readOption read value).map fun v => some (set v k) := by intros; rfl)
    (same : ∀ k, set (get k) k = k := by intros; rfl) :
    Reads (present key value write) fun s =>
      { s with keywords := set (value.or (get s.keywords)) s.keywords } := by
  refine reads_present key (readOption read) write
    (fun v s => { s with keywords := set v s.keywords }) (fun s => get s.keywords)
    (fun s value rest => ?_) (fun s => ?_) value back
  · rw [ofEntries_cons notChild, shape]
    cases readOption read value <;> rfl
  · obtain ⟨k, c⟩ := s
    rw [same]

theorem present_map {α β : Type} (key : String) (value : Option α) (f : α → β) (write : β → Json) :
    present key (value.map f) write = present key value fun v => write (f v) := by
  cases value <;> rfl

/-- As `reads_present`, for a key that holds schemas: what is set stands among the children. -/
theorem reads_child (key : String) {α β : Type} (read : Json → Except Fault (Option α))
    (plain : α → β) (write : β → Json) (set : Option α → Children Schema → Children Schema)
    (get : Children Schema → Option α) {value : Option α}
    (back : ∀ v, value = some v → read (write (plain v)) = .ok (some v))
    (shape : ∀ s value rest, ofEntries s ((key, value) :: rest) =
      read value >>= fun v => ofEntries { s with children := set v s.children } rest := by
        intros; rw [ofEntries]; rfl)
    (same : ∀ c, set (get c) c = c := by intros; rfl) :
    Reads (present key (value.map plain) write) fun s =>
      { s with children := set (value.or (get s.children)) s.children } := by
  rw [present_map]
  refine reads_present key read _ (fun v s => { s with children := set v s.children })
    (fun s => get s.children) shape (fun s => ?_) value back
  obtain ⟨k, c⟩ := s
  rw [same]

/-- A key that is no name is taken by no keyword. -/
theorem read_eq_none {key : String} (other : key ∉ names) (k : Keywords) (value : Json) :
    k.read key value = .ok none := by
  unfold Keywords.read
  split
  case h_39 => rfl
  all_goals simp [names] at other

theorem reads_other {extra : Table Json} (other : ∀ key ∈ extra.keys, key ∉ names) :
    Reads extra fun s =>
      { s with keywords.extra := extra.overSorted s.keywords.extra } := by
  intro s rest
  induction extra generalizing s with
  | nil =>
    obtain ⟨k, c⟩ := s
    rfl
  | cons entry later ih =>
    obtain ⟨key, value⟩ := entry
    obtain ⟨first, others⟩ := List.forall_mem_cons.mp other
    have notChild : key ∉ childNames := fun child => first (childNames_subset_names key child)
    rw [List.cons_append, ofEntries_cons notChild, read_eq_none first]
    exact ih others _

theorem exists_entries (s : Schema) : ∃ entries, s.toJson = .obj entries := by
  obtain ⟨k, c⟩ := s
  exact ⟨_, toJson_mk k c⟩

theorem ofOptional_toJson {s : Schema} (back : ofJson s.toJson = .ok s) :
    ofOptional s.toJson = .ok (some s) := by
  obtain ⟨entries, written⟩ := s.exists_entries
  rw [written, ofJson] at back
  rw [written, ofOptional, back]
  rfl

theorem ofList_toJson {l : List Schema} (back : ∀ s ∈ l, ofJson s.toJson = .ok s) :
    ofList (l.map toJson) = .ok l := by
  induction l with
  | nil => rfl
  | cons s rest ih =>
    obtain ⟨first, later⟩ := List.forall_mem_cons.mp back
    rw [List.map_cons, ofList, first, ih later]
    rfl

theorem ofTable_toJson {t : Table Schema} (back : ∀ e ∈ t, ofJson e.2.toJson = .ok e.2) :
    ofTable (t.mapValues toJson) = .ok t := by
  induction t with
  | nil => rfl
  | cons entry rest ih =>
    obtain ⟨first, later⟩ := List.forall_mem_cons.mp back
    change ofTable ((entry.1, entry.2.toJson) :: Table.mapValues toJson rest) = _
    rw [ofTable, first, ih later]
    rfl

theorem ofTable?_toJson {t : Table Schema} (back : ∀ e ∈ t, ofJson e.2.toJson = .ok e.2) :
    ofTable? (.obj (t.mapValues toJson)) = .ok (some t) := by
  rw [ofTable?, ofTable_toJson back]
  rfl

theorem ofList?_toJson {l : List Schema} (back : ∀ s ∈ l, ofJson s.toJson = .ok s) :
    ofList? (.arr (l.map toJson)) = .ok (some l) := by
  rw [ofList?, ofList_toJson back]
  rfl

theorem ofAdditional_toJson {additional : Additional Schema}
    (back : ∀ s, additional = .schema s → ofJson s.toJson = .ok s) :
    ofAdditional (additionalJson (additional.map toJson)) = .ok (some additional) := by
  cases additional with
  | flag allowed => rfl
  | schema s =>
    obtain ⟨entries, written⟩ := s.exists_entries
    have read := back s rfl
    rw [written, ofJson] at read
    change ofAdditional s.toJson = _
    rw [written, ofAdditional, read]

theorem readOption_ofNat (n : Nat) : readOption readNat (ofNat n) = .ok (some n) := by
  simp [ofNat, readOption, readNat, Except.map]

theorem readList_any (l : List Json) : readList readAny (.arr l) = .ok l := by
  have back : readList readAny (.arr (l.map id)) = .ok l := readList_arr fun _ _ => rfl
  rwa [List.map_id] at back

theorem back_value {value : Option Json} (there : ∀ v, value = some v → v ≠ .null) :
    ∀ v, value = some v → readOption readAny (id v) = .ok (some v) :=
  fun v found => readOption_eq_ok (there v found) rfl

theorem back_xml {value : Option Xml} (beside : ∀ x, value = some x → x.extra.Beside Xml.names) :
    ∀ x, value = some x → readOption Xml.ofJson x.toJson = .ok (some x) :=
  fun x found => readOption_eq_ok (by simp [Xml.toJson]) (Xml.ofJson_toJson (beside x found))

theorem back_record {value : Option Reference} (named : ∀ r, value = some r → r.name ≠ "") :
    ∀ r, value = some r → readOption readReferenceRecord (ofReferenceRecord r) = .ok (some r) :=
  fun r found => readOption_eq_ok (by simp [ofReferenceRecord])
    (readReferenceRecord_ofReferenceRecord (named r found))

/-- The entries of a readable node set all that they were written from. -/
theorem ofEntries_entriesOf {k : Keywords} {c : Children Schema} (own : k.Obeys .readable)
    (back : c.Each fun s => ofJson s.toJson = .ok s) :
    ofEntries {} (entriesOf k (c.map toJson)) = .ok ⟨k, c⟩ := by
  obtain ⟨f, reads, sets⟩ : ∃ f, Reads (entriesOf k (c.map toJson)) f ∧ f {} = ⟨k, c⟩ := by
    unfold entriesOf
    refine ⟨_, reads_child "not" ofOptional toJson id (fun v c => { c with not := v }) (·.not)
          (fun s held => ofOptional_toJson (back.not s held))
      |>.append (reads_keyword "$ref" readReference (.str ·.raw)
        (fun v k => { k with reference := v }) (·.reference)
        (fun r found => readOption_eq_ok (by simp) (readReference_raw (own.reference r found))))
      |>.append (reads_keyword "xml" Xml.ofJson Xml.toJson
        (fun v k => { k with xml := v }) (·.xml) (back_xml own.xml))
      |>.append (reads_keyword "description" readText .str
        (fun v k => { k with description := v }) (·.description) (fun _ _ => rfl))
      |>.append (reads_keyword "type" readText .str
        (fun v k => { k with type := v }) (·.type) (fun _ _ => rfl))
      |>.append (reads_keyword "format" readText .str
        (fun v k => { k with format := v }) (·.format) (fun _ _ => rfl))
      |>.append (reads_keyword "default" readAny id
        (fun v k => { k with default := v }) (·.default) (back_value own.default))
      |>.append (reads_keyword "enum" (readList readAny) .arr
        (fun v k => { k with enum := v }) (·.enum)
        (fun l _ => readOption_eq_ok (by simp) (readList_any l)))
      |>.append (reads_keyword "minimum" readAny id
        (fun v k => { k with minimum := v }) (·.minimum) (back_value own.minimum))
      |>.append (reads_keyword "maximum" readAny id
        (fun v k => { k with maximum := v }) (·.maximum) (back_value own.maximum))
      |>.append (reads_keyword "exclusiveMinimum" readAny id
        (fun v k => { k with exclusiveMinimum := v }) (·.exclusiveMinimum)
        (back_value own.exclusiveMinimum))
      |>.append (reads_keyword "exclusiveMaximum" readAny id
        (fun v k => { k with exclusiveMaximum := v }) (·.exclusiveMaximum)
        (back_value own.exclusiveMaximum))
      |>.append (reads_keyword "minItems" readNat ofNat
        (fun v k => { k with minItems := v }) (·.minItems) (fun n _ => readOption_ofNat n))
      |>.append (reads_keyword "maxItems" readNat ofNat
        (fun v k => { k with maxItems := v }) (·.maxItems) (fun n _ => readOption_ofNat n))
      |>.append (reads_keyword "pattern" readText .str
        (fun v k => { k with pattern := v }) (·.pattern) (fun _ _ => rfl))
      |>.append (reads_keyword "minLength" readNat ofNat
        (fun v k => { k with minLength := v }) (·.minLength) (fun n _ => readOption_ofNat n))
      |>.append (reads_keyword "maxLength" readNat ofNat
        (fun v k => { k with maxLength := v }) (·.maxLength) (fun n _ => readOption_ofNat n))
      |>.append (reads_child "items" ofOptional toJson id
        (fun v c => { c with items := v }) (·.items)
        (fun s held => ofOptional_toJson (back.items s held)))
      |>.append (reads_child "properties" ofTable? (Table.mapValues toJson) .obj
        (fun v c => { c with properties := v }) (·.properties)
        (fun t held => ofTable?_toJson (back.properties t held)))
      |>.append (reads_child "allOf" ofList? (List.map toJson) .arr
        (fun v c => { c with allOf := v }) (·.allOf)
        (fun l held => ofList?_toJson (back.allOf l held)))
      |>.append (reads_child "oneOf" ofList? (List.map toJson) .arr
        (fun v c => { c with oneOf := v }) (·.oneOf)
        (fun l held => ofList?_toJson (back.oneOf l held)))
      |>.append (reads_child "anyOf" ofList? (List.map toJson) .arr
        (fun v c => { c with anyOf := v }) (·.anyOf)
        (fun l held => ofList?_toJson (back.anyOf l held)))
      |>.append (reads_child "additionalProperties" ofAdditional (Additional.map toJson)
        additionalJson
        (fun v c => { c with additional := v }) (·.additional)
        (fun _ held => ofAdditional_toJson fun s same =>
          back.additional s (held.trans (congrArg some same))))
      |>.append (reads_keyword "required" (readList readText) ofStrings
        (fun v k => { k with required := v }) (·.required)
        (fun l _ => readOption_eq_ok (by simp [ofStrings]) (readList_arr fun _ _ => rfl)))
      |>.append (reads_keyword "nullable" readFlag .bool
        (fun v k => { k with nullable := v }) (·.nullable) (fun _ _ => rfl))
      |>.append (reads_keyword "x-nullable" readFlag .bool
        (fun v k => { k with xNullable := v }) (·.xNullable) (fun _ _ => rfl))
      |>.append (reads_keyword "x-ibm-whiteSpace" readAny id
        (fun v k => { k with whiteSpace := v }) (·.whiteSpace) (back_value own.whiteSpace))
      |>.append (reads_keyword "x-ibm-fractionDigits" readAny id
        (fun v k => { k with fractionDigits := v }) (·.fractionDigits)
        (back_value own.fractionDigits))
      |>.append (reads_keyword "x-ibm-totalDigits" readAny id
        (fun v k => { k with totalDigits := v }) (·.totalDigits) (back_value own.totalDigits))
      |>.append (reads_keyword "discriminator" Discriminator.ofJson Discriminator.toJson
        (fun v k => { k with discriminator := v }) (·.discriminator)
        (fun d found => readOption_eq_ok (by simp [Discriminator.toJson])
          (Discriminator.ofJson_toJson (own.discriminator d found))))
      |>.append (reads_keyword "x-ibm-discriminator" readAny id
        (fun v k => { k with polymorphic := v }) (·.polymorphic) (back_value own.polymorphic))
      |>.append (reads_keyword "x-xsi-type" readText .str
        (fun v k => { k with xsiType := v }) (·.xsiType) (fun _ _ => rfl))
      |>.append (reads_keyword "x-xsi-type-xml" Xml.ofJson Xml.toJson
        (fun v k => { k with xsiTypeXml := v }) (·.xsiTypeXml) (back_xml own.xsiTypeXml))
      |>.append (reads_keyword "x-xsi-type-abstract" readAny id
        (fun v k => { k with xsiTypeAbstract := v }) (·.xsiTypeAbstract)
        (back_value own.xsiTypeAbstract))
      |>.append (reads_keyword "x-xsi-type-uniquename" readText .str
        (fun v k => { k with uniqueName := v }) (·.uniqueName) (fun _ _ => rfl))
      |>.append (reads_keyword "x-ibm-group" readAny id
        (fun v k => { k with group := v }) (·.group) (back_value own.group))
      |>.append (reads_keyword "x-anyType" readAny id
        (fun v k => { k with anyType := v }) (·.anyType) (back_value own.anyType))
      |>.append (reads_keyword "x-ibm-complex-restriction" readAny id
        (fun v k => { k with complexRestriction := v }) (·.complexRestriction)
        (back_value own.complexRestriction))
      |>.append (reads_keyword "x-ibm-schema" readAny id
        (fun v k => { k with schemaNote := v }) (·.schemaNote) (back_value own.schemaNote))
      |>.append (reads_keyword "x-ibm-messages" readAny id
        (fun v k => { k with messages := v }) (·.messages) (back_value own.messages))
      |>.append (reads_keyword "example" readAny id
        (fun v k => { k with sample := v }) (·.sample) (back_value own.sample))
      |>.append (reads_keyword "typeOf" readReferenceRecord ofReferenceRecord
        (fun v k => { k with typeOf := v }) (·.typeOf) (back_record own.typeOf))
      |>.append (reads_keyword "forPart" readAny id
        (fun v k => { k with forPart := v }) (·.forPart) (back_value own.forPart))
      |>.append (reads_keyword "x-anc-ref" readReferenceRecord ofReferenceRecord
        (fun v k => { k with ancestor := v }) (·.ancestor) (back_record own.ancestor))
      |>.append (reads_keyword "x-desc-ref" (readList readReferenceRecord)
        (fun l => .arr (l.map ofReferenceRecord))
        (fun v k => { k with descendants := v }) (·.descendants)
        (fun l found => readOption_eq_ok (by simp) (readList_arr fun r member =>
          readReferenceRecord_ofReferenceRecord (own.descendants l found r member))))
      |>.append (reads_other own.extra.other), ?_⟩
    simp only [Option.or_none, Table.overSorted_nil own.extra.ascending]
  have all := reads {} []
  rw [List.append_nil] at all
  rw [all, sets, ofEntries]

/-- A readable schema is what its JSON reads as. -/
theorem ofJson_toJson {s : Schema} (h : s.Obeys .readable) : ofJson s.toJson = .ok s := by
  induction s using children_induction with
  | step k c ih =>
    have below := (Children.each_iff _ c).mp h.below.toEach
    rw [toJson_mk, ofJson]
    exact ofEntries_entriesOf h.own ((Children.each_iff _ c).mpr fun child member =>
      ih child member (below child member))

end Schema
namespace Document

/-- What can be written and read again: the schemas are lifted from a slot, if there are any, and all
of them are readable. -/
structure Readable (d : Document) : Prop where
  lifted : d.Lifted
  slot : d.hasSlot = false → d.definitions = []
  obeys : ∀ e ∈ d.definitions, e.2.Obeys .readable

/-- The written document is read as the document. -/
theorem ofJson_toJson {d : Document} (readable : d.Readable) : ofJson d.toJson = .ok d := by
  have back : Definitions.ofJson (Definitions.toJson d.definitions) = .ok d.definitions :=
    Schema.ofTable_toJson fun e member => Schema.ofJson_toJson (readable.obeys e member)
  have lifted := readable.lifted
  have empty := readable.slot
  clear readable
  obtain ⟨raw, flavor, hasSlot, definitions⟩ := d
  cases lifted with
  | definitions slot flavored has =>
    cases flavored
    cases has
    have held : (raw.put "definitions" (Definitions.toJson definitions)).get? "definitions" =
        some (Definitions.toJson definitions) := by rw [Table.get?_put, if_pos rfl]
    change ofJson (.obj (raw.put "definitions" (Definitions.toJson definitions))) = _
    rw [ofJson, held]
    dsimp only
    rw [back, Table.put_put, Table.put_of_get? slot]
    rfl
  | @components components absent outer slot flavored has =>
    cases flavored
    cases has
    obtain ⟨schemas, written⟩ : ∃ schemas, Definitions.toJson definitions = schemas := ⟨_, rfl⟩
    have filled : toJson ⟨raw, .components, true, definitions⟩ =
        .obj (raw.put "components" (.obj (components.put "schemas" schemas))) := by
      simp only [toJson, Bool.true_or, if_true, outer, written]
    have stillAbsent : (raw.put "components" (.obj (components.put "schemas" schemas))).get?
        "definitions" = none := by
      rw [Table.get?_put, if_neg (by decide)]
      exact absent
    have found : componentSchemas? (raw.put "components" (.obj (components.put "schemas" schemas))) =
        some (components.put "schemas" schemas, schemas) :=
      componentSchemas?_eq_some_iff.mpr
        ⟨by rw [Table.get?_put, if_pos rfl], by rw [Table.get?_put, if_pos rfl]⟩
    rw [filled, ofJson, stillAbsent]
    dsimp only
    rw [found]
    dsimp only
    rw [← written, back, Table.put_put, Table.put_put, Table.put_of_get? slot,
      Table.put_of_get? outer]
    rfl
  | bare absent noSlot flavored hasNone =>
    cases flavored
    cases hasNone
    cases empty rfl
    change ofJson (.obj raw) = _
    rw [ofJson, absent]
    dsimp only
    rw [noSlot]
    rfl

end Document
end SchemaGraph
