import Mathlib.Data.List.Basic
import SchemaGraph.Proofs.Each
import SchemaGraph.Proofs.Sound
import SchemaGraph.Renaming

/- References after a redirection, in schemas and in raw values. Each of them stood there before, or
   is what the redirection makes of one that did. -/
namespace SchemaGraph

namespace Reference

/-- Read again, a reference that names something is itself, and no other is a reference. -/
theorem parse?_raw_eq (r : Reference) : parse? r.raw = if r.name = "" then none else some r := by
  obtain ⟨raw, flavor, name, tail, located⟩ := r
  unfold parse?
  split
  · rename_i otherFlavor otherName otherTail found
    have same := located.symm.trans found
    simp only [Option.some.injEq, Prod.mk.injEq, List.cons.injEq] at same
    obtain ⟨rfl, rfl, rfl⟩ := same
    rfl
  · rename_i unread
    exact absurd located (unread flavor name tail)

theorem parse?_raw {r : Reference} (named : r.name ≠ "") : parse? r.raw = some r := by
  rw [parse?_raw_eq, if_neg named]

theorem name_ne_of_parse? {raw : String} {r : Reference} (h : parse? raw = some r) :
    r.name ≠ "" := by
  intro empty
  unfold parse? at h
  split at h
  · split at h
    · cases h
    · rename_i named
      cases h
      exact named empty
  · cases h

end Reference

/-- What a redirection makes of an occurrence. -/
def Occurrence.redirect (f : Reference → Option Reference) (o : Occurrence) : Occurrence :=
  { o with reference := (f o.reference).getD o.reference }

namespace Keywords

theorem redirectText_of_parse? {raw : String} {r : Reference} (read : Reference.parse? raw = some r)
    (f : Reference → Option Reference) : redirectText f raw = ((f r).map (·.raw)).getD raw := by
  rw [redirectText, read, Option.bind_some]
  cases f r <;> rfl

theorem redirectText_of_parse?_eq_none {raw : String} (unread : Reference.parse? raw = none)
    (f : Reference → Option Reference) : redirectText f raw = raw := by
  rw [redirectText, unread, Option.bind_none]

/-- A text that reads as a reference is turned like the reference. -/
theorem redirectText_eq (f : Reference → Option Reference) (raw : String) : redirectText f raw =
    ((Reference.parse? raw).map fun r => ((f r).getD r).raw).getD raw := by
  cases read : Reference.parse? raw with
  | none => exact redirectText_of_parse?_eq_none read f
  | some r =>
    rw [redirectText_of_parse? read, Option.map_some, Option.getD_some]
    cases f r with
    | none => exact (Reference.raw_of_parse? read).symm
    | some replacement => rfl

theorem parse?_redirectText (f : Reference → Option Reference) (raw : String) :
    Reference.parse? (redirectText f raw) =
      (Reference.parse? raw).bind fun r => Reference.parse? ((f r).getD r).raw := by
  rw [redirectText_eq]
  cases read : Reference.parse? raw with
  | none => exact read
  | some r => rfl

theorem of_parse?_redirectText {f : Reference → Option Reference} {raw : String} {r : Reference}
    (parsed : Reference.parse? (redirectText f raw) = some r) :
    ∃ before, Reference.parse? raw = some before ∧ (f before).getD before = r := by
  rw [parse?_redirectText] at parsed
  obtain ⟨before, read, again⟩ := Option.bind_eq_some_iff.mp parsed
  exact ⟨before, read, (Reference.eq_of_raw (Reference.raw_of_parse? again)).symm⟩

theorem Each.redirect {p q : Reference → Prop} {f : Reference → Option Reference}
    (turns : ∀ r, p r → q ((f r).getD r)) {k : Keywords} (h : k.Each p) :
    (k.redirect f).Each q where
  reference r found := by
    obtain ⟨before, refers, rfl⟩ := Option.map_eq_some_iff.mp found
    exact turns before (h.reference before refers)
  typeOf r found := by
    obtain ⟨before, refers, rfl⟩ := Option.map_eq_some_iff.mp found
    exact turns before (h.typeOf before refers)
  ancestor r found := by
    obtain ⟨before, refers, rfl⟩ := Option.map_eq_some_iff.mp found
    exact turns before (h.ancestor before refers)
  descendants l found r member := by
    obtain ⟨list, listed, rfl⟩ := Option.map_eq_some_iff.mp found
    obtain ⟨before, inside, rfl⟩ := List.mem_map.mp member
    exact turns before (h.descendants list listed before inside)
  mapping d found t mapped raw listed r parsed := by
    obtain ⟨before, discriminates, rfl⟩ := Option.map_eq_some_iff.mp found
    obtain ⟨table, maps, rfl⟩ := Option.map_eq_some_iff.mp mapped
    obtain ⟨_, inside, rfl⟩ := List.mem_map.mp listed
    obtain ⟨entry, inTable, rfl⟩ := List.mem_map.mp inside
    obtain ⟨target, read, rfl⟩ := of_parse?_redirectText parsed
    exact turns target (h.mapping before discriminates table maps entry.2
      (List.mem_map_of_mem inTable) target read)

/-- The texts of the discriminator mapping. -/
def mappingTexts (k : Keywords) : List String := ((k.discriminator.bind (·.mapping)).getD []).values

section
variable (f : Reference → Option Reference) (k : Keywords)

theorem references_redirect (structural : Bool) :
    (k.redirect f).references structural = (k.references structural).map (Occurrence.redirect f) := by
  simp only [references, redirect, List.map_append, List.map_map]
  congr 1
  · congr 1
    · congr 1
      · cases k.reference <;> rfl
      · cases k.typeOf <;> rfl
    · cases k.ancestor <;> rfl
  · cases k.descendants with
    | none => rfl
    | some l => simp [Occurrence.redirect]

theorem typedReferences_redirect :
    (k.redirect f).typedReferences = k.typedReferences.map fun r => (f r).getD r := by
  rw [typedReferences, typedReferences, references_redirect, List.map_map, List.map_map]
  rfl

theorem mappingTexts_redirect :
    (k.redirect f).mappingTexts = k.mappingTexts.map (redirectText f) := by
  rw [mappingTexts, mappingTexts, redirect]
  cases k.discriminator with
  | none => rfl
  | some d => cases mapping : d.mapping <;> simp [mapping, Table.values, Table.mapValues]

theorem mappedReferences_redirect : (k.redirect f).mappedReferences =
    k.mappedReferences.filterMap fun r => Reference.parse? ((f r).getD r).raw := by
  rw [mappedReferences, mappedReferences, ← mappingTexts, ← mappingTexts, mappingTexts_redirect,
    List.filterMap_map, List.filterMap_filterMap]
  exact List.filterMap_congr fun raw _ => parse?_redirectText f raw

end

/-- With new references that can be read again, each reference of the node is turned. -/
theorem mem_allReferences_redirect {f : Reference → Option Reference}
    (named : ∀ r t, f r = some t → t.name ≠ "") (k : Keywords) (r : Reference) :
    r ∈ (k.redirect f).allReferences ↔ ∃ before ∈ k.allReferences, (f before).getD before = r := by
  have again (before : Reference) (mapped : before ∈ k.mappedReferences) :
      Reference.parse? ((f before).getD before).raw = some ((f before).getD before) := by
    obtain ⟨raw, _, read⟩ := List.mem_filterMap.mp mapped
    apply Reference.parse?_raw
    cases replaced : f before with
    | none => exact Reference.name_ne_of_parse? read
    | some t => exact named before t replaced
  simp only [allReferences, typedReferences_redirect, mappedReferences_redirect, List.mem_append,
    List.mem_map, List.mem_filterMap]
  constructor
  · rintro (⟨before, typed, rfl⟩ | ⟨before, mapped, read⟩)
    · exact ⟨before, Or.inl typed, rfl⟩
    · rw [again before mapped] at read
      exact ⟨before, Or.inr mapped, Option.some.inj read⟩
  · rintro ⟨before, typed | mapped, rfl⟩
    · exact Or.inl ⟨before, typed, rfl⟩
    · exact Or.inr ⟨before, mapped, again before mapped⟩

end Keywords

namespace Schema

theorem redirect_mk (f : Reference → Option Reference) (k : Keywords) (c : Children Schema) :
    redirect f ⟨k, c⟩ = ⟨k.redirect f, c.map (redirect f)⟩ := fold_mk _ k c

theorem nodes_redirect (f : Reference → Option Reference) (s : Schema) :
    (s.redirect f).nodes = s.nodes.map (Keywords.redirect f) := nodes_rekey _ s

theorem Every.redirect {before after : Keywords → Prop} {f : Reference → Option Reference}
    (turns : ∀ k, before k → after (k.redirect f)) {s : Schema} (h : s.Every before) :
    (s.redirect f).Every after := Every.rekey turns h

theorem Each.redirect {p q : Reference → Prop} {f : Reference → Option Reference}
    (turns : ∀ r, p r → q ((f r).getD r)) {s : Schema} (h : s.Each p) : (s.redirect f).Each q :=
  Every.redirect (fun _ own => own.redirect turns) h

end Schema

namespace Json
variable {f : Reference → Option Reference}

/-- What a redirection makes of the value under a key. -/
def redirectUnder (f : Reference → Option Reference) (inDiscriminator : Bool) (key : String) :
    Json → Json
  | str raw => if key = "$ref" then str (Keywords.redirectText f raw) else str raw
  | obj entries =>
    if key = "mapping" ∧ inDiscriminator then
      obj (Table.mapValues (redirectMappingValue f) entries)
    else obj (redirectEntries f (key == "discriminator") entries)
  | arr items => arr (redirectItems f items)
  | value => value

theorem redirectEntries_cons (inDiscriminator : Bool) (key : String) (value : Json)
    (rest : List (String × Json)) :
    redirectEntries f inDiscriminator ((key, value) :: rest) =
      (key, redirectUnder f inDiscriminator key value) ::
        redirectEntries f inDiscriminator rest := by
  cases value <;> rfl

theorem get?_redirectEntries (inDiscriminator : Bool) (entries : Table Json) (key : String) :
    Table.get? (redirectEntries f inDiscriminator entries) key =
      (entries.get? key).map (redirectUnder f inDiscriminator key) := by
  induction entries with
  | nil => rfl
  | cons entry rest ih =>
    rw [redirectEntries_cons, Table.get?, Table.get?]
    by_cases same : entry.1 = key
    · simp [same]
    · simp [same, ih]

/-- The reference that the `$ref` of an object makes. -/
def ownReference (entries : Table Json) : List Reference :=
  match entries.get? "$ref" with
  | some (str raw) => (Reference.parse? raw).toList
  | _ => []

theorem placedReferences_obj (trail : List String) (entries : Table Json) :
    placedReferences trail (obj entries) =
      (ownReference entries).map (·, trail) ++ placedInEntries trail entries := by
  rw [placedReferences, ownReference]
  rcases entries.get? "$ref" with _ | value
  · rfl
  · cases value <;> rfl

mutual
theorem named_of_mem_placedReferences (trail : List String) : ∀ value : Json,
    ∀ placed ∈ placedReferences trail value, placed.1.name ≠ ""
  | obj entries, placed, found => by
    rw [placedReferences_obj, List.mem_append] at found
    rcases found with own | below
    · obtain ⟨r, here, rfl⟩ := List.mem_map.mp own
      rw [ownReference] at here
      split at here
      · exact Reference.name_ne_of_parse? (Option.mem_toList.mp here)
      · cases here
    · exact named_of_mem_placedInEntries trail entries placed below
  | arr items, placed, found => by
    rw [placedReferences] at found
    exact named_of_mem_placedInItems trail 0 items placed found

theorem named_of_mem_placedInEntries (trail : List String) : ∀ entries : List (String × Json),
    ∀ placed ∈ placedInEntries trail entries, placed.1.name ≠ ""
  | (key, value) :: rest, placed, found => by
    rw [placedInEntries, List.mem_append] at found
    rcases found with here | later
    · exact named_of_mem_placedReferences (key :: trail) value placed here
    · exact named_of_mem_placedInEntries trail rest placed later

theorem named_of_mem_placedInItems (trail : List String) (index : Nat) : ∀ items : List Json,
    ∀ placed ∈ placedInItems trail index items, placed.1.name ≠ ""
  | value :: rest, placed, found => by
    rw [placedInItems, List.mem_append] at found
    rcases found with here | later
    · exact named_of_mem_placedReferences (toString index :: trail) value placed here
    · exact named_of_mem_placedInItems trail (index + 1) rest placed later
end

mutual
/-- The references of a raw value in order, each with whether a redirection meets it. The objects
among the values of a discriminator's mapping are passed over. -/
def metReferences (inDiscriminator : Bool) : Json → List (Reference × Bool)
  | obj entries => (ownReference entries).map (·, true) ++ metInEntries inDiscriminator entries
  | arr items => metInItems items
  | _ => []

def metInEntries (inDiscriminator : Bool) : List (String × Json) → List (Reference × Bool)
  | [] => []
  | (key, value) :: rest =>
    (match value with
      | obj entries =>
        (ownReference entries).map (·, true) ++
          if key = "mapping" ∧ inDiscriminator then
            (placedInEntries [] entries).map fun placed => (placed.1, false)
          else metInEntries (key == "discriminator") entries
      | arr items => metInItems items
      | _ => []) ++ metInEntries inDiscriminator rest

def metInItems : List Json → List (Reference × Bool)
  | [] => []
  | value :: rest => metReferences false value ++ metInItems rest
end

/-- What a redirection makes of a reference; what it writes is read again. -/
def turn (f : Reference → Option Reference) : Reference × Bool → Option Reference
  | (r, true) => Reference.parse? ((f r).getD r).raw
  | (r, false) => some r

theorem filterMap_turn_own (own : List Reference) :
    (own.map (·, true)).filterMap (turn f) =
      own.filterMap fun r => Reference.parse? ((f r).getD r).raw := by
  rw [List.filterMap_map]
  rfl

theorem filterMap_turn_passed (passed : List (Reference × List String)) :
    (passed.map fun placed => (placed.1, false)).filterMap (turn f) = passed.map Prod.fst := by
  rw [List.filterMap_map, ← List.filterMap_eq_map]
  rfl

theorem toList_parse?_redirectText (raw : String) :
    (Reference.parse? (Keywords.redirectText f raw)).toList =
      (Reference.parse? raw).toList.filterMap fun r => Reference.parse? ((f r).getD r).raw := by
  rw [Keywords.parse?_redirectText]
  cases Reference.parse? raw with
  | none => rfl
  | some r => cases again : Reference.parse? ((f r).getD r).raw <;> simp [again]

theorem ownReference_redirectEntries (inDiscriminator : Bool) (entries : Table Json) :
    ownReference (redirectEntries f inDiscriminator entries) =
      (ownReference entries).filterMap fun r => Reference.parse? ((f r).getD r).raw := by
  rw [ownReference, ownReference, get?_redirectEntries]
  cases entries.get? "$ref" with
  | none => rfl
  | some value =>
    cases value with
    | str raw => exact toList_parse?_redirectText raw
    | obj entries =>
      simp only [Option.map_some, redirectUnder]
      by_cases asMapping : "$ref" = "mapping" ∧ inDiscriminator <;> simp [asMapping]
    | _ => rfl

theorem ownReference_mapping (entries : Table Json) :
    ownReference (entries.mapValues (redirectMappingValue f)) =
      (ownReference entries).filterMap fun r => Reference.parse? ((f r).getD r).raw := by
  rw [ownReference, ownReference, Table.get?_mapValues]
  cases entries.get? "$ref" with
  | none => rfl
  | some value =>
    cases value with
    | str raw => exact toList_parse?_redirectText raw
    | _ => rfl

/-- Only texts of a mapping are redirected, not what its other values hold. -/
theorem placedInEntries_mapping (trail : List String) (entries : Table Json) :
    placedInEntries trail (entries.mapValues (redirectMappingValue f)) =
      placedInEntries trail entries := by
  induction entries with
  | nil => rfl
  | cons entry rest ih =>
    have same : placedReferences (entry.1 :: trail) (redirectMappingValue f entry.2) =
        placedReferences (entry.1 :: trail) entry.2 := by
      cases entry.2 <;> simp [redirectMappingValue, placedReferences]
    rw [Table.mapValues] at ih
    rw [Table.mapValues, List.map_cons, placedInEntries, placedInEntries, ih, same]

/-- The references of the value under a key, each with whether a redirection meets it. -/
def metUnder (inDiscriminator : Bool) (key : String) : Json → List (Reference × Bool)
  | obj entries =>
    (ownReference entries).map (·, true) ++
      if key = "mapping" ∧ inDiscriminator then
        (placedInEntries [] entries).map fun placed => (placed.1, false)
      else metInEntries (key == "discriminator") entries
  | arr items => metInItems items
  | _ => []

theorem metInEntries_cons (inDiscriminator : Bool) (key : String) (value : Json)
    (rest : List (String × Json)) :
    metInEntries inDiscriminator ((key, value) :: rest) =
      metUnder inDiscriminator key value ++ metInEntries inDiscriminator rest := by
  cases value <;> simp only [metInEntries, metUnder]

mutual
theorem map_fst_placedReferences (trail other : List String) : ∀ value : Json,
    (placedReferences trail value).map Prod.fst = (placedReferences other value).map Prod.fst
  | obj entries => by
    rw [placedReferences_obj, placedReferences_obj, List.map_append, List.map_append,
      map_fst_placedInEntries trail other entries, List.map_map, List.map_map]
    rfl
  | arr items => by
    rw [placedReferences, placedReferences]
    exact map_fst_placedInItems trail other 0 items
  | null => rfl
  | bool _ => rfl
  | num _ => rfl
  | str _ => rfl

theorem map_fst_placedInEntries (trail other : List String) : ∀ entries : List (String × Json),
    (placedInEntries trail entries).map Prod.fst = (placedInEntries other entries).map Prod.fst
  | [] => rfl
  | (key, value) :: rest => by
    rw [placedInEntries, placedInEntries, List.map_append, List.map_append,
      map_fst_placedReferences (key :: trail) (key :: other) value,
      map_fst_placedInEntries trail other rest]

theorem map_fst_placedInItems (trail other : List String) (index : Nat) : ∀ items : List Json,
    (placedInItems trail index items).map Prod.fst = (placedInItems other index items).map Prod.fst
  | [] => rfl
  | value :: rest => by
    rw [placedInItems, placedInItems, List.map_append, List.map_append,
      map_fst_placedReferences (toString index :: trail) (toString index :: other) value,
      map_fst_placedInItems trail other (index + 1) rest]
end

mutual
theorem map_fst_metReferences (inDiscriminator : Bool) (trail : List String) : ∀ value : Json,
    (metReferences inDiscriminator value).map Prod.fst = (placedReferences trail value).map Prod.fst
  | obj entries => by
    rw [metReferences, placedReferences_obj, List.map_append, List.map_append, List.map_map,
      List.map_map, map_fst_metInEntries inDiscriminator trail entries]
    rfl
  | arr items => by
    rw [metReferences, placedReferences]
    exact map_fst_metInItems trail 0 items
  | null => rfl
  | bool _ => rfl
  | num _ => rfl
  | str _ => rfl

theorem map_fst_metInEntries (inDiscriminator : Bool) (trail : List String) :
    ∀ entries : List (String × Json), (metInEntries inDiscriminator entries).map Prod.fst =
      (placedInEntries trail entries).map Prod.fst
  | [] => rfl
  | (key, value) :: rest => by
    have under : (metUnder inDiscriminator key value).map Prod.fst =
        (placedReferences (key :: trail) value).map Prod.fst := by
      cases value with
      | obj entries =>
        rw [metUnder, placedReferences_obj, List.map_append, List.map_append]
        congr 1
        · rw [List.map_map, List.map_map]
          rfl
        · by_cases asMapping : key = "mapping" ∧ inDiscriminator
          · rw [if_pos asMapping, List.map_map, map_fst_placedInEntries (key :: trail) []]
            rfl
          · rw [if_neg asMapping]
            exact map_fst_metInEntries (key == "discriminator") (key :: trail) entries
      | arr items =>
        rw [metUnder, placedReferences]
        exact map_fst_metInItems (key :: trail) 0 items
      | _ => rfl
    rw [metInEntries_cons, placedInEntries, List.map_append, List.map_append, under,
      map_fst_metInEntries inDiscriminator trail rest]

theorem map_fst_metInItems (trail : List String) (index : Nat) : ∀ items : List Json,
    (metInItems items).map Prod.fst = (placedInItems trail index items).map Prod.fst
  | [] => rfl
  | value :: rest => by
    rw [metInItems, placedInItems, List.map_append, List.map_append,
      map_fst_metReferences false (toString index :: trail) value,
      map_fst_metInItems trail (index + 1) rest]
end

mutual
/-- The references that it meets are turned, the others stay. -/
theorem references_redirect (inDiscriminator : Bool) (trail : List String) : ∀ value : Json,
    (placedReferences trail (redirect f inDiscriminator value)).map Prod.fst =
      (metReferences inDiscriminator value).filterMap (turn f)
  | obj entries => by
    rw [redirect, placedReferences_obj, metReferences, List.map_append, List.filterMap_append,
      filterMap_turn_own, ownReference_redirectEntries, List.map_map,
      references_redirectEntries inDiscriminator trail entries]
    congr 1
    exact List.map_id _
  | arr items => by
    rw [redirect, placedReferences, metReferences]
    exact references_redirectItems trail 0 items
  | null => rfl
  | bool _ => rfl
  | num _ => rfl
  | str _ => rfl

theorem references_redirectEntries (inDiscriminator : Bool) (trail : List String) :
    ∀ entries : List (String × Json),
      (placedInEntries trail (redirectEntries f inDiscriminator entries)).map Prod.fst =
        (metInEntries inDiscriminator entries).filterMap (turn f)
  | [] => rfl
  | (key, value) :: rest => by
    have under : (placedReferences (key :: trail)
        (redirectUnder f inDiscriminator key value)).map Prod.fst =
          (metUnder inDiscriminator key value).filterMap (turn f) := by
      cases value with
      | obj entries =>
        rw [metUnder, redirectUnder, List.filterMap_append, filterMap_turn_own]
        by_cases asMapping : key = "mapping" ∧ inDiscriminator
        · rw [if_pos asMapping, if_pos asMapping, filterMap_turn_passed, placedReferences_obj,
            List.map_append, List.map_map, ownReference_mapping, placedInEntries_mapping,
            map_fst_placedInEntries (key :: trail) []]
          congr 1
          exact List.map_id _
        · rw [if_neg asMapping, if_neg asMapping, placedReferences_obj, List.map_append,
            List.map_map, ownReference_redirectEntries,
            references_redirectEntries (key == "discriminator") (key :: trail) entries]
          congr 1
          exact List.map_id _
      | arr items =>
        rw [metUnder, redirectUnder, placedReferences]
        exact references_redirectItems (key :: trail) 0 items
      | str raw =>
        rw [redirectUnder]
        split <;> rfl
      | _ => rfl
    rw [redirectEntries_cons, placedInEntries, metInEntries_cons, List.map_append,
      List.filterMap_append, under, references_redirectEntries inDiscriminator trail rest]

theorem references_redirectItems (trail : List String) (index : Nat) : ∀ items : List Json,
    (placedInItems trail index (redirectItems f items)).map Prod.fst =
      (metInItems items).filterMap (turn f)
  | [] => rfl
  | value :: rest => by
    rw [redirectItems, placedInItems, metInItems, List.map_append, List.filterMap_append,
      references_redirect false (toString index :: trail) value,
      references_redirectItems trail (index + 1) rest]
end

end Json

namespace Document

/-- The references in the raw part, each with whether a redirection meets it. -/
def metReferences (d : Document) : List (Reference × Bool) :=
  d.raw.flatMap fun entry => entry.2.metReferences false

/-- A redirection meets the reference, in a definition or in the raw part. -/
def Meets (d : Document) (r : Reference) : Prop :=
  (∃ name s, (name, s) ∈ d.definitions ∧ ∃ node ∈ s.nodes, r ∈ node.allReferences) ∨
    (r, true) ∈ d.metReferences

/-- The reference stands in the raw part where a redirection does not come. -/
def PassesOver (d : Document) (r : Reference) : Prop := (r, false) ∈ d.metReferences

theorem rawReferences_eq (d : Document) : d.rawReferences = d.metReferences.map Prod.fst := by
  rw [rawReferences, metReferences, List.map_flatMap, List.map_flatMap]
  refine List.flatMap_congr fun entry _ => ?_
  exact (Json.map_fst_metReferences false [entry.1] entry.2).symm

theorem named_of_mem_rawReferences {d : Document} {r : Reference} (raw : r ∈ d.rawReferences) :
    r.name ≠ "" := by
  obtain ⟨placed, found, rfl⟩ := List.mem_map.mp raw
  obtain ⟨entry, _, found⟩ := List.mem_flatMap.mp found
  exact Json.named_of_mem_placedReferences [entry.1] entry.2 placed found

theorem refers_iff_meets (d : Document) (r : Reference) :
    d.Refers r ↔ d.Meets r ∨ d.PassesOver r := by
  have inRaw : r ∈ d.rawReferences ↔ (r, true) ∈ d.metReferences ∨ (r, false) ∈ d.metReferences := by
    rw [rawReferences_eq]
    simp [or_comm]
  rw [Refers, inRaw, Meets, PassesOver, or_assoc]

theorem rawReferences_rename (d : Document) (names : Renaming) :
    (d.rename names).rawReferences = d.metReferences.filterMap (Json.turn names.apply?) := by
  rw [rawReferences, rename, metReferences, List.map_flatMap, Table.mapValues, List.flatMap_map,
    List.filterMap_flatMap]
  refine List.flatMap_congr fun entry _ => ?_
  exact Json.references_redirect false [entry.1] entry.2

theorem mem_rawReferences_rename {d : Document} {names : Renaming} {r : Reference}
    (raw : r ∈ (d.rename names).rawReferences) :
    (∃ before, (before, true) ∈ d.metReferences ∧ ( names.apply? before).getD before = r) ∨
      d.PassesOver r := by
  rw [rawReferences_rename] at raw
  obtain ⟨⟨before, met⟩, stood, turned⟩ := List.mem_filterMap.mp raw
  cases met with
  | true => exact Or.inl ⟨before, stood, (Reference.eq_of_raw (Reference.raw_of_parse? turned)).symm⟩
  | false =>
    cases turned
    exact Or.inr stood

/-- The references of a renamed document are those that were met, under their new names, and those
that were passed over. -/
theorem refers_rename_iff (d : Document) {names : Renaming} (named : ∀ e ∈ names, e.2 ≠ "")
    (r : Reference) : (d.rename names).Refers r ↔
      (∃ before, d.Meets before ∧ ( names.apply? before).getD before = r) ∨ d.PassesOver r := by
  have replaced (before t : Reference) (applied : names.apply? before = some t) : t.name ≠ "" := by
    obtain ⟨name, found, rfl⟩ := Option.map_eq_some_iff.mp applied
    exact named _ (Table.mem_of_get? found)
  have inDefinitions : (∃ name s, (name, s) ∈ (d.rename names).definitions ∧
      ∃ node ∈ s.nodes, r ∈ node.allReferences) ↔
      ∃ before, (∃ name s, (name, s) ∈ d.definitions ∧ ∃ node ∈ s.nodes,
        before ∈ node.allReferences) ∧ ( names.apply? before).getD before = r := by
    constructor
    · rintro ⟨name, _, member, node, inside, refers⟩
      obtain ⟨⟨name, s⟩, listed, same⟩ := List.mem_map.mp member
      cases same
      rw [Schema.nodes_redirect] at inside
      obtain ⟨unturned, stands, rfl⟩ := List.mem_map.mp inside
      obtain ⟨before, stood, turned⟩ :=
        (Keywords.mem_allReferences_redirect replaced unturned r).mp refers
      exact ⟨before, ⟨name, s, listed, unturned, stands, stood⟩, turned⟩
    · rintro ⟨before, ⟨name, s, listed, node, inside, stood⟩, turned⟩
      refine ⟨name, s.redirect names.apply?, List.mem_map.mpr ⟨(name, s), listed, rfl⟩, ?_⟩
      refine ⟨node.redirect names.apply?, ?_, ?_⟩
      · rw [Schema.nodes_redirect]
        exact List.mem_map.mpr ⟨node, inside, rfl⟩
      · exact (Keywords.mem_allReferences_redirect replaced node r).mpr ⟨before, stood, turned⟩
  have inRaw : r ∈ (d.rename names).rawReferences ↔ (∃ before, (before, true) ∈ d.metReferences ∧
      ( names.apply? before).getD before = r) ∨ d.PassesOver r := by
    refine ⟨mem_rawReferences_rename, ?_⟩
    rw [rawReferences_rename, List.mem_filterMap]
    rintro (⟨before, stood, rfl⟩ | passed)
    · refine ⟨(before, true), stood, Reference.parse?_raw ?_⟩
      cases applied : names.apply? before with
      | none => exact named_of_mem_rawReferences (rawReferences_eq d ▸ List.mem_map_of_mem stood)
      | some t => exact replaced before t applied
    · exact ⟨(r, false), passed, rfl⟩
  rw [Refers, inDefinitions, inRaw, ← or_assoc, ← exists_or]
  simp only [Meets, or_and_right]

/-- Names that are given to references have to be known themselves. -/
theorem Sound.rename {names : List String} {d : Document} (sound : d.Sound names)
    {newNames : Renaming} (known : ∀ e ∈ newNames, e.2 ∈ names) :
    (d.rename newNames).Sound names := by
  have turns (r : Reference) (among : r.Among names) :
      (( newNames.apply? r).getD r).Among names := by
    rw [ Renaming.apply?]
    cases found : newNames.get? r.name with
    | none => exact among
    | some name => exact ⟨among.1, known _ (Table.mem_of_get? found)⟩
  have defines : ∀ name ∈ names, name ∈ (d.definitions.rename newNames).keys := by
    rw [Definitions.rename, Table.keys_mapValues]
    exact sound.graph.defines
  refine ⟨⟨defines, fun _ member => ?_⟩, fun r raw => ?_⟩
  · obtain ⟨e, listed, rfl⟩ := List.mem_map.mp member
    exact (sound.graph.each e listed).redirect turns
  have among (before : Reference) (met : Bool) (stood : (before, met) ∈ d.metReferences) :
      before.Among names := by
    apply sound.raw
    rw [rawReferences_eq]
    exact List.mem_map_of_mem stood
  rcases mem_rawReferences_rename raw with ⟨before, stood, rfl⟩ | passed
  · exact turns before (among before true stood)
  · exact among r false passed

end Document
/-- Where nothing is turned, everything stays. -/
theorem Keywords.redirectText_nothing (raw : String) : redirectText (fun _ => none) raw = raw := by
  unfold redirectText
  cases Reference.parse? raw <;> rfl

theorem Keywords.redirect_nothing (k : Keywords) : k.redirect (fun _ => none) = k := by
  have texts (t : Table String) : Table.mapValues (redirectText fun _ => none) t = t := by
    rw [funext redirectText_nothing]
    exact List.map_id' t
  have mapping (d : Discriminator) :
      { d with mapping := d.mapping.map (Table.mapValues (redirectText fun _ => none)) } = d := by
    obtain ⟨propertyName, mapping, extra⟩ := d
    cases mapping with
    | none => rfl
    | some t => rw [Option.map_some, texts]
  have list (l : List Reference) : l.map (fun r => r) = l := List.map_id' l
  rw [redirect]
  simp only [Option.getD_none, Option.map_id', funext list, mapping]

theorem Schema.redirect_nothing (s : Schema) : s.redirect (fun _ => none) = s := by
  induction s using children_induction with
  | step k c ih =>
    rw [redirect_mk, Keywords.redirect_nothing, Children.map_eq_self ((Children.each_iff _ c).mpr ih)]

namespace Json

theorem redirectMappingValue_nothing (value : Json) :
    redirectMappingValue (fun _ => none) value = value := by
  cases value with
  | str raw => exact congrArg str (Keywords.redirectText_nothing raw)
  | _ => rfl

mutual
theorem redirect_nothing (inDiscriminator : Bool) : ∀ value : Json,
    redirect (fun _ => none) inDiscriminator value = value
  | obj entries => by rw [redirect, redirectEntries_nothing inDiscriminator entries]
  | arr items => by rw [redirect, redirectItems_nothing items]
  | null => rfl
  | bool _ => rfl
  | num _ => rfl
  | str _ => rfl

theorem redirectEntries_nothing (inDiscriminator : Bool) : ∀ entries : List (String × Json),
    redirectEntries (fun _ => none) inDiscriminator entries = entries
  | [] => rfl
  | (key, value) :: rest => by
    rw [redirectEntries_cons, redirectEntries_nothing inDiscriminator rest]
    refine congrArg (fun v => (key, v) :: rest) ?_
    cases value with
    | str raw =>
      rw [redirectUnder, Keywords.redirectText_nothing]
      split <;> rfl
    | obj entries =>
      rw [redirectUnder, redirectEntries_nothing _ entries, funext redirectMappingValue_nothing]
      split
      · exact congrArg obj (List.map_id' entries)
      · rfl
    | arr items => rw [redirectUnder, redirectItems_nothing items]
    | _ => rfl

theorem redirectItems_nothing : ∀ items : List Json, redirectItems (fun _ => none) items = items
  | [] => rfl
  | value :: rest => by
    rw [redirectItems, redirect_nothing false value, redirectItems_nothing rest]
end

end Json
theorem Document.rename_nil (d : Document) : d.rename [] = d := by
  have definitions : d.definitions.rename [] = d.definitions := by
    rw [Definitions.rename, show Renaming.apply? [] = fun _ => none from rfl,
      funext Schema.redirect_nothing]
    exact List.map_id' d.definitions
  have raw : d.raw.mapValues (Json.redirect ( Renaming.apply? []) false) = d.raw := by
    rw [show Renaming.apply? [] = fun _ => none from rfl, funext (Json.redirect_nothing false)]
    exact List.map_id' d.raw
  rw [rename, definitions, raw]

end SchemaGraph
