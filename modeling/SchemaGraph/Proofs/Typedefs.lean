import SchemaGraph.Pass.Typedefs
import SchemaGraph.Proofs.Renaming

/- Folding typedefs and reference integrity. Names are given up and taken one after the other, but
   every reference is turned once. A reference is left dangling when its new name is given up in its
   turn, or when it stands in the raw part where no redirection comes. -/
namespace SchemaGraph.Typedefs

theorem length_typedefMarker : typedefMarker.length = 9 := by decide

theorem length_typeMarker : typeMarker.length = 6 := by decide

theorem replaceMarker_ne_nil {cs : List Char} (marked : hasMarker cs) : replaceMarker cs ≠ [] := by
  cases cs with
  | nil => cases marked
  | cons c rest =>
    rw [replaceMarker]
    split
    · intro empty
      have short := congrArg List.length empty
      rw [List.length_append, length_typeMarker, List.length_nil] at short
      omega
    · exact List.cons_ne_nil _ _

/-- The marker for types is shorter than the one for typedefs. -/
theorem length_replaceMarker {cs : List Char} (marked : hasMarker cs) :
    (replaceMarker cs).length < cs.length := by
  induction cs with
  | nil => cases marked
  | cons c rest ih =>
    rw [replaceMarker]
    split
    · rename_i here
      have long := (List.isPrefixOf_iff_prefix.mp here).length_le
      rw [length_typedefMarker] at long
      rw [List.length_append, List.length_drop, length_typedefMarker, length_typeMarker]
      omega
    · rename_i elsewhere
      have later : hasMarker rest := by simpa [hasMarker, elsewhere] using marked
      have shorter := ih later
      rw [List.length_cons, List.length_cons]
      omega

theorem typeName_ne_empty {name : String} (typedef : isTypedef name) : typeName name ≠ "" := by
  intro empty
  apply replaceMarker_ne_nil typedef
  have same := congrArg String.toList empty
  rwa [typeName, String.toList_ofList] at same

theorem typeName_ne_self {name : String} (typedef : isTypedef name) : typeName name ≠ name := by
  intro same
  have shorter := length_replaceMarker typedef
  have chars := congrArg String.toList same
  rw [typeName, String.toList_ofList] at chars
  rw [chars] at shorter
  exact absurd shorter (Nat.lt_irrefl _)

/-- The new names that a run gives. -/
def newNames (d : Document) : Renaming :=
  renames (d.definitions.values.flatMap unionMembers) (d.changeAfter strip).definitions

/-- The document with its typedefs folded, before its references are turned. -/
def folded (d : Document) : Document :=
  { d.changeAfter strip with
    definitions := ((newNames d).foldl settle ((d.changeAfter strip).definitions, {})).1 }

theorem run_eq (d : Document) : run d = ((folded d).rename (newNames d),
    .ok ((newNames d).foldl settle ((d.changeAfter strip).definitions, {})).2) := rfl

/-- The new name of one definition. -/
theorem rename_entry {fixed : List String} {definitions : Definitions} {name type : String}
    {s : Schema} {old : String}
    (given : (if !isTypedef name || fixed.contains name then none
      else match definitions.get? (typeName name) with
        | some target => if canReplace target s then some (name, typeName name) else none
        | none => some (name, typeName name)) = some (old, type)) :
    old = name ∧ isTypedef name ∧ type = typeName name := by
  split at given
  · cases given
  · rename_i movable
    have typedef : isTypedef name := by
      cases marked : isTypedef name with
      | true => rfl
      | false => simp [marked] at movable
    split at given
    · split at given
      · cases given
        exact ⟨rfl, typedef, rfl⟩
      · cases given
    · cases given
      exact ⟨rfl, typedef, rfl⟩

theorem mem_renames {fixed : List String} {definitions : Definitions} {entry : String × String}
    (renamed : entry ∈ renames fixed definitions) :
    entry.1 ∈ definitions.keys ∧ isTypedef entry.1 ∧ entry.2 = typeName entry.1 := by
  obtain ⟨⟨name, s⟩, member, given⟩ := List.mem_filterMap.mp renamed
  obtain ⟨old, type⟩ := entry
  obtain ⟨rfl, typedef, rfl⟩ := rename_entry given
  exact ⟨List.mem_map.mpr ⟨_, member, rfl⟩, typedef, rfl⟩

theorem distinct_renames {definitions : Definitions} (distinct : definitions.Distinct)
    (fixed : List String) : (renames fixed definitions).Distinct := by
  have sublist (g : String × Schema → Option (String × String))
      (sameKey : ∀ e out, g e = some out → out.1 = e.1) (l : Definitions) :
      (Table.keys (l.filterMap g)).Sublist l.keys := by
    induction l with
    | nil => exact List.Sublist.refl _
    | cons e rest ih =>
      cases given : g e with
      | none =>
        rw [List.filterMap_cons_none given]
        exact ih.cons e.1
      | some out =>
        rw [List.filterMap_cons_some given, Table.keys, List.map_cons, sameKey e out given]
        exact ih.cons_cons e.1
  apply List.Nodup.sublist _ distinct
  apply sublist
  intro e out given
  exact (rename_entry given).1

/-- The name is given up, and no definition takes it afterwards. -/
def Vacated (name : String) : Renaming → Prop
  | [] => False
  | (old, _) :: rest => (old = name ∧ name ∉ Table.values rest) ∨ Vacated name rest

instance (name : String) : (names : Renaming) → Decidable (Vacated name names)
  | [] => inferInstanceAs (Decidable False)
  | (old, _) :: rest =>
    have := instDecidableVacated name rest
    inferInstanceAs (Decidable ((old = name ∧ name ∉ Table.values rest) ∨ Vacated name rest))

theorem mem_keys_of_vacated {name : String} {names : Renaming} (vacated : Vacated name names) :
    name ∈ names.keys := by
  induction names with
  | nil => cases vacated
  | cons entry rest ih =>
    rcases vacated with ⟨same, _⟩ | later
    · exact List.mem_cons.mpr (Or.inl same.symm)
    · exact List.mem_cons_of_mem _ (ih later)

theorem settle_eq {state : Definitions × Report} {entry : String × String} {s : Schema}
    (found : state.1.get? entry.1 = some s) : settle state entry =
      if (state.1.erase entry.1).has entry.2 then
        (state.1.erase entry.1, { state.2 with removed := state.2.removed ++ [entry.1] })
      else (state.1.erase entry.1 ++ [(entry.2, s)],
        { state.2 with removed := state.2.removed ++ [entry.1],
                       created := state.2.created ++ [entry.2] }) := by
  obtain ⟨definitions, report⟩ := state
  unfold settle
  dsimp only at found ⊢
  rw [found]

theorem mem_keys_erase_iff (t : Definitions) (key name : String) :
    name ∈ (t.erase key).keys ↔ name ∈ t.keys ∧ name ≠ key := by
  simp only [Table.mem_keys_iff, Table.erase, List.mem_filter, decide_eq_true_eq, exists_and_right]

theorem mem_keys_settle_iff {state : Definitions × Report} {entry : String × String}
    (known : entry.1 ∈ state.1.keys) (name : String) : name ∈ (settle state entry).1.keys ↔
      (name ∈ state.1.keys ∧ name ≠ entry.1) ∨ name = entry.2 := by
  obtain ⟨s, found⟩ := (Table.exists_get?_iff _ _).mpr known
  rw [settle_eq found, ← mem_keys_erase_iff]
  split
  · rename_i taken
    refine ⟨Or.inl, ?_⟩
    rintro (left | rfl)
    · exact left
    · exact (Table.has_iff_mem_keys _ _).mp taken
  · rw [Table.keys_append, List.mem_append]
    simp [Table.keys]

theorem removed_settle {state : Definitions × Report} {entry : String × String}
    (known : entry.1 ∈ state.1.keys) :
    (settle state entry).2.removed = state.2.removed ++ [entry.1] := by
  obtain ⟨s, found⟩ := (Table.exists_get?_iff _ _).mpr known
  rw [settle_eq found]
  split <;> rfl

theorem settle_of_get?_eq_none {state : Definitions × Report} {entry : String × String}
    (missing : state.1.get? entry.1 = none) : settle state entry = state := by
  obtain ⟨definitions, report⟩ := state
  unfold settle
  dsimp only at missing ⊢
  rw [missing]

/-- A definition that is there afterwards was there before, perhaps under another name. -/
theorem exists_mem_of_mem_settle {state : Definitions × Report} {entry : String × String}
    {e : String × Schema} (member : e ∈ (settle state entry).1) :
    ∃ name, (name, e.2) ∈ state.1 := by
  cases found : state.1.get? entry.1 with
  | none =>
    rw [settle_of_get?_eq_none found] at member
    exact ⟨e.1, member⟩
  | some s =>
    rw [settle_eq found] at member
    split at member
    · exact ⟨e.1, (List.mem_filter.mp member).1⟩
    · rcases List.mem_append.mp member with left | created
      · exact ⟨e.1, (List.mem_filter.mp left).1⟩
      · rw [List.mem_singleton.mp created]
        exact ⟨entry.1, Table.mem_of_get? found⟩

section
variable {names : Renaming} {state : Definitions × Report}

/-- Whatever stood under a name that is settled later is there still. -/
theorem known_settle {entry : String × String} {rest : Renaming}
    (distinct : Table.Distinct (entry :: rest)) (known : entry.1 ∈ state.1.keys)
    (later : ∀ e ∈ rest, e.1 ∈ state.1.keys) : ∀ e ∈ rest, e.1 ∈ (settle state entry).1.keys := by
  intro e member
  have other : e.1 ≠ entry.1 := by
    intro same
    apply (List.nodup_cons.mp distinct).1
    exact List.mem_map.mpr ⟨e, member, same⟩
  exact (mem_keys_settle_iff known e.1).mpr (Or.inl ⟨later e member, other⟩)

/-- The names that are left: those that were there or were taken, without the vacated ones. -/
theorem mem_keys_foldl_settle_iff (distinct : names.Distinct)
    (known : ∀ e ∈ names, e.1 ∈ state.1.keys) (changes : ∀ e ∈ names, e.2 ≠ e.1) (name : String) :
    name ∈ (names.foldl settle state).1.keys ↔
      (name ∈ state.1.keys ∨ name ∈ names.values) ∧ ¬ Vacated name names := by
  induction names generalizing state with
  | nil => simp [Vacated, Table.values]
  | cons entry rest ih =>
    obtain ⟨knownHere, knownLater⟩ := List.forall_mem_cons.mp known
    obtain ⟨changesHere, changesLater⟩ := List.forall_mem_cons.mp changes
    have distinctRest : Table.Distinct rest := (List.nodup_cons.mp distinct).2
    rw [List.foldl_cons, ih distinctRest (known_settle distinct knownHere knownLater) changesLater,
      mem_keys_settle_iff knownHere]
    have values : Table.values (entry :: rest) = entry.2 :: Table.values rest := rfl
    rw [values, Vacated, List.mem_cons]
    by_cases own : name = entry.1
    · subst own
      tauto
    · tauto

theorem removed_foldl_settle (distinct : names.Distinct)
    (known : ∀ e ∈ names, e.1 ∈ state.1.keys) :
    (names.foldl settle state).2.removed = state.2.removed ++ names.keys := by
  induction names generalizing state with
  | nil => simp [Table.keys]
  | cons entry rest ih =>
    obtain ⟨knownHere, knownLater⟩ := List.forall_mem_cons.mp known
    rw [List.foldl_cons,
      ih (List.nodup_cons.mp distinct).2 (known_settle distinct knownHere knownLater),
      removed_settle knownHere, List.append_assoc]
    rfl

theorem exists_mem_of_mem_foldl_settle {e : String × Schema}
    (member : e ∈ (names.foldl settle state).1) : ∃ name, (name, e.2) ∈ state.1 := by
  induction names generalizing state with
  | nil => exact ⟨e.1, member⟩
  | cons entry rest ih =>
    obtain ⟨name, later⟩ := ih member
    obtain ⟨earlier, stood⟩ := exists_mem_of_mem_settle later
    exact ⟨earlier, stood⟩

end

/-- Every definition of the result is one of those without markers, with its references turned. -/
theorem exists_of_mem_run {e : String × Schema} (listed : e ∈ (run d).1.definitions) :
    ∃ name s, (name, s) ∈ (d.changeAfter strip).definitions ∧
      e.2 = s.redirect ( Renaming.apply? (newNames d)) := by
  rw [run_eq] at listed
  obtain ⟨⟨_, s⟩, stood, rfl⟩ := List.mem_map.mp listed
  obtain ⟨name, before⟩ := exists_mem_of_mem_foldl_settle stood
  exact ⟨name, s, before, rfl⟩

theorem each_strip {p : Reference → Prop} (position : Position) {s : Schema} (h : s.Each p) :
    (strip position s).Each p :=
  .mk { h.own with ancestor := by simp, descendants := by simp } h.below

section
variable {d : Document}

theorem keys_stripped (d : Document) : (d.changeAfter strip).definitions.keys = d.definitions.keys := by
  rw [Document.changeAfter, Definitions.change, Table.keys, List.map_map]
  rfl

theorem mem_newNames {entry : String × String} (renamed : entry ∈ newNames d) :
    entry.1 ∈ d.definitions.keys ∧ isTypedef entry.1 ∧ entry.2 = typeName entry.1 := by
  rw [← keys_stripped d]
  exact mem_renames renamed

theorem distinct_newNames (distinct : d.definitions.Distinct) : (newNames d).Distinct := by
  apply distinct_renames
  unfold Table.Distinct at distinct ⊢
  rw [keys_stripped]
  exact distinct

/-- What a folded document refers to is what the document referred to. -/
theorem among_of_refers_folded (closed : d.Closed) (plain : d.Plain) {r : Reference}
    (refers : (folded d).Refers r) : r.Among d.definitions.keys := by
  have sound := d.sound_of_closed closed plain
  have stripped : ∀ e ∈ (d.changeAfter strip).definitions,
      e.2.Each (Reference.Among d.definitions.keys) :=
    Document.every_changeAfter sound.graph.each fun position _ => each_strip position
  rcases refers with ⟨name, s, member, node, inside, refers⟩ | raw
  · obtain ⟨before, stood⟩ := exists_mem_of_mem_foldl_settle member
    exact (Keywords.each_iff _ _).mp (stripped _ stood node inside) r refers
  · exact sound.raw r raw

theorem mem_keys_run_iff (distinct : d.definitions.Distinct) (name : String) :
    name ∈ (run d).1.definitions.keys ↔
      (name ∈ d.definitions.keys ∨ name ∈ (newNames d).values) ∧ ¬ Vacated name (newNames d) := by
  rw [run_eq, Document.rename, Definitions.rename, Table.keys_mapValues, ← keys_stripped d]
  apply mem_keys_foldl_settle_iff (distinct_newNames distinct)
  · intro e renamed
    rw [keys_stripped]
    exact (mem_newNames renamed).1
  · intro e renamed
    obtain ⟨_, typedef, same⟩ := mem_newNames renamed
    rw [same]
    exact typeName_ne_self typedef

/-- A renamed reference leads somewhere unless its new name was given up, any other one unless its
own name was. -/
theorem turned_mem_keys_run_iff (distinct : d.definitions.Distinct) {r : Reference}
    (known : r.name ∈ d.definitions.keys) :
    (( Renaming.apply? (newNames d) r).getD r).name ∈ (run d).1.definitions.keys ↔
      ∀ type, (newNames d).get? r.name = some type → ¬ Vacated type (newNames d) := by
  rw [mem_keys_run_iff distinct]
  unfold Renaming.apply?
  cases renamed : (newNames d).get? r.name with
  | none =>
    have kept : ¬ Vacated r.name (newNames d) := by
      intro vacated
      exact (Table.get?_eq_none_iff _ _).mp renamed (mem_keys_of_vacated vacated)
    simp [known, kept]
  | some type =>
    have taken : type ∈ (newNames d).values :=
      List.mem_map.mpr ⟨_, Table.mem_of_get? renamed, rfl⟩
    simp [Reference.renamed, Reference.ofParts, taken]

/-- Cleaning up does not fail and leaves plain references. A closed document stays closed exactly
when no reference is given a name that is given up in its turn, and none that is passed over has
such a name; so always when no typedef stands for a typedef and no typedef is passed over. -/
theorem closed_cleaned_iff (d : Document) (distinct : d.definitions.Distinct) (closed : d.Closed)
    (plain : d.Plain) :
    (∃ report, (run d).2 = .ok report ∧ report.removed = (newNames d).keys) ∧ (run d).1.Plain ∧
    ((run d).1.Closed ↔
      (∀ r, (folded d).Meets r → ∀ type, (newNames d).get? r.name = some type →
        ¬ Vacated type (newNames d)) ∧
      ∀ r, d.PassesOver r → ¬ Vacated r.name (newNames d)) ∧
    ((∀ name ∈ d.definitions.keys, isTypedef name → ¬ isTypedef (typeName name)) →
      (∀ r, d.PassesOver r → ¬ isTypedef r.name) → (run d).1.Closed) := by
  have named : ∀ e ∈ newNames d, e.2 ≠ "" := by
    intro e renamed
    obtain ⟨_, typedef, same⟩ := mem_newNames renamed
    rw [same]
    exact typeName_ne_empty typedef
  have refers_iff (r : Reference) : (run d).1.Refers r ↔
      (∃ before, (folded d).Meets before ∧ ( Renaming.apply? (newNames d) before).getD before = r) ∨
        d.PassesOver r := (folded d).refers_rename_iff named r
  have among (r : Reference) (refers : (folded d).Meets r ∨ d.PassesOver r) :
      r.Among d.definitions.keys :=
    among_of_refers_folded closed plain (((folded d).refers_iff_meets r).mpr refers)
  have turned_plain (r : Reference) (isPlain : r.IsPlain) :
      (( Renaming.apply? (newNames d) r).getD r).IsPlain := by
    rw [ Renaming.apply?]
    cases ( newNames d).get? r.name with
    | none => exact isPlain
    | some type => exact isPlain
  have plainRun : (run d).1.Plain := by
    rw [Document.plain_iff]
    intro r refers
    rcases (refers_iff r).mp refers with ⟨before, met, rfl⟩ | passed
    · exact turned_plain before (among before (Or.inl met)).1
    · exact (among r (Or.inr passed)).1
  have closed_iff : (run d).1.Closed ↔
      (∀ r, (folded d).Meets r → ∀ type, (newNames d).get? r.name = some type →
        ¬ Vacated type (newNames d)) ∧
      ∀ r, d.PassesOver r → ¬ Vacated r.name (newNames d) := by
    rw [Document.closed_iff_of_plain plainRun]
    simp only [refers_iff]
    constructor
    · intro known
      constructor
      · intro r met
        exact (turned_mem_keys_run_iff distinct (among r (Or.inl met)).2).mp
          (known _ (Or.inl ⟨r, met, rfl⟩))
      · intro r passed
        exact ((mem_keys_run_iff distinct r.name).mp (known r (Or.inr passed))).2
    · rintro ⟨met_kept, passed_kept⟩ r (⟨before, met, rfl⟩ | passed)
      · exact (turned_mem_keys_run_iff distinct (among before (Or.inl met)).2).mpr
          (met_kept before met)
      · exact (mem_keys_run_iff distinct r.name).mpr
          ⟨Or.inl (among r (Or.inr passed)).2, passed_kept r passed⟩
  refine ⟨⟨_, rfl, ?_⟩, plainRun, closed_iff, ?_⟩
  · apply removed_foldl_settle (distinct_newNames distinct)
    intro e renamed
    rw [keys_stripped]
    exact (mem_newNames renamed).1
  · intro apart passed
    have typedef_of_vacated {name : String} (vacated : Vacated name (newNames d)) :
        isTypedef name := by
      obtain ⟨e, renamed, rfl⟩ := List.mem_map.mp (mem_keys_of_vacated vacated)
      exact (mem_newNames renamed).2.1
    rw [closed_iff]
    constructor
    · intro r _ type given vacated
      obtain ⟨known, typedef, same⟩ := mem_newNames (Table.mem_of_get? given)
      apply apart r.name known typedef
      rw [← same]
      exact typedef_of_vacated vacated
    · intro r passedOver vacated
      exact passed r passedOver (typedef_of_vacated vacated)

end

/-- One typedef stands for a type that is a typedef itself and comes later. -/
def chain : Document where
  raw := [("definitions", .null)]
  flavor := .definitions
  hasSlot := true
  definitions :=
    let text : Schema := { keywords := { type := some "string" } }
    let use : Schema := .ofReference (.toDefinition "A_typedef_B_typedef_C" .definitions)
    [("A_typedef_B_typedef_C", text), ("A_type_B_typedef_C", text),
      ("Holder", { children := { properties := some [("p", use)] } })]

theorem closed_cleaned_iff_chain : chain.definitions.Distinct ∧ chain.Closed ∧ chain.Plain ∧
    (run chain).1.Plain ∧
    ((run chain).1.Closed ↔
      (∀ r, (folded chain).Meets r → ∀ type, (newNames chain).get? r.name = some type →
        ¬ Vacated type (newNames chain)) ∧
      ∀ r, chain.PassesOver r → ¬ Vacated r.name (newNames chain)) := by
  have cleaned := closed_cleaned_iff chain (by decide) rfl (by decide)
  exact ⟨by decide, rfl, by decide, cleaned.2.1, cleaned.2.2.1⟩

theorem typedef_of_typedef_left_dangling :
    chain.Closed ∧ chain.Plain ∧ ¬ (run chain).1.Closed := by
  refine ⟨rfl, by decide, ?_⟩
  intro closed
  cases closed

/-- The other way round the type has left its name before the typedef takes it. -/
example : (run { chain with definitions := chain.definitions.reverse }).1.Closed := rfl

end SchemaGraph.Typedefs
