import SchemaGraph.Proofs.NilCopies
import SchemaGraph.Proofs.Renaming

/- Which sites lead to definitions that allow nil. Those that the walk meets outside of `allOf` are
   asked, and each of them ends at a definition that allows nil exactly if it does. The others stay
   as they are, whether they allow nil or not: where they lead is decided by the sites that are
   asked. -/
namespace SchemaGraph

namespace Place

/-- Whether the node is a member of an `allOf`. -/
def isMember (place : Place) : Bool :=
  match place.getLast? with
  | some (.allOf _) => true
  | _ => false

/-- Whether a site at the place is asked. -/
def counts (place : Place) : Bool := place.isEntered && place.trail.tail.head? != some "allOf"

theorem index_ne_allOf (i : Nat) : i.repr ≠ "allOf" :=
  Step.index_ne (show 'a' ∈ "allOf".toList by decide) (by decide) i

theorem head?_trail_eq_allOf_iff (place : Place) : place.trail.head? = some "allOf" ↔
    ∃ before, place = before ++ [.property "allOf"] := by
  cases place using List.reverseRecOn with
  | nil => simp [trail]
  | append_singleton before step =>
    rw [trail_concat]
    cases step <;> simp [Step.segments, index_ne_allOf]

/-- Not asked are the members of `allOf`, what the walk does not enter, and the items of a property
that happens to be called `allOf`. -/
theorem counts_iff (place : Place) : place.counts ↔ place.isEntered ∧ ¬ place.isMember ∧
    ¬ ∃ before, place = before ++ [.property "allOf", .items] := by
  cases place using List.reverseRecOn with
  | nil => simp [counts, isEntered, isMember, trail]
  | append_singleton before step =>
    rw [counts, trail_concat]
    have apart (more : Place) (other : Step) :
        before ++ [step] = more ++ [.property "allOf", other] ↔
          before = more ++ [.property "allOf"] ∧ step = other := by
      rw [List.append_cons more, List.append_singleton_inj]
    have underAllOf := head?_trail_eq_allOf_iff before
    cases step <;> simp [Step.segments, isEntered, Step.isEntered, isMember, apart, underAllOf]

end Place

namespace Json

def allowsNil (entries : Table Json) : Bool :=
  match entries.get? "x-nullable" with
  | some (bool value) => value
  | _ => false

mutual
/-- Every `$ref` in a raw value that reads as a reference, with whether its object allows nil. -/
def markedReferences : Json → List (Reference × Bool)
  | obj entries =>
    (ownReference entries).map (·, allowsNil entries) ++ markedInEntries entries
  | arr items => markedInItems items
  | _ => []

def markedInEntries : List (String × Json) → List (Reference × Bool)
  | [] => []
  | (_, value) :: rest => value.markedReferences ++ markedInEntries rest

def markedInItems : List Json → List (Reference × Bool)
  | [] => []
  | value :: rest => value.markedReferences ++ markedInItems rest
end

mutual
theorem map_fst_markedReferences (trail : List String) : ∀ value : Json,
    value.markedReferences.map Prod.fst = (value.placedReferences trail).map Prod.fst
  | obj entries => by
    rw [markedReferences, placedReferences_obj, List.map_append, List.map_append, List.map_map,
      List.map_map, map_fst_markedInEntries trail entries]
    rfl
  | arr items => by
    rw [markedReferences, placedReferences]
    exact map_fst_markedInItems trail 0 items
  | null => rfl
  | bool _ => rfl
  | num _ => rfl
  | str _ => rfl

theorem map_fst_markedInEntries (trail : List String) : ∀ entries : List (String × Json),
    (markedInEntries entries).map Prod.fst = (placedInEntries trail entries).map Prod.fst
  | [] => rfl
  | (key, value) :: rest => by
    rw [markedInEntries, placedInEntries, List.map_append, List.map_append,
      map_fst_markedReferences (key :: trail) value, map_fst_markedInEntries trail rest]

theorem map_fst_markedInItems (trail : List String) (index : Nat) : ∀ items : List Json,
    (markedInItems items).map Prod.fst = (placedInItems trail index items).map Prod.fst
  | [] => rfl
  | value :: rest => by
    rw [markedInItems, placedInItems, List.map_append, List.map_append,
      map_fst_markedReferences (toString index :: trail) value,
      map_fst_markedInItems trail (index + 1) rest]
end

end Json

def Document.rawUses (d : Document) : List (Reference × Bool) :=
  d.raw.flatMap fun entry => entry.2.markedReferences

theorem Document.map_fst_rawUses (d : Document) : d.rawUses.map Prod.fst = d.rawReferences := by
  rw [rawUses, rawReferences, List.map_flatMap, List.map_flatMap]
  exact congrArg (List.flatMap · d.raw)
    (funext fun entry => Json.map_fst_markedReferences [entry.1] entry.2)

namespace Definitions

theorem mem_visits_iff {definitions : Definitions} (distinct : definitions.Distinct)
    (keyed : ∀ e ∈ definitions, e.2.keyed) (v : Visit) :
    v ∈ definitions.visits ↔ ∃ place : Place, place.isEntered ∧
      definitions.at? v.definition place = some v.keywords ∧ v.trail = place.trail := by
  rw [visits, List.mem_flatMap]
  constructor
  · rintro ⟨⟨name, root⟩, member, visited⟩
    obtain ⟨same, place, entered, found, here⟩ :=
      (Schema.mem_visits_iff (keyed _ member) (Nat.le_refl _) name [] v).mp visited
    refine ⟨place, entered, ?_, by rw [here, List.append_nil]⟩
    rw [at?, same, Table.get?_of_mem distinct member]
    exact found
  · rintro ⟨place, entered, found, here⟩
    obtain ⟨root, defined, found⟩ := Option.bind_eq_some_iff.mp found
    have member := Table.mem_of_get? defined
    refine ⟨_, member, (Schema.mem_visits_iff (keyed _ member) (Nat.le_refl _) _ [] v).mpr ?_⟩
    exact ⟨rfl, place, entered, found, by rw [here, List.append_nil]⟩

end Definitions

namespace NilSplit

/-- The node at the place refers to `r`, with a mark that allows nil or without. -/
def UsedAt (definitions : Definitions) (name : String) (place : Place) (r : Reference)
    (marked : Bool) : Prop :=
  ∃ k, definitions.at? name place = some k ∧ k.reference = some r ∧
    (k.xNullable == some true) = marked

theorem request?_eq_some_iff (trail : List String) (k : Keywords) (r : Reference) (marked : Bool) :
    request? trail k = some (r, marked) ↔
      trail.tail.head? ≠ some "allOf" ∧ k.reference = some r ∧
        (k.xNullable == some true) = marked := by
  rw [request?]
  split
  · rename_i member
    exact iff_of_false (Option.some_ne_none _).symm fun asks => asks.1 member
  · rename_i counted
    rw [and_iff_right counted]
    cases k.reference <;> simp

/-- A site that counts asks for the definition. -/
def Asked (d : Document) (marked : Bool) (name : String) : Prop :=
  ∃ definition place r, Place.counts place ∧ UsedAt d.definitions definition place r marked ∧
    r.name = name

/-- The definition is asked for, or one to whose hierarchy it belongs. -/
def Demanded (options : Options) (d : Document) (marked : Bool) (name : String) : Prop :=
  ∃ start, Asked d marked start ∧
    Relation.ReflTransGen (Spreads d.definitions options.maxDepth) start name

section
variable {options : Options} {d : Document} (distinct : d.definitions.Distinct)
  (keyed : ∀ e ∈ d.definitions, e.2.keyed)
include distinct keyed

theorem exists_visit_iff (name : String) (trail : List String) (r : Reference) (marked : Bool) :
    (∃ v ∈ d.definitions.visits, request? v.trail v.keywords = some (r, marked) ∧
      (v.definition, v.trail) = (name, trail)) ↔
    ∃ place, Place.counts place ∧ UsedAt d.definitions name place r marked ∧
      place.trail = trail := by
  simp only [Definitions.mem_visits_iff distinct keyed, request?_eq_some_iff, Prod.mk.injEq,
    Place.counts, Bool.and_eq_true, bne_iff_ne]
  constructor
  · rintro ⟨⟨_, _, k⟩, ⟨place, entered, found, rfl⟩, ⟨counted, refers⟩, rfl, rfl⟩
    exact ⟨place, ⟨entered, counted⟩, ⟨k, found, refers⟩, rfl⟩
  · rintro ⟨place, ⟨entered, counted⟩, ⟨k, found, refers⟩, rfl⟩
    exact ⟨⟨name, place.trail, k⟩, ⟨place, entered, found, rfl⟩, ⟨counted, refers⟩, rfl, rfl⟩

theorem asked_iff (marked : Bool) (name : String) : Asked d marked name ↔
    ∃ v ∈ d.definitions.visits, ∃ r, request? v.trail v.keywords = some (r, marked) ∧
      r.name = name := by
  constructor
  · rintro ⟨definition, place, r, counts, used, named⟩
    obtain ⟨v, visited, asks, _⟩ := (exists_visit_iff distinct keyed _ _ r marked).mpr
      ⟨place, counts, used, rfl⟩
    exact ⟨v, visited, r, asks, named⟩
  · rintro ⟨v, visited, r, asks, named⟩
    obtain ⟨place, counts, used, _⟩ := (exists_visit_iff distinct keyed v.definition v.trail r
      marked).mp ⟨v, visited, asks, rfl⟩
    exact ⟨v.definition, place, r, counts, used, named⟩

theorem mem_nillableNames_iff_demanded (name : String) :
    name ∈ nillableNames options d ↔ Demanded options d true name := by
  rw [mem_nillableNames_iff]
  refine exists_congr fun start => and_congr_left' ?_
  rw [asked_iff distinct keyed, demand, (noted_foldl d.definitions.visits {}).nillable]
  simp

theorem mem_plainNames_iff_demanded (name : String) :
    name ∈ plainNames options d ↔ Demanded options d false name := by
  rw [mem_plainNames_iff]
  refine exists_congr fun start => and_congr_left' ?_
  rw [asked_iff distinct keyed, demand, (noted_foldl d.definitions.visits {}).plain]
  simp

theorem mem_sites_iff {name : String} {place : Place} {r : Reference} {marked : Bool}
    (used : UsedAt d.definitions name place r marked) :
    (name, place.trail) ∈ (demand d).sites ↔ place.counts ∧ marked = true := by
  have noted := (noted_foldl d.definitions.visits {}).sites (name, place.trail)
  rw [demand, noted, or_iff_right (by simp)]
  constructor
  · rintro ⟨v, visited, other, asks, here⟩
    obtain ⟨_, counts, ⟨k, found, _, allows⟩, same⟩ :=
      (exists_visit_iff distinct keyed _ _ _ _).mp ⟨v, visited, asks, here⟩
    -- No other node has the trail, so the visit was that of the site.
    obtain rfl := Place.trail_injective same
    obtain ⟨_, found', _, rfl⟩ := used
    rw [found] at found'
    cases found'
    exact ⟨counts, allows⟩
  · rintro ⟨counts, rfl⟩
    obtain ⟨v, visited, asks, here⟩ := (exists_visit_iff distinct keyed name place.trail r true).mpr
      ⟨place, counts, used, rfl⟩
    exact ⟨v, visited, r, asks, here⟩

end

def Nillable (definitions : Definitions) (name : String) : Prop :=
  ∃ s, definitions.get? name = some s ∧ s.keywords.xNullable = some true

section
variable (options : Options) (d : Document)

theorem at?_turned (name : String) (place : Place) : (turned options d).at? name place =
    (d.definitions.at? name place).map fun k => if place.isEntered then
      turn (splitNames options d) (demand d).sites name place.trail (clear name place.trail k)
    else k := by
  rw [turned, Definitions.at?_change, Definitions.at?_change, Option.map_map]
  refine congrArg (Option.map · _) (funext fun k => ?_)
  dsimp only [Function.comp]
  split <;> rfl

theorem xNullable_clear (name : String) (trail : List String) {k : Keywords}
    (unmarked : k.xNullable ≠ some true) : (clear name trail k).xNullable ≠ some true := by
  rw [clear]
  split
  · simp
  · exact unmarked

theorem reference_clear (name : String) (trail : List String) (k : Keywords) :
    (clear name trail k).reference = k.reference := by
  rw [clear]
  split <;> rfl

theorem xNullable_turn (split : List String) (sites : List Site) (name : String)
    (trail : List String) (k : Keywords) :
    (turn split sites name trail k).xNullable = k.xNullable := by
  rw [turn]
  split
  · split <;> rfl
  · rfl

theorem reference_turn (split : List String) (sites : List Site) (name : String)
    (trail : List String) (k : Keywords) :
    (turn split sites name trail k).reference = k.reference.map fun r =>
      if split.contains r.name && sites.contains (name, trail) then r.withSuffix suffix else r := by
  rw [turn]
  split
  · rename_i r refers
    rw [refers, Option.map_some]
    split
    · rfl
    · exact refers
  · rename_i none
    rw [none]
    rfl

variable {d}

theorem not_nillable_turned (unmarked : ∀ name, ¬ Nillable d.definitions name) (name : String) :
    ¬ Nillable (turned options d) name := by
  rintro ⟨s, found, marked⟩
  have root := at?_turned options d name []
  rw [Definitions.at?, found] at root
  obtain ⟨k, stood, turns⟩ := Option.map_eq_some_iff.mp root.symm
  obtain ⟨original, defined, same⟩ := Option.bind_eq_some_iff.mp stood
  obtain rfl := Option.some.inj same
  have before : original.keywords.xNullable ≠ some true :=
    fun marked => unmarked name ⟨original, defined, marked⟩
  have after := xNullable_clear name (Place.trail []) before
  rw [← xNullable_turn (splitNames options d) (demand d).sites name (Place.trail [])] at after
  exact after ((congrArg Keywords.xNullable turns).trans marked)

theorem used_turned (distinct : d.definitions.Distinct) (keyed : ∀ e ∈ d.definitions, e.2.keyed)
    {name : String} {place : Place} {r : Reference} {marked : Bool}
    (used : UsedAt d.definitions name place r marked) :
    ∃ k, (turned options d).at? name place = some k ∧ k.reference = some
      (if place.counts && marked && (splitNames options d).contains r.name then r.withSuffix suffix
      else r) := by
  have ⟨k, found, refers, _⟩ := used
  rw [at?_turned, found, Option.map_some]
  refine ⟨_, rfl, ?_⟩
  have site : (demand d).sites.contains (name, place.trail) = (place.counts && marked) := by
    rw [Bool.eq_iff_iff, List.contains_iff_mem, mem_sites_iff distinct keyed used,
      Bool.and_eq_true_iff]
  split
  · rw [reference_turn, reference_clear, refers, Option.map_some, site, Bool.and_comm]
  · rename_i skipped
    have asksNothing : place.counts = false := by simp [Place.counts, skipped]
    rw [asksNothing]
    exact refers

end

theorem get?_settled_of_mem {maxDepth : Nat} {split names : List String} (nodup : names.Nodup)
    (start : Definitions) {name : String} (member : name ∈ names)
    (free : ∀ other ∈ names, other ∈ split → other ++ suffix ≠ name) :
    (names.foldl (settle maxDepth split) start).get? name =
      (start.get? name).map (settledRoot split name) := by
  obtain ⟨earlier, later, rfl⟩ := List.append_of_mem member
  obtain ⟨_, nodupLater, disjoint⟩ := List.nodup_append.mp nodup
  have notEarlier : name ∉ earlier := fun member => disjoint name member name (by simp) rfl
  have notLater : name ∉ later := (List.nodup_cons.mp nodupLater).1
  rw [List.foldl_append, List.foldl_cons,
    get?_settled_of_notMem _ _ _ notLater fun other member => free other (by simp [member]),
    get?_settle_self,
    get?_settled_of_notMem _ _ _ notEarlier fun other member => free other (by simp [member])]

theorem reference_settledRoot (split : List String) (name : String) (place : Place) (s : Schema) :
    (Schema.at? place (settledRoot split name s)).bind Keywords.reference =
      (s.at? place).bind Keywords.reference := by
  cases place with
  | nil =>
    rw [settledRoot, unmark]
    split
    · split <;> rfl
    · rfl
  | cons step rest => rw [Schema.at?, children_settledRoot, Schema.at?]

section
variable (options : Options) {d : Document} (closed : d.Closed)
  (apart : ∀ name ∈ d.definitions.keys, name ++ suffix ∉ d.definitions.keys)
include closed apart

theorem get?_settled {name : String} (known : name ∈ d.definitions.keys) :
    (settled options d).get? name = ((turned options d).get? name).map fun s =>
      if name ∈ nillableNames options d then settledRoot (splitNames options d) name s else s := by
  have free : ∀ other ∈ nillableNames options d, other ∈ splitNames options d →
      other ++ suffix ≠ name := fun other nillable _ same =>
    apart other (mem_keys_of_nillable closed nillable) (same ▸ known)
  rw [settled]
  by_cases nillable : name ∈ nillableNames options d
  · simp only [nillable, if_true]
    exact get?_settled_of_mem (nodup_nillableNames options d) _ nillable free
  · simp only [nillable, if_false, Option.map_id']
    exact get?_settled_of_notMem _ _ _ nillable free

theorem nillable_settled_iff (unmarked : ∀ name, ¬ Nillable d.definitions name) {name : String}
    (known : name ∈ d.definitions.keys) : Nillable (settled options d) name ↔
      name ∈ nillableNames options d ∧ name ∉ plainNames options d := by
  have inTurned : name ∈ (turned options d).keys := keys_turned options d ▸ known
  obtain ⟨s, stood⟩ := (Table.exists_get?_iff _ _).mpr inTurned
  have root : s.keywords.xNullable ≠ some true := fun marked =>
    not_nillable_turned options unmarked name ⟨s, stood, marked⟩
  rw [Nillable, get?_settled options closed apart known, stood, Option.map_some]
  simp only [Option.some.injEq, exists_eq_left']
  by_cases nillable : name ∈ nillableNames options d
  · by_cases plain : name ∈ plainNames options d
    · have split := (mem_splitNames_iff name).mpr ⟨nillable, plain⟩
      simp [nillable, plain, settledRoot, split, unmark, root]
    · have alone : name ∉ splitNames options d := fun split =>
        plain ((mem_splitNames_iff name).mp split).2
      simp [nillable, plain, settledRoot, alone, mark]
  · simp [nillable, root]

theorem nillable_copy {name : String} (split : name ∈ splitNames options d) :
    Nillable (settled options d) (name ++ suffix) := by
  have nillable := nillable_of_split split
  have known := mem_keys_of_split closed split
  have free : ∀ other ∈ splitNames options d, other ++ suffix ≠ name :=
    fun other copied same => apart other (mem_keys_of_split closed copied) (same ▸ known)
  obtain ⟨root, stood⟩ := (Table.exists_get?_iff _ _).mpr (mem_keys_turned closed name nillable)
  obtain ⟨made, later, last, within, others, copies⟩ := copy_settled options.maxDepth _
    (nodup_nillableNames options d) stood nillable split free
  have notLater : name ++ suffix ∉ later := fun member =>
    apart name known (mem_keys_of_nillable closed (within member))
  have stays := get?_settled_of_notMem options.maxDepth (splitNames options d) made notLater
    fun other member _ => others other member
  exact ⟨_, by rw [settled, last, stays, copies], rfl⟩

theorem reference_settled {name : String} (known : name ∈ d.definitions.keys) (place : Place) :
    ((settled options d).at? name place).bind Keywords.reference =
      ((turned options d).at? name place).bind Keywords.reference := by
  rw [Definitions.at?, Definitions.at?, get?_settled options closed apart known]
  cases (turned options d).get? name with
  | none => rfl
  | some s =>
    rw [Option.map_some, Option.bind_some, Option.bind_some]
    split
    · exact reference_settledRoot _ name place s
    · rfl

end

/-- Sites that count ask for the definition with nil, and none without. -/
def NilOnly (options : Options) (d : Document) (name : String) : Prop :=
  Demanded options d true name ∧ ¬ Demanded options d false name

/-- The node at the place refers to a definition that allows nil exactly if it is to. -/
def LeadsTo (definitions : Definitions) (name : String) (place : Place) (allowed : Prop) : Prop :=
  ∃ k r, definitions.at? name place = some k ∧ k.reference = some r ∧
    r.name ∈ definitions.keys ∧ (Nillable definitions r.name ↔ allowed)

theorem LeadsTo.congr {definitions : Definitions} {name : String} {place : Place}
    {allowed also : Prop} (leads : LeadsTo definitions name place allowed) (same : also ↔ allowed) :
    LeadsTo definitions name place also := by
  obtain ⟨k, r, here, refers, known, nillable⟩ := leads
  exact ⟨k, r, here, refers, known, nillable.trans same.symm⟩

theorem LeadsTo.unique {definitions : Definitions} {name : String} {place : Place}
    {allowed also : Prop} (leads : LeadsTo definitions name place allowed)
    (leadsAlso : LeadsTo definitions name place also) : also ↔ allowed := by
  obtain ⟨k, r, here, refers, _, nillable⟩ := leads
  obtain ⟨_, _, here', refers', _, nillable'⟩ := leadsAlso
  rw [here] at here'
  cases here'
  rw [refers] at refers'
  cases refers'
  exact nillable'.symm.trans nillable

section
variable (options : Options) {d : Document} (distinct : d.definitions.Distinct)
  (keyed : ∀ e ∈ d.definitions, e.2.keyed) (closed : d.Closed)
  (apart : ∀ name ∈ d.definitions.keys, name ++ suffix ∉ d.definitions.keys)
  (unmarked : ∀ name, ¬ Nillable d.definitions name)
include distinct keyed closed apart unmarked

theorem nillable_settled_iff_nilOnly {name : String} (known : name ∈ d.definitions.keys) :
    Nillable (settled options d) name ↔ NilOnly options d name := by
  rw [nillable_settled_iff options closed apart unmarked known,
    mem_nillableNames_iff_demanded distinct keyed,
    mem_plainNames_iff_demanded distinct keyed, NilOnly]

theorem leadsTo_settled {name : String} {place : Place} {r : Reference} {marked : Bool}
    (used : UsedAt d.definitions name place r marked) : LeadsTo (settled options d) name place
      (if place.counts then marked = true else NilOnly options d r.name) := by
  have ⟨k, found, refers, _⟩ := used
  obtain ⟨root, defined, inside⟩ := Option.bind_eq_some_iff.mp found
  have member := Table.mem_of_get? defined
  have known : r.name ∈ d.definitions.keys :=
    (d.each_of_closed closed _ member k (Schema.mem_nodes_of_at? inside)).reference r refers
  have asked (counts : place.counts = true) :
      Demanded options d marked r.name := ⟨r.name, ⟨name, place, r, counts, used, rfl⟩, .refl⟩
  obtain ⟨after, there, turned⟩ := used_turned options distinct keyed used
  have stays := reference_settled options closed apart
    ((Table.mem_keys_iff _ _).mpr ⟨root, member⟩) place
  rw [there, Option.bind_some, turned] at stays
  obtain ⟨last, here, refersLast⟩ := Option.bind_eq_some_iff.mp stays
  refine ⟨last, _, here, refersLast, ?_⟩
  split
  · -- The site was turned to the copy of a split definition.
    rename_i turns
    obtain ⟨⟨counts, rfl⟩, split⟩ : (place.counts = true ∧ marked = true) ∧
        r.name ∈ splitNames options d := by
      simpa only [Bool.and_eq_true, List.contains_iff_mem] using turns
    rw [if_pos counts]
    refine ⟨(mem_keys_run closed _).mpr (Or.inr ⟨r.name, split, rfl⟩), ?_⟩
    exact iff_of_true (nillable_copy options closed apart split) rfl
  · -- The site stands, and its definition is marked or not by what was asked for.
    rename_i stands
    refine ⟨(mem_keys_run closed _).mpr (Or.inl known), ?_⟩
    rw [nillable_settled_iff_nilOnly options distinct keyed closed apart unmarked known]
    split
    · rename_i counts
      cases marked with
      | false => exact iff_of_false (fun nilOnly => nilOnly.2 (asked counts)) nofun
      | true =>
        refine iff_of_true ⟨asked counts, fun plain => stands ?_⟩ rfl
        rw [← mem_plainNames_iff_demanded distinct keyed] at plain
        have nillable := asked counts
        rw [← mem_nillableNames_iff_demanded distinct keyed] at nillable
        have split := (mem_splitNames_iff r.name).mpr ⟨nillable, plain⟩
        simp [counts, split]
    · rfl

end

/-- Every site of a document that uses a value leads to a definition that allows nil exactly if the
site does. -/
def Matched (d : Document) (definitions : Definitions) : Prop :=
  (∀ name place r marked, UsedAt d.definitions name place r marked → ¬ place.isMember →
    LeadsTo definitions name place (marked = true)) ∧
  ∀ use ∈ d.rawUses, use.1.name ∈ definitions.keys ∧
    (Nillable definitions use.1.name ↔ use.2 = true)

theorem mem_keys_of_rawUse {d : Document} (closed : d.Closed) {use : Reference × Bool}
    (member : use ∈ d.rawUses) : use.1.name ∈ d.definitions.keys := by
  have raw : use.1 ∈ d.rawReferences := d.map_fst_rawUses ▸ List.mem_map_of_mem member
  exact Definitions.mem_keys_of_target? (d.closed_iff.mp closed use.1 (Or.inr raw))

/-- The split of a closed document succeeds. A site that counts leads where it asks; where any other
leads is decided by those that count. So all sites match exactly if the others happen to. -/
theorem matched_split_iff (options : Options) (d : Document) (distinct : d.definitions.Distinct)
    (keyed : ∀ e ∈ d.definitions, e.2.keyed) (closed : d.Closed)
    (apart : ∀ name ∈ d.definitions.keys, name ++ suffix ∉ d.definitions.keys)
    (unmarked : ∀ name, ¬ Nillable d.definitions name) :
    (∃ report, (run options d).2 = .ok report) ∧ (run options d).1.raw = d.raw ∧
    (∀ name place r marked, UsedAt d.definitions name place r marked →
      LeadsTo (run options d).1.definitions name place
        (if place.counts then marked = true else NilOnly options d r.name)) ∧
    (∀ use ∈ d.rawUses, use.1.name ∈ (run options d).1.definitions.keys ∧
      (Nillable (run options d).1.definitions use.1.name ↔ NilOnly options d use.1.name)) ∧
    (Matched d (run options d).1.definitions ↔
      (∀ name place r marked, UsedAt d.definitions name place r marked → ¬ place.isMember →
        ¬ place.counts → (marked = true ↔ NilOnly options d r.name)) ∧
      ∀ use ∈ d.rawUses, (use.2 = true ↔ NilOnly options d use.1.name)) := by
  have leads (name : String) (place : Place) (r : Reference) (marked : Bool)
      (used : UsedAt d.definitions name place r marked) :=
    leadsTo_settled options distinct keyed closed apart unmarked used
  have raw (use : Reference × Bool) (member : use ∈ d.rawUses) :
      use.1.name ∈ (settled options d).keys ∧
        (Nillable (settled options d) use.1.name ↔ NilOnly options d use.1.name) := by
    have known := mem_keys_of_rawUse closed member
    exact ⟨(mem_keys_run closed _).mpr (Or.inl known),
      nillable_settled_iff_nilOnly options distinct keyed closed apart unmarked known⟩
  rw [run_eq_of_closed closed]
  refine ⟨⟨_, rfl⟩, rfl, leads, raw, ?_, ?_⟩
  · rintro ⟨sites, uses⟩
    refine ⟨fun name place r marked used noMember asksNothing => ?_, fun use member => ?_⟩
    · have there := leads name place r marked used
      rw [if_neg asksNothing] at there
      exact there.unique (sites name place r marked used noMember)
    · exact (uses use member).2.symm.trans (raw use member).2
  · rintro ⟨sites, uses⟩
    refine ⟨fun name place r marked used noMember => ?_, fun use member => ?_⟩
    · refine (leads name place r marked used).congr ?_
      split
      · rfl
      · rename_i asksNothing
        exact sites name place r marked used noMember asksNothing
    · exact ⟨(raw use member).1, (raw use member).2.trans (uses use member).symm⟩

/-- An operation answers with a `Code`, and a `Holder` may have one or nil. -/
def codes : Document where
  raw := [("paths", .obj [("schema", .obj [("$ref", .str "#/definitions/Code")])]),
    ("definitions", .null)]
  flavor := .definitions
  hasSlot := true
  definitions := [
    ("Code", { keywords := { type := some "string" } }),
    ("Holder", { children := { properties := some [("code", useOf "Code" (some true))] } })]

theorem unmarked_codes (name : String) : ¬ Nillable codes.definitions name := by
  rintro ⟨s, found, marked⟩
  have roots : ∀ e ∈ codes.definitions, e.2.keywords.xNullable ≠ some true := by decide
  exact roots _ (Table.mem_of_get? found) marked

theorem matched_split_iff_codes : codes.definitions.Distinct ∧
    (∀ e ∈ codes.definitions, e.2.keyed) ∧ codes.Closed ∧
    (∀ name ∈ codes.definitions.keys, name ++ suffix ∉ codes.definitions.keys) ∧
    (∀ name, ¬ Nillable codes.definitions name) ∧
    LeadsTo (run {} codes).1.definitions "Holder" [.property "code"] True ∧
    (Matched codes (run {} codes).1.definitions ↔
      (∀ name place r marked, UsedAt codes.definitions name place r marked → ¬ place.isMember →
        ¬ place.counts → (marked = true ↔ NilOnly {} codes r.name)) ∧
      ∀ use ∈ codes.rawUses, (use.2 = true ↔ NilOnly {} codes use.1.name)) := by
  have split := matched_split_iff {} codes (by decide) (by decide) rfl (by decide) unmarked_codes
  refine ⟨by decide, by decide, rfl, by decide, unmarked_codes, ?_, split.2.2.2.2⟩
  have leads := split.2.2.1 "Holder" [.property "code"] (.toDefinition "Code" .definitions) true
    ⟨_, rfl, rfl, rfl⟩
  rw [if_pos (by decide)] at leads
  exact leads.congr (iff_of_true trivial rfl)

/-- The operation was not asked, and `Code` is marked in place. -/
theorem raw_use_left_nillable : codes.Closed ∧
    (∀ name ∈ codes.definitions.keys, name ++ suffix ∉ codes.definitions.keys) ∧
    (∀ name, ¬ Nillable codes.definitions name) ∧
    ¬ Matched codes (run {} codes).1.definitions := by
  refine ⟨rfl, by decide, unmarked_codes, fun matched => ?_⟩
  have use : (Reference.toDefinition "Code" .definitions, false) ∈ codes.rawUses :=
    List.mem_cons_self
  exact Bool.noConfusion ((matched.2 _ use).2.mp ⟨_, rfl, rfl⟩)

end NilSplit
end SchemaGraph
