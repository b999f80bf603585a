import Mathlib.Data.List.Nodup
import SchemaGraph.Proofs.NilSites
import SchemaGraph.Proofs.Outline

/- What the nil split leaves of a definition. A split that succeeds met every name, so the definitions
   are those that were there, in their order, and the copies. A definition whose name is not that of a
   copy keeps its shape and all that its nodes say, but for the sites that were granted nil and the
   mark at its root; under the name of a copy stands the copy, whatever stood there before. -/
namespace SchemaGraph

namespace Schema

/-- The schema without what its nodes say. -/
def bare : Schema → Schema := rekey fun _ => {}

theorem bare_mk (k : Keywords) (c : Children Schema) : bare ⟨k, c⟩ = ⟨{}, c.map bare⟩ :=
  rekey_mk _ k c

theorem bare_of_children {a b : Schema} (same : a.children = b.children) : a.bare = b.bare := by
  obtain ⟨k, c⟩ := a
  obtain ⟨k', c'⟩ := b
  rw [bare_mk, bare_mk]
  exact congrArg (fun c : Children Schema => (⟨{}, c.map bare⟩ : Schema)) same

theorem bare_walk (f : String → List String → Keywords → Keywords) (levels : Nat) (p : Position)
    (s : Schema) : (s.walk (.rekey f) levels p).run.bare = s.bare := by
  induction levels generalizing p s with
  | zero => rfl
  | succ levels ih =>
    obtain ⟨k, c⟩ := s
    have each : c.Each fun _ => True := (Children.each_iff _ c).mpr fun _ _ => trivial
    have below := Children.map_walk
      (fun segments child => walk (.rekey f) levels (p.child k.xml segments) child)
      (fun child _ segments => ih (p.child k.xml segments) child) each
    have walked : (walk (.rekey f) (levels + 1) p ⟨k, c⟩).run =
        ⟨f p.definition p.trail k, (c.walk fun segments child =>
          walk (.rekey f) levels (p.child k.xml segments) child).run⟩ := rfl
    rw [walked, bare_mk, bare_mk, below]

end Schema

namespace NilSplit

section
variable (flavor : Flavor) (maxDepth : Nat) (split : List String)

theorem settle_of_get? {definitions : Definitions} {name : String} {s : Schema}
    (found : definitions.get? name = some s) :
    settle maxDepth split definitions name = if split.contains name then
      (definitions.put name (unmark s)).put (name ++ suffix)
        (nillableCopy name (!(definitions.ancestors name maxDepth).isEmpty) s)
    else definitions.put name (mark (some true) s) := by
  rw [settle, found]
  dsimp only
  cases copied : split.contains name <;> simp only [settledRoot, copied] <;> rfl

/-- The turn of one name, and what it reports. -/
theorem markAll_cons {definitions : Definitions} {name : String} {s : Schema}
    (found : definitions.get? name = some s) (rest created : List String) :
    markAll flavor maxDepth split (name :: rest) definitions created =
      markAll flavor maxDepth split rest (settle maxDepth split definitions name)
        (created ++ ([name].filter split.contains).map (· ++ suffix)) := by
  rw [markAll, found, settle_of_get? maxDepth split found, List.filter_cons]
  cases copied : split.contains name with
  | false => simp
  | true => rfl

theorem keys_settle {definitions : Definitions} {name : String}
    (known : name ∈ definitions.keys) :
    (settle maxDepth split definitions name).keys = definitions.keys ++
      (([name].filter split.contains).map (· ++ suffix)).filter fun copy =>
        copy ∉ definitions.keys := by
  obtain ⟨s, found⟩ := (Table.exists_get?_iff _ _).mpr known
  have marked (value : Schema) : (definitions.put name value).keys = definitions.keys := by
    rw [Table.keys_put, if_pos known]
  rw [settle_of_get? maxDepth split found, List.filter_cons]
  cases copied : split.contains name with
  | false =>
    rw [if_neg nofun, if_neg nofun, marked]
    exact (List.append_nil _).symm
  | true =>
    rw [if_pos rfl, if_pos rfl, Table.keys_put, marked]
    by_cases taken : name ++ suffix ∈ definitions.keys <;> simp [taken]

/-- Different names have different copies. -/
theorem copy_notMem_of_fresh {name : String} {rest : List String} (fresh : name ∉ rest)
    {copy : String} (later : copy ∈ (rest.filter split.contains).map (· ++ suffix)) :
    copy ∉ ([name].filter split.contains).map (· ++ suffix) := by
  intro here
  obtain ⟨source, listed, rfl⟩ := List.mem_map.mp later
  obtain ⟨other, itself, same⟩ := List.mem_map.mp here
  have same : other = source := (String.append_left_inj _).mp same
  have itself : other = name := List.mem_singleton.mp (List.mem_filter.mp itself).1
  exact fresh (itself ▸ same ▸ (List.mem_filter.mp listed).1)

/-- Marking succeeds only if every name is defined when its turn comes. The names that were there
keep their order, and the copies with new names go last. -/
theorem markAll_of_ok {names : List String} (nodup : names.Nodup) {definitions left : Definitions}
    {created made : List String}
    (ran : markAll flavor maxDepth split names definitions created = (left, .ok made)) :
    left = names.foldl (settle maxDepth split) definitions ∧
    made = created ++ (names.filter split.contains).map (· ++ suffix) ∧
    left.keys = definitions.keys ++ ((names.filter split.contains).map (· ++ suffix)).filter
      fun copy => copy ∉ definitions.keys := by
  induction names generalizing definitions created with
  | nil =>
    cases ran
    simp
  | cons name rest ih =>
    obtain ⟨fresh, nodupRest⟩ := List.nodup_cons.mp nodup
    cases found : definitions.get? name with
    | none =>
      rw [markAll, found] at ran
      cases ran
    | some s =>
      rw [markAll_cons flavor maxDepth split found] at ran
      obtain ⟨settled, reported, keys⟩ := ih nodupRest ran
      have known : name ∈ definitions.keys := (Table.exists_get?_iff _ _).mp ⟨s, found⟩
      have apart : [name].filter split.contains ++ rest.filter split.contains =
          (name :: rest).filter split.contains := (List.filter_append [name] rest).symm
      refine ⟨settled, ?_, ?_⟩
      · rw [reported, List.append_assoc, ← List.map_append, apart]
      · rw [keys, keys_settle maxDepth split known, ← apart, List.map_append, List.filter_append,
          List.append_assoc]
        congr 2
        refine List.filter_congr fun copy later => ?_
        -- No later name has the same copy, so what is free for the later copies was free before.
        have notHere := copy_notMem_of_fresh split fresh later
        simp only [List.mem_append, List.mem_filter, notHere, false_and, or_false]

end

theorem mark_same (s : Schema) : mark s.keywords.xNullable s = s := by
  obtain ⟨k, c⟩ := s
  rfl

theorem exists_mark_settledRoot (split : List String) (name : String) (s : Schema) :
    ∃ nullable, settledRoot split name s = mark nullable s := by
  unfold settledRoot unmark
  split
  · split
    · exact ⟨none, rfl⟩
    · exact ⟨s.keywords.xNullable, (mark_same s).symm⟩
  · exact ⟨some true, rfl⟩

section
variable (maxDepth : Nat) {split : List String}

theorem exists_mark_settle {definitions : Definitions} {name key : String} {s : Schema}
    (stood : definitions.get? key = some s) (noCopy : name ∈ split → name ++ suffix ≠ key) :
    ∃ nullable, (settle maxDepth split definitions name).get? key = some (mark nullable s) := by
  by_cases here : name = key
  · subst here
    obtain ⟨nullable, marked⟩ := exists_mark_settledRoot split name s
    exact ⟨nullable, by rw [get?_settle_self, stood, Option.map_some, marked]⟩
  · refine ⟨s.keywords.xNullable, ?_⟩
    rw [get?_settle_of_ne maxDepth split _ here noCopy, stood, mark_same]

/-- A definition that no later copy is written over changes no more than its mark. -/
theorem exists_mark_settled {names : List String} {definitions : Definitions} {key : String}
    {s : Schema} (stood : definitions.get? key = some s)
    (noCopy : ∀ name ∈ names, name ∈ split → name ++ suffix ≠ key) :
    ∃ nullable, (names.foldl (settle maxDepth split) definitions).get? key =
      some (mark nullable s) := by
  induction names generalizing definitions s with
  | nil => exact ⟨s.keywords.xNullable, by rw [List.foldl_nil, stood, mark_same]⟩
  | cons name rest ih =>
    obtain ⟨here, later⟩ := List.forall_mem_cons.mp noCopy
    obtain ⟨first, marked⟩ := exists_mark_settle maxDepth stood here
    obtain ⟨last, settled⟩ := ih marked later
    exact ⟨last, settled⟩

end

/-- What a site that is granted nil says afterwards: the mark is gone, and it names the copy when its
definition is split. -/
def served (split : List String) (trail : List String) (k : Keywords) : Keywords :=
  match request? trail k with
  | some (r, true) => { k with
      xNullable := none
      reference := some (if split.contains r.name then r.withSuffix suffix else r) }
  | _ => k

/-- A definition as the split leaves it: the sites that a walk meets are served, and at the root nil
may be allowed or not. -/
structure Kept (split : List String) (before after : Schema) : Prop where
  bare : after.bare = before.bare
  root : ∃ nullable, after.keywords =
    { served split [] before.keywords with xNullable := nullable }
  below : ∀ place : Place, place ≠ [] → after.at? place = (before.at? place).map fun k =>
    if place.isEntered then served split place.trail k else k

/-- In a split that succeeds all names are met. -/
theorem exists_markAll_of_ok {options : Options} {d : Document} {report : Report}
    (ran : (run options d).2 = .ok report) : ∃ made,
    markAll d.flavor options.maxDepth (splitNames options d) (nillableNames options d)
      (turned options d) [] = ((run options d).1.definitions, .ok made) ∧
    (run options d).1 = { d with definitions := (run options d).1.definitions } ∧
    report = { created := made } := by
  rw [run_eq] at ran ⊢
  cases marked : markAll d.flavor options.maxDepth (splitNames options d) (nillableNames options d)
    (turned options d) [] with
  | mk left outcome =>
  rw [marked] at ran
  cases outcome with
  | error e => cases ran
  | ok made =>
    cases ran
    exact ⟨made, rfl, rfl, rfl⟩

/-- A split that succeeds met every name. -/
theorem run_of_ok {options : Options} {d : Document} {report : Report}
    (ran : (run options d).2 = .ok report) :
    (run options d).1 = { d with definitions := settled options d } ∧
    report = { created := (splitNames options d).map (· ++ suffix) } ∧
    (settled options d).keys = d.definitions.keys ++
      report.created.filter fun copy => copy ∉ d.definitions.keys := by
  obtain ⟨made, marked, left, rfl⟩ := exists_markAll_of_ok ran
  obtain ⟨settles, created, keys⟩ := markAll_of_ok _ _ _ (nodup_nillableNames options d) marked
  rw [filter_splitNames, keys_turned] at keys
  rw [filter_splitNames, List.nil_append] at created
  rw [created, settled, ← settles]
  exact ⟨left, rfl, keys⟩

theorem Kept.marked {split : List String} {before after : Schema} (kept : Kept split before after)
    (nullable : Option Bool) : Kept split before (mark nullable after) := by
  obtain ⟨_, root⟩ := kept.root
  constructor
  · rw [← kept.bare]
    exact Schema.bare_of_children rfl
  · exact ⟨nullable, by rw [mark, root]⟩
  · intro place inside
    rw [← kept.below place inside]
    cases place with
    | nil => exact absurd rfl inside
    | cons step rest => rfl

/-- What the split says of nil at the root of a definition that is not written over. -/
def rootMark (options : Options) (d : Document) (name : String) (stood : Option Bool) :
    Option Bool :=
  if name ∈ nillableNames options d then
    if name ∈ plainNames options d then if stood = some true then none else stood else some true
  else stood

section
variable (options : Options) {d : Document} (distinct : d.definitions.Distinct)
  (keyed : ∀ e ∈ d.definitions, e.2.keyed) {name : String} {before : Schema}
  (stood : d.definitions.get? name = some before)
include distinct keyed

theorem turn_clear_eq_served {place : Place} (entered : place.isEntered) {k : Keywords}
    (found : d.definitions.at? name place = some k) (split : List String) :
    turn split (demand d).sites name place.trail (clear name place.trail k) =
      served split place.trail k := by
  cases refers : k.reference with
  | none =>
    have asksNothing : request? place.trail k = none := by
      rw [request?, refers]
      split <;> rfl
    simp only [served, clear, turn, asksNothing, refers]
  | some r =>
    have contained : (demand d).sites.contains (name, place.trail) =
        (place.counts && (k.xNullable == some true)) := by
      rw [Bool.eq_iff_iff, List.contains_iff_mem, mem_sites_iff distinct keyed
        ⟨k, found, refers, rfl⟩, Bool.and_eq_true]
    have asks : request? place.trail k =
        if place.counts then some (r, k.xNullable == some true) else none := by
      rw [request?, refers, Place.counts, entered, Bool.true_and]
      by_cases member : place.trail.tail.head? = some "allOf" <;> simp [member]
    cases granted : place.counts && (k.xNullable == some true) with
    | true =>
      obtain ⟨counts, marked⟩ := Bool.and_eq_true_iff.mp granted
      rw [counts, marked, if_pos rfl] at asks
      rw [granted] at contained
      simp only [served, clear, turn, asks, refers, contained, Bool.and_true]
      split <;> rfl
    | false =>
      rw [granted] at contained
      have unserved : served split place.trail k = k := by
        rw [served, asks]
        cases counts : place.counts <;> simp_all
      have uncleared : clear name place.trail k = k := by
        rw [clear, asks]
        cases counts : place.counts <;> simp_all
      rw [unserved, uncleared, turn, refers]
      simp only [contained, Bool.and_false, Bool.false_eq_true, if_false]

include stood

theorem get?_turned :
    ∃ after, (turned options d).get? name = some after ∧ after.bare = before.bare ∧
      ∀ place, after.at? place = (before.at? place).map fun k =>
        if place.isEntered then served (splitNames options d) place.trail k else k := by
  obtain ⟨after, walked, bare⟩ : ∃ after, (turned options d).get? name = some after ∧
      after.bare = before.bare := by
    rw [turned, Definitions.get?_change, Definitions.get?_change, stood]
    exact ⟨_, rfl, by rw [Schema.bare_walk, Schema.bare_walk]⟩
  refine ⟨after, walked, bare, ?_⟩
  intro place
  have inside := at?_turned options d name place
  rw [Definitions.at?, walked, Option.bind_some, Definitions.at?, stood, Option.bind_some] at inside
  rw [inside]
  cases found : before.at? place with
  | none => rfl
  | some k =>
    have there : d.definitions.at? name place = some k := by
      rw [Definitions.at?, stood, Option.bind_some, found]
    rw [Option.map_some, Option.map_some]
    split
    · rename_i entered
      rw [turn_clear_eq_served distinct keyed entered there]
    · rfl

theorem kept_turned :
    ∃ after, (turned options d).get? name = some after ∧
      Kept (splitNames options d) before after ∧
      after.keywords = served (splitNames options d) [] before.keywords := by
  obtain ⟨after, found, bare, places⟩ := get?_turned options distinct keyed stood
  have root : after.keywords = served (splitNames options d) [] before.keywords :=
    Option.some.inj (places [])
  have kept : Kept (splitNames options d) before after := by
    constructor
    · exact bare
    · exact ⟨after.keywords.xNullable, by rw [← root]⟩
    · intro place _
      exact places place
  exact ⟨after, found, kept, root⟩

theorem kept_settled
    (free : ∀ other ∈ splitNames options d, other ++ suffix ≠ name) :
    ∃ after, (settled options d).get? name = some after ∧
      Kept (splitNames options d) before after ∧
      after.keywords.xNullable = rootMark options d name
        (served (splitNames options d) [] before.keywords).xNullable := by
  obtain ⟨middle, found, kept, root⟩ := kept_turned options distinct keyed stood
  have freeHere : ∀ other ∈ nillableNames options d, other ∈ splitNames options d →
      other ++ suffix ≠ name := fun other _ => free other
  rw [← root, rootMark]
  by_cases nillable : name ∈ nillableNames options d
  · have last := @get?_settled_of_mem options.maxDepth _ _
      (nodup_nillableNames options d) (turned options d) _ nillable freeHere
    rw [found, Option.map_some] at last
    obtain ⟨nullable, marked⟩ := exists_mark_settledRoot (splitNames options d) name middle
    refine ⟨_, last, marked ▸ kept.marked nullable, ?_⟩
    by_cases plain : name ∈ plainNames options d
    · have split := (mem_splitNames_iff name).mpr ⟨nillable, plain⟩
      rw [if_pos nillable, if_pos plain, settledRoot, List.contains_iff_mem.mpr split, if_pos rfl,
        unmark]
      split <;> rfl
    · have alone : (splitNames options d).contains name = false := by
        simp [mem_splitNames_iff, plain]
      rw [if_pos nillable, if_neg plain, settledRoot, alone]
      rfl
  · have last := get?_settled_of_notMem options.maxDepth (splitNames options d) (turned options d)
      nillable freeHere
    exact ⟨middle, last.trans found, kept, by rw [if_neg nillable]⟩

theorem copy_of_split (split : name ∈ splitNames options d)
    (free : ∀ other ∈ splitNames options d, other ++ suffix ≠ name) :
    ∃ source nullable, Kept (splitNames options d) before source ∧
      (settled options d).get? (name ++ suffix) = some (mark nullable
        (nillableCopy name (!(d.definitions.ancestors name options.maxDepth).isEmpty) source)) := by
  obtain ⟨source, found, kept, _⟩ := kept_turned options distinct keyed stood
  obtain ⟨made, later, last, _, others, copied⟩ := copy_settled options.maxDepth _
    (nodup_nillableNames options d) found (nillable_of_split split) split free
  rw [Definitions.ancestors_of_bases (bases_turned options d)] at copied
  obtain ⟨nullable, marked⟩ := exists_mark_settled options.maxDepth copied
    fun other member _ => others other member
  exact ⟨source, nullable, kept, by rw [settled, last, marked]⟩

end

/-- Every definition is still there and kept. -/
def KeepsAll (split : List String) (before after : Definitions) : Prop :=
  ∀ name s, before.get? name = some s → ∃ t, after.get? name = some t ∧ Kept split s t

/-- A split that succeeds adds the copies with new names, and keeps every definition whose name is
not that of a copy. Under the name of a copy stands the copy, also if another definition had that
name: those are the only ones that may be lost. -/
theorem keepsAll_split_iff (options : Options) (d : Document) (distinct : d.definitions.Distinct)
    (keyed : ∀ e ∈ d.definitions, e.2.keyed) {report : Report}
    (ran : (run options d).2 = .ok report) :
    (run options d).1 = { d with definitions := (run options d).1.definitions } ∧
    report = { created := (splitNames options d).map (· ++ suffix) } ∧
    (run options d).1.definitions.keys = d.definitions.keys ++
      report.created.filter (fun copy => copy ∉ d.definitions.keys) ∧
    (∀ name before, d.definitions.get? name = some before → name ∉ report.created →
      ∃ after, (run options d).1.definitions.get? name = some after ∧
        Kept (splitNames options d) before after ∧
        after.keywords.xNullable = rootMark options d name
          (served (splitNames options d) [] before.keywords).xNullable) ∧
    (∀ name before, d.definitions.get? name = some before → name ∉ report.created →
      name ∈ splitNames options d → ∃ source nullable, Kept (splitNames options d) before source ∧
        (run options d).1.definitions.get? (name ++ suffix) = some (mark nullable
          (nillableCopy name (!(d.definitions.ancestors name options.maxDepth).isEmpty) source))) ∧
    (KeepsAll (splitNames options d) d.definitions (run options d).1.definitions ↔
      ∀ name ∈ report.created, ∀ before, d.definitions.get? name = some before →
        ∃ after, (run options d).1.definitions.get? name = some after ∧
          Kept (splitNames options d) before after) := by
  obtain ⟨left, rfl, keys⟩ := run_of_ok ran
  rw [left]
  have free {name : String} (fresh : name ∉ (splitNames options d).map (· ++ suffix)) :
      ∀ other ∈ splitNames options d, other ++ suffix ≠ name :=
    fun other member same => fresh (List.mem_map.mpr ⟨other, member, same⟩)
  have kept (name : String) (before : Schema) (stood : d.definitions.get? name = some before)
      (fresh : name ∉ (splitNames options d).map (· ++ suffix)) :=
    kept_settled options distinct keyed stood (free fresh)
  refine ⟨rfl, rfl, keys, kept, ?_, ?_⟩
  · intro name before stood fresh split
    exact copy_of_split options distinct keyed stood split (free fresh)
  · constructor
    · intro all name _ before stood
      exact all name before stood
    · intro atCopies name before stood
      by_cases written : name ∈ (splitNames options d).map (· ++ suffix)
      · exact atCopies name written before stood
      · obtain ⟨after, found, keeps, _⟩ := kept name before stood written
        exact ⟨after, found, keeps⟩

/-- `Code` is used with and without nil, and `Code_nil` is something else. -/
def taken : Document where
  raw := [("definitions", .null)]
  flavor := .definitions
  hasSlot := true
  definitions := [
    ("Code", { keywords := { type := some "string" } }), ("Code_nil", object),
    ("Holder", { children := { properties := some [
      ("a", useOf "Code" (some true)), ("b", useOf "Code" none)] } })]

theorem keepsAll_split_iff_taken : taken.definitions.Distinct ∧
    (∀ e ∈ taken.definitions, e.2.keyed) ∧
    (run {} taken).2 = .ok { created := ["Code_nil"] } ∧
    (KeepsAll (splitNames {} taken) taken.definitions (run {} taken).1.definitions ↔
      ∀ name ∈ ["Code_nil"], ∀ before, taken.definitions.get? name = some before →
        ∃ after, (run {} taken).1.definitions.get? name = some after ∧
          Kept (splitNames {} taken) before after) := by
  have ran : (run {} taken).2 = .ok { created := ["Code_nil"] } := rfl
  have split := keepsAll_split_iff {} taken (by decide) (by decide) ran
  exact ⟨by decide, by decide, ran, split.2.2.2.2.2⟩

/-- The copy of `Code` takes the place of the definition that has its name. -/
theorem nil_copy_takes_name : (run {} taken).2 = .ok { created := ["Code_nil"] } ∧
    ¬ KeepsAll (splitNames {} taken) taken.definitions (run {} taken).1.definitions := by
  constructor
  · rfl
  · intro all
    obtain ⟨after, found, kept⟩ := all "Code_nil" object rfl
    obtain ⟨nullable, root⟩ := kept.root
    have copied : (run {} taken).1.definitions.get? "Code_nil" = some (mark (some true)
        (nillableCopy "Code" false { keywords := { type := some "string" } })) := rfl
    rw [copied] at found
    cases found
    have type : some "string" = some "object" := congrArg Keywords.type root
    exact absurd type (by decide)

end NilSplit
end SchemaGraph
