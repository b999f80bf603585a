import SchemaGraph.Proofs.NilDemand

/- The nillable copies and reference integrity. A definition whose name is not that of a copy stands
   as it did when its turn comes, so its copy extends the copy of its base, which is split too. A
   copy that is written over a split definition is copied in its turn, and then its base gets the
   suffix twice. -/
namespace SchemaGraph

namespace Schema

/-- The schema without the reference to its base. -/
def withoutBase (s : Schema) : Schema :=
  let clear (first : Schema) : Schema := { first with keywords.reference := none }
  { s with children.allOf := s.children.allOf.map (List.modifyHead clear) }

theorem each_iff_withoutBase (p : Reference → Prop) (s : Schema) :
    s.Each p ↔ s.withoutBase.Each p ∧ ∀ r, s.base? = some r → p r := by
  obtain ⟨k, c⟩ := s
  constructor
  · refine fun each => ⟨.mk each.own { each.below with allOf := ?_ }, each.base⟩
    rintro _ cleared
    obtain ⟨members, listed, rfl⟩ := Option.map_eq_some_iff.mp cleared
    have each := each.below.allOf members listed
    cases members with
    | nil => exact each
    | cons first rest =>
      obtain ⟨base, others⟩ := List.forall_mem_cons.mp each
      exact List.forall_mem_cons.mpr ⟨base.withoutReference, others⟩
  · rintro ⟨each, based⟩
    refine .mk each.own { each.below with allOf := fun members listed => ?_ }
    have cleared := each.below.allOf _ (congrArg (Option.map _) listed)
    cases members with
    | nil => exact cleared
    | cons first rest =>
      obtain ⟨base, others⟩ := List.forall_mem_cons.mp cleared
      have refers : ∀ r, first.keywords.reference = some r → p r := fun r refers =>
        based r (by simp [base?, listed, refers])
      obtain ⟨own, below⟩ := first
      exact List.forall_mem_cons.mpr ⟨.mk { base.own with reference := refers } base.below, others⟩

theorem withoutBase_mapBase (f : Reference → Reference) (s : Schema) :
    (s.mapBase f).withoutBase = s.withoutBase := by
  obtain ⟨k, c⟩ := s
  cases members : c.allOf with
  | none => simp [mapBase, withoutBase, members]
  | some l => cases l <;> simp [mapBase, withoutBase, members]

theorem base?_of_children {a b : Option Schema} (same : a.map children = b.map children) :
    a.bind base? = b.bind base? := by
  have onChildren (o : Option Schema) :
      o.bind base? = (o.map children).bind fun c => base? ⟨{}, c⟩ := by
    cases o <;> rfl
  rw [onChildren a, onChildren b, same]

end Schema

theorem Visitor.keeps_rekey {p : Schema → Prop} {f : String → List String → Keywords → Keywords}
    (h : ∀ name trail s, p s → p { s with keywords := f name trail s.keywords }) :
    (Visitor.rekey f).Keeps .plain p :=
  ⟨fun _ _ within => within, fun position s => h _ position.trail s⟩

namespace NilSplit

/-- What a nillable copy can be given a base of its own for. -/
def hasContent (s : Schema) : Bool := s.children.allOf.any fun members => 1 < members.length

def unmark (s : Schema) : Schema := if s.keywords.xNullable = some true then mark none s else s

theorem base?_nillableCopy (name : String) (hasAncestors : Bool) (s : Schema) :
    (nillableCopy name hasAncestors s).base? =
      if hasAncestors && hasContent s then s.base?.map (·.withSuffix suffix) else s.base? := by
  have rebased : (nillableCopy name hasAncestors s).base? =
      (if hasAncestors && hasContent s then s.mapBase (·.withSuffix suffix) else s).base? := rfl
  rw [rebased]
  split
  · exact s.base?_mapBase _
  · rfl

theorem hasContent_of_children {a b : Schema} (same : a.children = b.children) :
    hasContent a = hasContent b := by rw [hasContent, same, hasContent]

theorem hasContent_nillableCopy (name : String) (hasAncestors : Bool) (s : Schema) :
    hasContent (nillableCopy name hasAncestors s) = hasContent s := by
  have rebased : hasContent (nillableCopy name hasAncestors s) = hasContent
      (if hasAncestors && hasContent s then s.mapBase (·.withSuffix suffix) else s) := rfl
  rw [rebased]
  split
  · rw [Schema.mapBase]
    split
    · rename_i first rest members
      simp [hasContent, members]
    · rfl
  · rfl

theorem each_withoutBase_nillableCopy {p : Reference → Prop} (name : String) (hasAncestors : Bool)
    {s : Schema} (h : s.withoutBase.Each p) :
    (nillableCopy name hasAncestors s).withoutBase.Each p := by
  have rebased : Schema.Each p
      (if hasAncestors && hasContent s then s.mapBase (·.withSuffix suffix) else s).withoutBase := by
    split
    · exact (s.withoutBase_mapBase _).symm ▸ h
    · exact h
  exact .mk { rebased.own with } rebased.below

section
variable (maxDepth : Nat) (split : List String)

/-- A definition when the copies are made: without a mark beside its copy, marked if it has none. -/
def settledRoot (name : String) (s : Schema) : Schema :=
  if split.contains name then unmark s else mark (some true) s

/-- The definitions after the turn of one name. -/
def settle (definitions : Definitions) (name : String) : Definitions :=
  match definitions.get? name with
  | none => definitions
  | some s =>
    let hasAncestors := !(definitions.ancestors name maxDepth).isEmpty
    let settled := definitions.put name (settledRoot split name s)
    if split.contains name then settled.put (name ++ suffix) (nillableCopy name hasAncestors s)
    else settled

theorem mem_keys_settle {definitions : Definitions} {name : String}
    (known : name ∈ definitions.keys) (key : String) :
    key ∈ (settle maxDepth split definitions name).keys ↔
      key ∈ definitions.keys ∨ name ∈ split ∧ name ++ suffix = key := by
  obtain ⟨s, found⟩ := (Table.exists_get?_iff _ _).mpr known
  have same : key = name → key ∈ definitions.keys := fun same => same ▸ known
  simp only [settle, found]
  split
  · rename_i copied
    rw [List.contains_iff_mem] at copied
    simp only [Table.mem_keys_put_iff, copied, true_and, eq_comm (a := name ++ suffix)]
    tauto
  · rename_i alone
    rw [List.contains_iff_mem] at alone
    simp only [Table.mem_keys_put_iff, alone, false_and, or_false]
    tauto

theorem mem_keys_settled {names : List String} {definitions : Definitions}
    (known : ∀ name ∈ names, name ∈ definitions.keys) (key : String) :
    key ∈ (names.foldl (settle maxDepth split) definitions).keys ↔
      key ∈ definitions.keys ∨ ∃ name ∈ names, name ∈ split ∧ name ++ suffix = key := by
  induction names generalizing definitions with
  | nil => simp
  | cons name rest ih =>
    obtain ⟨here, later⟩ := List.forall_mem_cons.mp known
    have keys := mem_keys_settle maxDepth split here
    rw [List.foldl_cons, ih fun other member => (keys other).mpr (Or.inl (later other member)), keys]
    simp [or_assoc]

/-- Names that are defined are all settled, and the copies are reported in the order of the names. -/
theorem markAll_eq (flavor : Flavor) {names : List String} {definitions : Definitions}
    (known : ∀ name ∈ names, name ∈ definitions.keys) (created : List String) :
    markAll flavor maxDepth split names definitions created =
      (names.foldl (settle maxDepth split) definitions,
        .ok (created ++ (names.filter split.contains).map (· ++ suffix))) := by
  induction names generalizing definitions created with
  | nil => simp [markAll]
  | cons name rest ih =>
    obtain ⟨here, later⟩ := List.forall_mem_cons.mp known
    have knownLater : ∀ other ∈ rest, other ∈ (settle maxDepth split definitions name).keys :=
      fun other member =>
        (mem_keys_settle maxDepth split here other).mpr (Or.inl (later other member))
    obtain ⟨s, found⟩ := (Table.exists_get?_iff _ _).mpr here
    simp only [markAll, found, List.foldl_cons]
    simp only [settle, found] at knownLater ⊢
    cases copied : split.contains name with
    | false =>
      simp only [settledRoot, copied, Bool.not_false, if_true, Bool.false_eq_true, if_false]
        at knownLater ⊢
      rw [ih knownLater, List.filter_cons, copied]
      rfl
    | true =>
      simp only [settledRoot, copied, Bool.not_true, if_true, Bool.false_eq_true, if_false]
        at knownLater ⊢
      refine (ih knownLater _).trans ?_
      rw [List.filter_cons, copied, if_pos rfl, List.map_cons, List.append_assoc]
      rfl

theorem get?_settle_self (definitions : Definitions) (name : String) :
    (settle maxDepth split definitions name).get? name =
      (definitions.get? name).map (settledRoot split name) := by
  have other : name ++ suffix ≠ name := by simp [suffix]
  rw [settle]
  cases found : definitions.get? name with
  | none => exact found
  | some s =>
    dsimp only
    split
    · rw [Table.get?_put, if_neg other, Table.get?_put, if_pos rfl, Option.map_some]
    · rw [Table.get?_put, if_pos rfl, Option.map_some]

theorem get?_settle_of_ne (definitions : Definitions) {name key : String} (other : name ≠ key)
    (noCopy : name ∈ split → name ++ suffix ≠ key) :
    (settle maxDepth split definitions name).get? key = definitions.get? key := by
  rw [settle]
  split
  · rfl
  · dsimp only
    split
    · rename_i copied
      rw [Table.get?_put, if_neg (noCopy (List.contains_iff_mem.mp copied)), Table.get?_put,
        if_neg other]
    · rw [Table.get?_put, if_neg other]

theorem get?_settle_copy {definitions : Definitions} {name : String} {s : Schema}
    (found : definitions.get? name = some s) (copied : name ∈ split) :
    (settle maxDepth split definitions name).get? (name ++ suffix) =
      some (nillableCopy name (!(definitions.ancestors name maxDepth).isEmpty) s) := by
  simp only [settle, found, List.contains_iff_mem.mpr copied, if_true]
  rw [Table.get?_put, if_pos rfl]

theorem distinct_settled (names : List String) {definitions : Definitions}
    (distinct : definitions.Distinct) :
    (names.foldl (settle maxDepth split) definitions).Distinct := by
  refine List.foldlRecOn (motive := Table.Distinct) names _ distinct fun t distinct name _ => ?_
  rw [settle]
  split
  · exact distinct
  · dsimp only
    split
    · exact Table.distinct_put (Table.distinct_put distinct _ _) _ _
    · exact Table.distinct_put distinct _ _

theorem children_settledRoot (name : String) (s : Schema) :
    (settledRoot split name s).children = s.children := by
  rw [settledRoot, unmark]
  split
  · split <;> rfl
  · rfl

theorem children_settle (definitions : Definitions) {name key : String}
    (noCopy : name ∈ split → name ++ suffix ≠ key) :
    ((settle maxDepth split definitions name).get? key).map Schema.children =
      (definitions.get? key).map Schema.children := by
  by_cases here : name = key
  · subst here
    rw [get?_settle_self, Option.map_map]
    exact congrArg (Option.map · _) (funext (children_settledRoot split name))
  · rw [get?_settle_of_ne maxDepth split definitions here noCopy]

theorem children_settled {names : List String} (definitions : Definitions) {key : String}
    (noCopy : ∀ name ∈ names, name ∈ split → name ++ suffix ≠ key) :
    ((names.foldl (settle maxDepth split) definitions).get? key).map Schema.children =
      (definitions.get? key).map Schema.children := by
  induction names generalizing definitions with
  | nil => rfl
  | cons name rest ih =>
    obtain ⟨here, later⟩ := List.forall_mem_cons.mp noCopy
    rw [List.foldl_cons, ih _ later, children_settle maxDepth split definitions here]

theorem get?_settled_of_notMem {names : List String} (definitions : Definitions) {key : String}
    (absent : key ∉ names) (noCopy : ∀ name ∈ names, name ∈ split → name ++ suffix ≠ key) :
    (names.foldl (settle maxDepth split) definitions).get? key = definitions.get? key := by
  induction names generalizing definitions with
  | nil => rfl
  | cons name rest ih =>
    rw [List.mem_cons, not_or] at absent
    obtain ⟨here, later⟩ := List.forall_mem_cons.mp noCopy
    rw [List.foldl_cons, ih _ absent.2 later]
    exact get?_settle_of_ne maxDepth split definitions (Ne.symm absent.1) here

theorem isEmpty_ancestors_of_get? {a b : Definitions} {name : String}
    (same : a.get? name = b.get? name) :
    (a.ancestors name maxDepth).isEmpty = (b.ancestors name maxDepth).isEmpty := by
  rw [Bool.eq_iff_iff, List.isEmpty_iff, List.isEmpty_iff, ← not_iff_not, ← ne_eq, ← ne_eq,
    Definitions.ancestors_ne_nil_iff, Definitions.ancestors_ne_nil_iff, same]

theorem copy_settled {names : List String} (nodup : names.Nodup) {start : Definitions}
    {name : String} {root : Schema} (found : start.get? name = some root) (member : name ∈ names)
    (copied : name ∈ split) (free : ∀ other ∈ split, other ++ suffix ≠ name) :
    ∃ (made : Definitions) (later : List String),
      names.foldl (settle maxDepth split) start = later.foldl (settle maxDepth split) made ∧
      later ⊆ names ∧ (∀ other ∈ later, other ++ suffix ≠ name ++ suffix) ∧
      made.get? (name ++ suffix) =
        some (nillableCopy name (!(start.ancestors name maxDepth).isEmpty) root) := by
  -- The turns before its own leave the definition as it stood, and those after it the copy.
  obtain ⟨earlier, later, rfl⟩ := List.append_of_mem member
  obtain ⟨_, nodupLater, apart⟩ := List.nodup_append.mp nodup
  have notEarlier : name ∉ earlier := fun member => apart name member name (by simp) rfl
  have stands : (earlier.foldl (settle maxDepth split) start).get? name = start.get? name :=
    get?_settled_of_notMem maxDepth split start notEarlier fun other _ => free other
  refine ⟨_, later, by rw [List.foldl_append, List.foldl_cons], by simp, fun other member => ?_, ?_⟩
  · rw [ne_eq, String.append_left_inj]
    exact fun same => (List.nodup_cons.mp nodupLater).1 (same ▸ member)
  · rw [get?_settle_copy maxDepth split (stands.trans found) copied,
      isEmpty_ancestors_of_get? maxDepth stands]

end

/-- The name of the copy of a definition whose own name is that of a copy. -/
def CopiedTwice (split : List String) (key : String) : Prop :=
  ∃ name ∈ split, name ++ suffix ∈ split ∧ name ++ suffix ++ suffix = key

/-- The references of a definition are among the names. Only the base of a copy of a copy need not
be. -/
structure SoundEntry (names split : List String) (entry : String × Schema) : Prop where
  others : entry.2.withoutBase.Each (Reference.Among names)
  base : ∀ r, entry.2.base? = some r → r.IsPlain ∧ (r.name ∈ names ∨ CopiedTwice split entry.1)

section
variable {names split : List String}

theorem soundEntry_of_each {entry : String × Schema}
    (each : entry.2.Each (Reference.Among names)) : SoundEntry names split entry := by
  obtain ⟨others, base⟩ := (Schema.each_iff_withoutBase _ _).mp each
  exact ⟨others, fun r based => ⟨(base r based).1, Or.inl (base r based).2⟩⟩

theorem SoundEntry.mark {key : String} {s : Schema} (sound : SoundEntry names split (key, s))
    (nullable : Option Bool) : SoundEntry names split (key, NilSplit.mark nullable s) :=
  ⟨.mk { sound.others.own with } sound.others.below, sound.base⟩

theorem SoundEntry.settledRoot {key : String} {s : Schema} (sound : SoundEntry names split (key, s))
    (name : String) : SoundEntry names split (key, NilSplit.settledRoot split name s) := by
  rw [NilSplit.settledRoot]
  split
  · rw [unmark]
    split
    · exact sound.mark none
    · exact sound
  · exact sound.mark (some true)

theorem SoundEntry.nillableCopy {name : String} {s : Schema}
    (sound : SoundEntry names split (name, s)) (copied : name ∈ split) (hasAncestors : Bool)
    (turns : hasAncestors = true → (∀ other ∈ split, other ++ suffix ≠ name) →
      ∀ r, s.base? = some r → r.name ++ suffix ∈ names) :
    SoundEntry names split (name ++ suffix, NilSplit.nillableCopy name hasAncestors s) := by
  refine ⟨each_withoutBase_nillableCopy name hasAncestors sound.others, fun r based => ?_⟩
  rw [base?_nillableCopy] at based
  split at based
  · rename_i rebased
    obtain ⟨original, extended, rfl⟩ := Option.map_eq_some_iff.mp based
    refine ⟨(sound.base original extended).1, ?_⟩
    by_cases free : ∀ other ∈ split, other ++ suffix ≠ name
    · exact Or.inl (turns (Bool.and_eq_true_iff.mp rebased).1 free original extended)
    · -- The definition is a copy by now, and its base has the suffix already.
      push Not at free
      obtain ⟨other, member, rfl⟩ := free
      exact Or.inr ⟨other, member, copied, rfl⟩
  · -- What is without its base may be copied once more.
    refine (sound.base r based).imp_right (Or.imp_right ?_)
    rintro ⟨other, _, again, rfl⟩
    exact ⟨other ++ suffix, again, copied, rfl⟩

/-- A state while names are settled: the definitions that are no copies keep their bases. -/
structure Settling (names split : List String) (start current : Definitions) : Prop where
  entries : ∀ e ∈ current, SoundEntry names split e
  bases : ∀ key, (∀ other ∈ split, other ++ suffix ≠ key) →
    (current.get? key).bind Schema.base? = (start.get? key).bind Schema.base?

theorem Settling.settle {maxDepth : Nat} {start current : Definitions}
    (based : ∀ name ∈ split, start.ancestors name maxDepth ≠ [] →
      ∀ r, (start.get? name).bind Schema.base? = some r → r.name ++ suffix ∈ names)
    (settling : Settling names split start current) (name : String) :
    Settling names split start (NilSplit.settle maxDepth split current name) := by
  refine ⟨fun e member => ?_, fun key free => ?_⟩
  · rw [NilSplit.settle] at member
    split at member
    · exact settling.entries e member
    · rename_i s found
      have own := settling.entries _ (Table.mem_of_get? found)
      have root {e} (member : e ∈ current.put name (settledRoot split name s)) :
          SoundEntry names split e := by
        rcases Table.mem_of_mem_put member with old | rfl
        · exact settling.entries e old
        · exact own.settledRoot name
      dsimp only at member
      split at member
      · rename_i copied
        rw [List.contains_iff_mem] at copied
        rcases Table.mem_of_mem_put member with old | rfl
        · exact root old
        · -- A definition that is no copy has its base, and so its ancestors, from the start.
          refine own.nillableCopy copied _ fun ancestors free r extended => ?_
          have same := settling.bases name free
          refine based name copied ?_ r (by rw [← same, found]; exact extended)
          rw [Definitions.ancestors_ne_nil_iff, ← same, ← Definitions.ancestors_ne_nil_iff]
          simpa using ancestors
      · exact root member
  · rw [← settling.bases key free]
    exact Schema.base?_of_children (children_settle maxDepth split current (free name))

end

theorem each_clear {p : Reference → Prop} (name : String) (trail : List String) {k : Keywords}
    (h : k.Each p) : (clear name trail k).Each p := by
  rw [clear]
  split
  · exact { h with }
  · exact h

theorem each_turn {p : Reference → Prop} {split : List String} (sites : List Site)
    (turns : ∀ r, p r → r.name ∈ split → p (r.withSuffix suffix)) (name : String)
    (trail : List String) {k : Keywords} (h : k.Each p) :
    (turn split sites name trail k).Each p := by
  rw [turn]
  split
  · rename_i r refers
    split
    · rename_i site
      have turned := List.contains_iff_mem.mp (Bool.and_eq_true_iff.mp site).1
      exact { h with reference := forall_eq_some (turns r (h.reference r refers) turned) }
    · exact h
  · exact h

section
variable (options : Options) (d : Document)

theorem keys_turned : (turned options d).keys = d.definitions.keys :=
  Definitions.keys_of_bases (bases_turned options d)

def settled : Definitions :=
  (nillableNames options d).foldl (settle options.maxDepth (splitNames options d))
    (turned options d)

variable {options d}

theorem mem_keys_turned (closed : d.Closed) :
    ∀ name ∈ nillableNames options d, name ∈ (turned options d).keys :=
  fun _ nillable => keys_turned options d ▸ mem_keys_of_nillable closed nillable

theorem filter_splitNames :
    (nillableNames options d).filter (splitNames options d).contains = splitNames options d :=
  List.filter_congr fun name nillable => by
    rw [Bool.eq_iff_iff, List.contains_iff_mem, List.contains_iff_mem, mem_splitNames_iff]
    exact and_iff_right nillable

theorem run_eq_of_closed (closed : d.Closed) : run options d =
    ({ d with definitions := settled options d },
      .ok { created := (splitNames options d).map (· ++ suffix) }) := by
  rw [run_eq, markAll_eq options.maxDepth (splitNames options d) d.flavor (mem_keys_turned closed)
    [], filter_splitNames]
  rfl

theorem nillable_of_split {name : String} (split : name ∈ splitNames options d) :
    name ∈ nillableNames options d := ((mem_splitNames_iff name).mp split).1

theorem mem_keys_of_split (closed : d.Closed) {name : String}
    (split : name ∈ splitNames options d) : name ∈ d.definitions.keys :=
  mem_keys_of_nillable closed (nillable_of_split split)

theorem mem_keys_run (closed : d.Closed) (key : String) :
    key ∈ (settled options d).keys ↔
      key ∈ d.definitions.keys ∨ ∃ name ∈ splitNames options d, name ++ suffix = key := by
  rw [settled, mem_keys_settled options.maxDepth (splitNames options d) (mem_keys_turned closed),
    keys_turned]
  refine or_congr_right ⟨?_, ?_⟩
  · rintro ⟨name, _, copied, same⟩
    exact ⟨name, copied, same⟩
  · rintro ⟨name, copied, same⟩
    exact ⟨name, nillable_of_split copied, copied, same⟩

theorem each_turned (closed : d.Closed) (plain : d.Plain) : ∀ e ∈ turned options d,
    e.2.Each (Reference.Among (settled options d).keys) := by
  have sound := d.sound_of_closed closed plain
  have start : ∀ e ∈ d.definitions, e.2.Each (Reference.Among (settled options d).keys) :=
    fun e member => (sound.graph.each e member).mono fun r among =>
      ⟨among.1, (mem_keys_run closed r.name).mpr (Or.inl among.2)⟩
  have cleared := Definitions.forall_change (Schema.hereditary_every _)
    (Visitor.keeps_rekey fun name trail s each => .mk (each_clear name trail each.own) each.below)
    d.flavor start
  refine Definitions.forall_change (Schema.hereditary_every _)
    (Visitor.keeps_rekey fun name trail s each => .mk ?_ each.below) d.flavor cleared
  -- A turned reference means a copy that is still to come.
  refine each_turn (demand d).sites (fun r among split => ⟨among.1, ?_⟩) name trail each.own
  exact (mem_keys_run closed _).mpr (Or.inr ⟨r.name, split, rfl⟩)

theorem copied_of_base (closed : d.Closed) {name : String} (split : name ∈ splitNames options d)
    (based : d.definitions.ancestors name options.maxDepth ≠ []) {r : Reference}
    (extended : (d.definitions.get? name).bind Schema.base? = some r) :
    r.name ++ suffix ∈ (settled options d).keys := by
  have above := Definitions.mem_ancestors_of_base extended based
  have copied := splitNames_closed split (Or.inr ⟨r, above, rfl⟩)
  exact (mem_keys_run closed _).mpr (Or.inr ⟨r.name, copied, rfl⟩)

theorem soundEntry_settled (closed : d.Closed) (plain : d.Plain) : ∀ e ∈ settled options d,
    SoundEntry (settled options d).keys (splitNames options d) e := by
  have same := bases_turned options d
  have start : Settling (settled options d).keys (splitNames options d) (turned options d)
      (turned options d) :=
    ⟨fun e member => soundEntry_of_each (each_turned closed plain e member), fun _ _ => rfl⟩
  have settling : Settling (settled options d).keys (splitNames options d) (turned options d)
      (settled options d) := by
    refine List.foldlRecOn (nillableNames options d) _ start fun _ settling name _ => ?_
    refine settling.settle (fun name split based r extended => ?_) name
    rw [Definitions.ancestors_of_bases same] at based
    rw [Definitions.base?_of_bases same] at extended
    exact copied_of_base closed split based extended
  exact settling.entries

theorem base_of_copy (closed : d.Closed) {name : String} (split : name ∈ splitNames options d)
    (free : ∀ other ∈ splitNames options d, other ++ suffix ≠ name)
    (based : d.definitions.ancestors name options.maxDepth ≠ []) {copy : Schema}
    (found : (settled options d).get? (name ++ suffix) = some copy) (content : hasContent copy) :
    ∃ r, (d.definitions.get? name).bind Schema.base? = some r ∧
      copy.base? = some (r.withSuffix suffix) ∧
      r.name ++ suffix ∈ (settled options d).keys := by
  have nillable := nillable_of_split split
  obtain ⟨root, stood⟩ := (Table.exists_get?_iff _ _).mpr (mem_keys_turned closed name nillable)
  obtain ⟨made, later, last, _, others, copies⟩ := copy_settled options.maxDepth _
    (nodup_nillableNames options d) stood nillable split free
  rw [Definitions.ancestors_of_bases (bases_turned options d)] at copies
  have extends_ : root.base? = (d.definitions.get? name).bind Schema.base? := by
    rw [← Definitions.base?_of_bases (bases_turned options d), stood, Option.bind_some]
  obtain ⟨_, r, extended, _⟩ := (Definitions.ancestors_ne_nil_iff _ _ _).mp based
  refine ⟨r, extended, ?_, copied_of_base closed split based extended⟩
  -- Later turns change no more than the mark of the copy.
  have stays := children_settled options.maxDepth (splitNames options d) made
    fun other member _ => others other member
  rw [← last, ← settled, found, copies] at stays
  have sameBase := Schema.base?_of_children stays
  have rebased : (!(d.definitions.ancestors name options.maxDepth).isEmpty) = true := by
    simpa using based
  have rootContent : hasContent root = true := by
    rw [← hasContent_nillableCopy, ← hasContent_of_children (Option.some.inj stays)]
    exact content
  rw [Option.bind_some, Option.bind_some, base?_nillableCopy, rebased, rootContent, extends_,
    extended] at sameBase
  exact sameBase

/-- Every reference is known but perhaps those to the bases of copies of copies. -/
theorem known_of_refers_settled (distinct : d.definitions.Distinct) (closed : d.Closed)
    (plain : d.Plain) {r : Reference}
    (refers : { d with definitions := settled options d : Document }.Refers r) :
    r.IsPlain ∧ (r.name ∈ (settled options d).keys ∨ ∃ key,
      CopiedTwice (splitNames options d) key ∧
        ((settled options d).get? key).bind Schema.base? = some r) := by
  have distinctSettled : (settled options d).Distinct := by
    refine distinct_settled options.maxDepth _ _ ?_
    rw [Table.Distinct, keys_turned]
    exact distinct
  rcases refers with ⟨name, s, member, node, inside, refers⟩ | raw
  · have entry := soundEntry_settled closed plain (name, s) member
    have found := Table.get?_of_mem distinctSettled member
    have each := (Schema.each_iff_withoutBase (fun r => r.IsPlain ∧
      (r.name ∈ (settled options d).keys ∨ ∃ key, CopiedTwice (splitNames options d) key ∧
        ((settled options d).get? key).bind Schema.base? = some r)) s).mpr
      ⟨entry.others.mono fun r among => ⟨among.1, Or.inl among.2⟩, fun r based =>
        (entry.base r based).imp_right (Or.imp_right fun twice =>
          ⟨name, twice, by rw [found]; exact based⟩)⟩
    exact (Keywords.each_iff _ _).mp (each node inside) r refers
  · have among := (d.sound_of_closed closed plain).raw r raw
    exact ⟨among.1, Or.inl ((mem_keys_run closed _).mpr (Or.inl among.2))⟩

end

/-- The split of a closed document succeeds and leaves plain references. The document stays closed
exactly when the copies of copies have their bases; so it does when no name is that of the copy of
another definition. Every other copy extends the copy of the base. -/
theorem closed_split_iff (options : Options) (d : Document) (distinct : d.definitions.Distinct)
    (closed : d.Closed) (plain : d.Plain) :
    (run options d).2 = .ok { created := (splitNames options d).map (· ++ suffix) } ∧
    (run options d).1.Plain ∧
    ((run options d).1.Closed ↔ ∀ key, CopiedTwice (splitNames options d) key →
      ∀ r, ((run options d).1.definitions.get? key).bind Schema.base? = some r →
        r.name ∈ (run options d).1.definitions.keys) ∧
    (∀ name ∈ splitNames options d, (∀ other ∈ splitNames options d, other ++ suffix ≠ name) →
      d.definitions.ancestors name options.maxDepth ≠ [] →
      ∀ copy, (run options d).1.definitions.get? (name ++ suffix) = some copy → hasContent copy →
      ∃ r, (d.definitions.get? name).bind Schema.base? = some r ∧
        copy.base? = some (r.withSuffix suffix) ∧
        r.name ++ suffix ∈ (run options d).1.definitions.keys) ∧
    ((∀ name ∈ d.definitions.keys, name ++ suffix ∉ d.definitions.keys) →
      (run options d).1.Closed) := by
  rw [run_eq_of_closed closed]
  have known (r : Reference)
      (refers : { d with definitions := settled options d : Document }.Refers r) :=
    known_of_refers_settled distinct closed plain refers
  have plainSettled := (Document.plain_iff _).mpr fun r refers => (known r refers).1
  refine ⟨rfl, plainSettled, ?_,
    fun name split free based copy => base_of_copy closed split free based, fun apart => ?_⟩
  · rw [Document.closed_iff_of_plain plainSettled]
    refine ⟨fun defined key _ r based => ?_, fun defined r refers => ?_⟩
    · obtain ⟨s, found, based⟩ := Option.bind_eq_some_iff.mp based
      exact defined r ((Document.each_refers _ _ (Table.mem_of_get? found)).base r based)
    · refine (known r refers).2.elim id fun exempt => ?_
      obtain ⟨key, twice, based⟩ := exempt
      exact defined key twice r based
  · rw [Document.closed_iff_of_plain plainSettled]
    refine fun r refers => (known r refers).2.resolve_right ?_
    rintro ⟨key, ⟨name, once, again, rfl⟩, _⟩
    exact apart name (mem_keys_of_split closed once) (mem_keys_of_split closed again)

def object : Schema where
  keywords := { type := some "object" }

def useOf (name : String) (nullable : Option Bool) : Schema :=
  mark nullable (.ofReference (.toDefinition name .definitions))

/-- `Ext` and `Ext_nil`, which has nothing to do with it, are used with and without nil. -/
def overwritten : Document where
  raw := [("definitions", .null)]
  flavor := .definitions
  hasSlot := true
  definitions := [
    ("Base", object), ("Ext", { children := { allOf := some [useOf "Base" none, object] } }),
    ("Ext_nil", object),
    ("Holder", { children := { properties := some [
      ("a", useOf "Ext" (some true)), ("b", useOf "Ext" none),
      ("c", useOf "Ext_nil" (some true)), ("d", useOf "Ext_nil" none)] } })]

theorem closed_split_iff_overwritten : overwritten.definitions.Distinct ∧ overwritten.Closed ∧
    overwritten.Plain ∧ (run {} overwritten).2 =
      .ok { created := (splitNames {} overwritten).map (· ++ suffix) } ∧
    ((run {} overwritten).1.Closed ↔ ∀ key, CopiedTwice (splitNames {} overwritten) key →
      ∀ r, ((run {} overwritten).1.definitions.get? key).bind Schema.base? = some r →
        r.name ∈ (run {} overwritten).1.definitions.keys) := by
  have split := closed_split_iff {} overwritten (by decide) rfl (by decide)
  exact ⟨by decide, rfl, by decide, split.1, split.2.2.1⟩

/-- The copy of `Ext` takes the name of the other definition, and its own copy extends a copy of
`Base_nil`, which is not made. -/
theorem nil_copy_left_dangling :
    overwritten.Closed ∧ overwritten.Plain ∧ ¬ (run {} overwritten).1.Closed := by
  refine ⟨rfl, by decide, fun closed => ?_⟩
  cases closed

end NilSplit
end SchemaGraph
