import Mathlib.Data.Fintype.EquivFin
import Mathlib.Data.Fintype.Sets
import SchemaGraph.Proofs.Entered
import SchemaGraph.Proofs.NilFrame

/- Splitting what has been split. The sites inside the definitions are served by the first run, so a
   second one finds nillable sites only where a definition that the first one marked is itself a
   reference. It moves such a mark on to the definition that is meant, and is idle exactly when the
   marks come back to where they were. -/
namespace SchemaGraph

/-- Tables with distinct keys are equal if they have the same keys in the same order and the same
under each. -/
theorem Table.eq_of_get? {α : Type} {t u : Table α} (distinct : t.Distinct) (keys : u.keys = t.keys)
    (same : ∀ key, u.get? key = t.get? key) : u = t := by
  have distinctU : u.Distinct := by rwa [Distinct, keys]
  have length : u.length = t.length := by simpa [Table.keys] using congrArg List.length keys
  refine List.ext_getElem length fun i inU inT => ?_
  have sameKey : u[i].1 = t[i].1 := by
    have at_ : (u.map Prod.fst)[i]? = (t.map Prod.fst)[i]? := congrArg (·[i]?) keys
    simpa [inU, inT] using at_
  have inside : u.get? u[i].1 = some u[i].2 := get?_of_mem distinctU (List.getElem_mem inU)
  have other : t.get? t[i].1 = some t[i].2 := get?_of_mem distinct (List.getElem_mem inT)
  rw [sameKey, same, other] at inside
  exact Prod.ext sameKey (Option.some.inj inside).symm

namespace Schema

/-- The visits of a walk are the nodes that it meets. -/
theorem mem_visits_iff_met {s : Schema} {levels : Nat} (enough : s.levels ≤ levels)
    (definition : String) (trail : List String) (v : Visit) :
    v ∈ s.visits definition levels trail ↔ v.definition = definition ∧
      ∃ node ∈ s.met trail, v.trail = node.1 ∧ v.keywords = node.2.keywords := by
  induction levels generalizing s trail with
  | zero => exact absurd s.levels_pos (by omega)
  | succ levels ih =>
    obtain ⟨k, c⟩ := s
    have below {placed : List String × Schema} (listed : placed ∈ c.enteredPlaces) :=
      have lower := levels_lt_of_mem (k := k) (mem_toList_of_placed listed)
      ih (s := placed.2) (by omega) (placed.1.reverse ++ trail)
    rw [visits, List.mem_append, List.mem_flatMap, List.mem_singleton]
    constructor
    · rintro (⟨placed, listed, visited⟩ | rfl)
      · obtain ⟨same, node, met, here⟩ := (below listed).mp visited
        exact ⟨same, node, mem_met_mk.mpr (Or.inr ⟨placed, listed, met⟩), here⟩
      · exact ⟨rfl, (trail, ⟨k, c⟩), mem_met_self _ trail, rfl, rfl⟩
    · rintro ⟨same, node, met, here⟩
      rcases mem_met_mk.mp met with rfl | ⟨placed, listed, met⟩
      · obtain ⟨definition', trail', keywords⟩ := v
        simp_all
      · exact Or.inl ⟨placed, listed, (below listed).mpr ⟨same, node, met, here⟩⟩

/-- A walk that changes the keywords of no node changes nothing. -/
theorem walk_rekey_eq_self {f : String → List String → Keywords → Keywords} (levels : Nat)
    {p : Position} {s : Schema} (same : ∀ node ∈ s.met p.trail,
      f p.definition node.1 node.2.keywords = node.2.keywords) :
    (s.walk (.rekey f) levels p).run = s := by
  induction levels generalizing p s with
  | zero => rfl
  | succ levels ih =>
    obtain ⟨k, c⟩ := s
    have own : f p.definition p.trail k = k := same _ (mem_met_mk.mpr (Or.inl rfl))
    have below : c.mapEntered (fun segments child =>
        (child.walk (.rekey f) levels (p.child k.xml segments)).run) = c := by
      refine (Children.mapEntered_eq_self_iff c).mpr fun placed listed => ih fun node met => ?_
      exact same node (mem_met_mk.mpr (Or.inr ⟨placed, listed, met⟩))
    rw [walk_succ]
    exact congrArg₂ mk own below

end Schema

theorem Visitor.shallow_rekey (f : String → List String → Keywords → Keywords) :
    (Visitor.rekey f).Shallow where
  keywords _ _ _ _ := rfl
  keeps _ _ := rfl
  after := ⟨fun _ _ _ _ => rfl, fun _ _ => rfl, fun _ _ => rfl⟩

namespace NilSplit

/-- No site inside the schema that counts allows nil. -/
def Quiet (s : Schema) : Prop :=
  ∀ placed ∈ s.children.enteredPlaces, ∀ node ∈ placed.2.met placed.1.reverse, ∀ r,
    request? node.1 node.2.keywords ≠ some (r, true)

theorem Quiet.of_children {a b : Schema} (quiet : Quiet a) (same : b.children = a.children) :
    Quiet b := by rwa [Quiet, same]

/-- The reference to the base is no site, so turning it makes none. -/
theorem Quiet.mapBase {s : Schema} (quiet : Quiet s) (f : Reference → Reference) :
    Quiet (s.mapBase f) := by
  rw [Schema.mapBase]
  split
  · rename_i first rest members
    intro placed listed node met r
    have before : (["allOf", toString 0], first) ∈ s.children.enteredPlaces := by
      rw [Children.enteredPlaces_eq, members]
      simp [Children.mapMembers]
    have either : placed ∈ s.children.enteredPlaces ∨ placed = (["allOf", toString 0],
        { first with keywords.reference := first.keywords.reference.map f }) := by
      rw [Children.enteredPlaces_eq] at listed ⊢
      rw [members]
      simp only [Children.mapMembers, Option.getD_some, List.mapIdx_cons, List.mem_append,
        List.mem_cons] at listed ⊢
      tauto
    rcases either with other | rfl
    · exact quiet placed other node met r
    · obtain ⟨k, c⟩ := first
      rcases Schema.mem_met_mk.mp met with rfl | inside
      · intro asks
        cases asks
      · exact quiet _ before node (Schema.mem_met_mk.mpr (Or.inr inside)) r
  · exact quiet

theorem request?_clear (name : String) (trail : List String) (k : Keywords) (r : Reference) :
    request? trail (clear name trail k) ≠ some (r, true) := by
  intro asks
  obtain ⟨counts, refers, marked⟩ := (request?_eq_some_iff _ _ _ _).mp asks
  rw [reference_clear] at refers
  by_cases before : k.xNullable = some true
  · have cleared : clear name trail k = { k with xNullable := none } := by
      have asked := (request?_eq_some_iff trail k r true).mpr ⟨counts, refers, by simp [before]⟩
      rw [clear, asked]
    rw [cleared] at marked
    cases marked
  · exact xNullable_clear name trail before (by simpa using marked)

theorem exists_request?_of_turn {split : List String} {sites : List Site} {name : String}
    {trail : List String} {k : Keywords} {r : Reference} {marked : Bool}
    (asks : request? trail (turn split sites name trail k) = some (r, marked)) :
    ∃ before, request? trail k = some (before, marked) := by
  obtain ⟨counts, refers, marked⟩ := (request?_eq_some_iff _ _ _ _).mp asks
  rw [reference_turn] at refers
  obtain ⟨before, refers, _⟩ := Option.map_eq_some_iff.mp refers
  rw [xNullable_turn] at marked
  exact ⟨before, (request?_eq_some_iff _ _ _ _).mpr ⟨counts, refers, marked⟩⟩

section
variable (options : Options) (d : Document)

/-- After the two walks no site asks for nil. -/
theorem request?_turned {node : List String × Schema} (met : node ∈ (turned options d).met)
    (r : Reference) : request? node.1 node.2.keywords ≠ some (r, true) := by
  intro asks
  obtain ⟨middle, metFirst, same, q, _, trail, turns⟩ :=
    Definitions.exists_of_mem_met_change (Visitor.shallow_rekey _) met
  obtain ⟨before, _, sameFirst, p, _, trailFirst, clears⟩ :=
    Definitions.exists_of_mem_met_change (Visitor.shallow_rekey _) metFirst
  have turnedHere : node.2.keywords = turn (splitNames options d) (demand d).sites q.definition
      q.trail middle.2.keywords := congrArg Schema.keywords turns
  have clearedHere : middle.2.keywords = clear p.definition p.trail before.2.keywords :=
    congrArg Schema.keywords clears
  rw [turnedHere, trail] at asks
  obtain ⟨r, asks⟩ := exists_request?_of_turn asks
  rw [clearedHere, trailFirst, same] at asks
  exact request?_clear p.definition node.1 before.2.keywords r asks

theorem quiet_turned : ∀ e ∈ turned options d, Quiet e.2 := by
  rintro ⟨name, k, c⟩ member placed listed node met
  refine request?_turned options d (Definitions.mem_met_iff.mpr ⟨_, member, ?_⟩)
  refine Schema.mem_met_mk.mpr (Or.inr ⟨placed, listed, ?_⟩)
  rwa [List.append_nil]

theorem Quiet.nillableCopy {s : Schema} (quiet : Quiet s) (name : String) (hasAncestors : Bool) :
    Quiet (nillableCopy name hasAncestors s) := by
  have children : (NilSplit.nillableCopy name hasAncestors s).children =
      (if hasAncestors && hasContent s then s.mapBase (·.withSuffix suffix) else s).children := rfl
  refine Quiet.of_children ?_ children
  split
  · exact quiet.mapBase _
  · exact quiet

theorem forall_settle (maxDepth : Nat) (split : List String) {definitions : Definitions}
    {holds : String × Schema → Prop} (each : ∀ e ∈ definitions, holds e) {name : String}
    (root : ∀ s, holds (name, s) → holds (name, settledRoot split name s))
    (copy : ∀ s hasAncestors, holds (name, s) →
      holds (name ++ suffix, nillableCopy name hasAncestors s)) :
    ∀ e ∈ settle maxDepth split definitions name, holds e := by
  rw [settle]
  split
  · exact each
  · rename_i s found
    have own := each _ (Table.mem_of_get? found)
    have rooted {e} (member : e ∈ definitions.put name (settledRoot split name s)) : holds e := by
      rcases Table.mem_of_mem_put member with old | rfl
      · exact each e old
      · exact root s own
    intro e member
    dsimp only at member
    split at member
    · rcases Table.mem_of_mem_put member with old | rfl
      · exact rooted old
      · exact copy s _ own
    · exact rooted member

/-- What holds of the definitions once the sites are turned, of every root that is settled and of
every copy, holds of all that the split leaves. -/
theorem forall_settled {holds : String × Schema → Prop} (each : ∀ e ∈ turned options d, holds e)
    (root : ∀ name ∈ nillableNames options d, ∀ s, holds (name, s) →
      holds (name, settledRoot (splitNames options d) name s))
    (copy : ∀ name ∈ nillableNames options d, ∀ s hasAncestors, holds (name, s) →
      holds (name ++ suffix, nillableCopy name hasAncestors s)) :
    ∀ e ∈ settled options d, holds e := by
  rw [settled]
  refine List.foldlRecOn (motive := fun t : Definitions => ∀ e ∈ t, holds e)
    (nillableNames options d) _ each ?_
  intro t each name listed
  exact forall_settle options.maxDepth (splitNames options d) each (root name listed)
    (copy name listed)

theorem quiet_settled : ∀ e ∈ settled options d, Quiet e.2 :=
  forall_settled options d (quiet_turned options d)
    (fun name _ s quiet => quiet.of_children (children_settledRoot _ name s))
    fun name _ _ hasAncestors quiet => quiet.nillableCopy name hasAncestors

end

/-- A definition that is a reference itself and allows nil. -/
def MarkedAlias (definitions : Definitions) (name : String) (r : Reference) : Prop :=
  ∃ s, (name, s) ∈ definitions ∧ s.keywords.reference = some r ∧ s.keywords.xNullable = some true

/-- A marked definition that is a reference itself asks for nil again: for the definition that it
means, and so for all of that hierarchy. -/
def Renewed (options : Options) (d : Document) (name : String) : Prop :=
  ∃ aliasName r, MarkedAlias d.definitions aliasName r ∧
    Relation.ReflTransGen (Spreads d.definitions options.maxDepth) r.name name

/-- Splitting leaves the document alone and reports nothing. -/
def Idle (options : Options) (d : Document) : Prop := run options d = (d, .ok {})

/-- What is asked for again allows nil, and no site asks for it without; the marks that are taken
from definitions that are references come back to them. -/
structure Restored (options : Options) (d : Document) : Prop where
  marked : ∀ name, Renewed options d name → Nillable d.definitions name
  whole : ∀ name, Renewed options d name → name ∉ plainNames options d
  returned : ∀ name r, MarkedAlias d.definitions name r → Renewed options d name

section
variable {definitions : Definitions}

theorem request?_root (k : Keywords) (r : Reference) :
    request? [] k = some (r, true) ↔ k.reference = some r ∧ k.xNullable = some true := by
  simp [request?_eq_some_iff]

theorem clear_of_request?_ne {name : String} {trail : List String} {k : Keywords}
    (asksNot : ∀ r, request? trail k ≠ some (r, true)) : clear name trail k = k := by
  rw [clear]
  split
  · rename_i r asks
    exact absurd asks (asksNot r)
  · rfl

/-- A walk that changes the keywords of no node below the root changes those of the root. -/
theorem walk_rekey_root {f : String → List String → Keywords → Keywords} (flavor : Flavor)
    (name : String) {s : Schema} (same : ∀ placed ∈ s.children.enteredPlaces,
      ∀ node ∈ placed.2.met placed.1.reverse, f name node.1 node.2.keywords = node.2.keywords) :
    (s.walk (.rekey f) s.levels { flavor, definition := name }).run =
      { s with keywords := f name [] s.keywords } := by
  obtain ⟨k, c⟩ := s
  obtain ⟨levels, level⟩ : ∃ levels, Schema.levels ⟨k, c⟩ = levels + 1 :=
    ⟨_, (Nat.sub_add_cancel (Schema.levels_pos ⟨k, c⟩)).symm⟩
  have below : c.mapEntered (fun segments child => (child.walk (.rekey f) levels
      (Position.child { flavor, definition := name } k.xml segments)).run) = c := by
    refine (Children.mapEntered_eq_self_iff c).mpr fun placed listed => ?_
    refine Schema.walk_rekey_eq_self levels fun node met => same placed listed node ?_
    simpa [Position.child] using met
  rw [level, Schema.walk_succ]
  exact congrArg (Schema.mk (f name [] k)) below

end

section
variable {options : Options} {d : Document} (quiet : ∀ e ∈ d.definitions, Quiet e.2)
include quiet

theorem exists_visit_iff_markedAlias (name : String) (trail : List String) (r : Reference) :
    (∃ v ∈ d.definitions.visits, request? v.trail v.keywords = some (r, true) ∧
      (v.definition, v.trail) = (name, trail)) ↔ MarkedAlias d.definitions name r ∧ trail = [] := by
  constructor
  · rintro ⟨v, visited, asks, here⟩
    obtain ⟨⟨definition, k, c⟩, member, visited⟩ := List.mem_flatMap.mp visited
    obtain ⟨same, node, met, trailHere, keywords⟩ :=
      (Schema.mem_visits_iff_met (Nat.le_refl _) definition [] v).mp visited
    rw [trailHere, keywords] at asks
    rcases Schema.mem_met_mk.mp met with rfl | ⟨placed, listed, inside⟩
    · obtain ⟨refers, marked⟩ := (request?_root k r).mp asks
      obtain ⟨rfl, rfl⟩ := Prod.mk.inj here
      exact ⟨⟨_, same ▸ member, refers, marked⟩, trailHere⟩
    · rw [List.append_nil] at inside
      exact absurd asks (quiet _ member placed listed node inside r)
  · rintro ⟨⟨s, member, refers, marked⟩, rfl⟩
    refine ⟨⟨name, [], s.keywords⟩, List.mem_flatMap.mpr ⟨_, member, ?_⟩,
      (request?_root _ r).mpr ⟨refers, marked⟩, rfl⟩
    exact (Schema.mem_visits_iff_met (Nat.le_refl _) name [] _).mpr
      ⟨rfl, ([], s), Schema.mem_met_self s [], rfl, rfl⟩

/-- In what has been split, only the marked references among the definitions ask for nil. -/
theorem mem_nillableNames_iff_renewed (name : String) :
    name ∈ nillableNames options d ↔ Renewed options d name := by
  have noted := noted_foldl d.definitions.visits {}
  rw [mem_nillableNames_iff]
  constructor
  · rintro ⟨start, asked, reached⟩
    obtain ⟨v, visited, r, asks, rfl⟩ := ((noted.nillable start).mp asked).resolve_left (by simp)
    have marked := (exists_visit_iff_markedAlias quiet _ _ r).mp ⟨v, visited, asks, rfl⟩
    exact ⟨v.definition, r, marked.1, reached⟩
  · rintro ⟨aliasName, r, marked, reached⟩
    obtain ⟨v, visited, asks, _⟩ :=
      (exists_visit_iff_markedAlias quiet aliasName [] r).mpr ⟨marked, rfl⟩
    exact ⟨r.name, (noted.nillable r.name).mpr (Or.inr ⟨v, visited, r, asks, rfl⟩), reached⟩

theorem get?_collected (name : String) :
    (d.definitions.change d.flavor (.rekey clear)).get? name =
      (d.definitions.get? name).map fun s => { s with keywords := clear name [] s.keywords } := by
  rw [Definitions.get?_change]
  refine Option.map_congr fun s found => ?_
  refine walk_rekey_root d.flavor name fun placed listed node met => ?_
  exact clear_of_request?_ne (quiet _ (Table.mem_of_get? found) placed listed node met)

end

/-- Marking succeeds only if every name is defined in the end. -/
theorem mem_keys_of_markAll_ok {flavor : Flavor} {maxDepth : Nat} {split names : List String}
    (nodup : names.Nodup) {definitions left : Definitions} {created made : List String}
    (ran : markAll flavor maxDepth split names definitions created = (left, .ok made)) :
    (∀ name ∈ definitions.keys, name ∈ left.keys) ∧ ∀ name ∈ names, name ∈ left.keys := by
  induction names generalizing definitions created with
  | nil =>
    cases ran
    exact ⟨fun _ => id, nofun⟩
  | cons name rest ih =>
    cases found : definitions.get? name with
    | none =>
      rw [markAll, found] at ran
      cases ran
    | some s =>
      have known : name ∈ definitions.keys := (Table.exists_get?_iff _ _).mp ⟨s, found⟩
      rw [markAll_cons flavor maxDepth split found] at ran
      obtain ⟨kept, later⟩ := ih (List.nodup_cons.mp nodup).2 ran
      have keeps (key : String) (stood : key ∈ definitions.keys) : key ∈ left.keys :=
        kept key ((mem_keys_settle maxDepth split known key).mpr (Or.inl stood))
      exact ⟨keeps, List.forall_mem_cons.mpr ⟨keeps name known, later⟩⟩

theorem reference_nillableCopy (name : String) (hasAncestors : Bool) (s : Schema) :
    (nillableCopy name hasAncestors s).keywords.reference = s.keywords.reference := by
  have root : (nillableCopy name hasAncestors s).keywords.reference =
      (if hasAncestors && hasContent s then s.mapBase (·.withSuffix suffix)
        else s).keywords.reference := rfl
  rw [root]
  split
  · rw [Schema.keywords_mapBase]
  · rfl

theorem mem_keys_of_run_ok {options : Options} {d : Document} {report : Report}
    (ran : (run options d).2 = .ok report) :
    ∀ name ∈ nillableNames options d, name ∈ (run options d).1.definitions.keys := by
  obtain ⟨made, marked, _⟩ := exists_markAll_of_ok ran
  exact (mem_keys_of_markAll_ok (nodup_nillableNames options d) marked).2

theorem mark_clear (nullable : Option Bool) (name : String) (trail : List String) (s : Schema) :
    mark nullable { s with keywords := clear name trail s.keywords } = mark nullable s := by
  rw [clear]
  split <;> rfl

section
variable {options : Options} {d : Document} (quiet : ∀ e ∈ d.definitions, Quiet e.2)
include quiet

/-- A second split that makes no copy marks roots, and takes marks from those that are
references. -/
theorem get?_settled_of_whole (whole : splitNames options d = []) (name : String) :
    (settled options d).get? name = (d.definitions.get? name).map fun s =>
      if name ∈ nillableNames options d then mark (some true) s
      else { s with keywords := clear name [] s.keywords } := by
  have turns : turned options d = d.definitions.change d.flavor (.rekey clear) := by
    rw [turned, Definitions.change_eq_self_iff]
    refine fun e _ => Schema.walk_rekey_eq_self _ fun node _ => ?_
    rw [turn, whole]
    split <;> rfl
  rw [settled, whole, turns]
  by_cases nillable : name ∈ nillableNames options d
  · rw [get?_settled_of_mem (nodup_nillableNames options d) _ nillable (by simp),
      get?_collected quiet, Option.map_map]
    refine Option.map_congr fun s _ => ?_
    rw [if_pos nillable]
    exact mark_clear (some true) name [] s
  · rw [get?_settled_of_notMem _ _ _ nillable (by simp), get?_collected quiet]
    simp only [nillable, if_false]

theorem restored_of_idle (distinct : d.definitions.Distinct) (idle : Idle options d) :
    Restored options d := by
  have ran : (run options d).2 = .ok {} := congrArg Prod.snd idle
  have same : (run options d).1 = d := congrArg Prod.fst idle
  obtain ⟨left, reported, _⟩ := run_of_ok ran
  have whole : splitNames options d = [] :=
    List.map_eq_nil_iff.mp (congrArg Report.created reported).symm
  have stands : settled options d = d.definitions :=
    congrArg Document.definitions (left.symm.trans same)
  have known := mem_keys_of_run_ok ran
  rw [same] at known
  -- So a root that is to allow nil was marked already, and no other one has a mark to take.
  have each (name : String) {s : Schema} (found : d.definitions.get? name = some s) :
      (if name ∈ nillableNames options d then mark (some true) s
        else { s with keywords := clear name [] s.keywords }) = s := by
    have same := get?_settled_of_whole quiet whole name
    rw [stands, found, Option.map_some] at same
    exact (Option.some.inj same).symm
  constructor
  · intro name renewed
    have nillable := (mem_nillableNames_iff_renewed quiet name).mpr renewed
    obtain ⟨s, found⟩ := (Table.exists_get?_iff _ _).mpr (known name nillable)
    have same := each name found
    rw [if_pos nillable] at same
    exact ⟨s, found, (congrArg (·.keywords.xNullable) same).symm⟩
  · intro name renewed plain
    have nillable := (mem_nillableNames_iff_renewed quiet name).mpr renewed
    have split := (mem_splitNames_iff name).mpr ⟨nillable, plain⟩
    rw [whole] at split
    cases split
  · intro name r marked
    rw [← mem_nillableNames_iff_renewed quiet]
    by_contra absent
    obtain ⟨s, member, refers, marked⟩ := marked
    have same := each name (Table.get?_of_mem distinct member)
    rw [if_neg absent] at same
    have asks := (request?_root s.keywords r).mpr ⟨refers, marked⟩
    have cleared : clear name [] s.keywords = s.keywords := congrArg Schema.keywords same
    rw [← cleared] at asks
    exact request?_clear name [] s.keywords r asks

theorem whole_of_restored (restored : Restored options d) : splitNames options d = [] := by
  refine List.eq_nil_iff_forall_not_mem.mpr fun name split => ?_
  obtain ⟨nillable, plain⟩ := (mem_splitNames_iff name).mp split
  exact restored.whole name ((mem_nillableNames_iff_renewed quiet name).mp nillable) plain

theorem get?_settled_of_restored (restored : Restored options d) (name : String) :
    (settled options d).get? name = d.definitions.get? name := by
  have renewed : name ∈ nillableNames options d ↔ Renewed options d name :=
    mem_nillableNames_iff_renewed quiet name
  rw [get?_settled_of_whole quiet (whole_of_restored quiet restored)]
  refine (Option.map_congr (g := id) fun s found => ?_).trans (congrFun Option.map_id _)
  split
  · rename_i nillable
    obtain ⟨t, defined, marked⟩ := restored.marked name (renewed.mp nillable)
    obtain rfl := Option.some.inj (found.symm.trans defined)
    rw [← marked]
    exact mark_same s
  · rename_i absent
    obtain ⟨k, c⟩ := s
    have asksNot (r : Reference) : request? [] k ≠ some (r, true) := by
      intro asks
      obtain ⟨refers, marked⟩ := (request?_root k r).mp asks
      have here : MarkedAlias d.definitions name r := ⟨_, Table.mem_of_get? found, refers, marked⟩
      exact absent (renewed.mpr (restored.returned name r here))
    exact congrArg (Schema.mk · c) (clear_of_request?_ne asksNot)

theorem idle_of_restored (distinct : d.definitions.Distinct) (restored : Restored options d) :
    Idle options d := by
  have whole := whole_of_restored quiet restored
  have known : ∀ name ∈ nillableNames options d, name ∈ (turned options d).keys := by
    intro name nillable
    obtain ⟨s, found, _⟩ :=
      restored.marked name ((mem_nillableNames_iff_renewed quiet name).mp nillable)
    rw [keys_turned]
    exact (Table.exists_get?_iff _ _).mp ⟨s, found⟩
  have ran : (run options d).2 = .ok {} := by
    rw [run_eq, markAll_eq options.maxDepth (splitNames options d) d.flavor known [],
      filter_splitNames, whole]
    rfl
  obtain ⟨left, _, keys⟩ := run_of_ok ran
  have stands : settled options d = d.definitions :=
    Table.eq_of_get? distinct (by simpa using keys) (get?_settled_of_restored quiet restored)
  have same : (run options d).1 = d := by rw [left, stands]
  exact Prod.ext same ran

end

/-- What the marked alias of the first name asks for again reaches the other name. -/
def Leads (options : Options) (d : Document) (name other : String) : Prop :=
  ∃ r, MarkedAlias d.definitions name r ∧
    Relation.ReflTransGen (Spreads d.definitions options.maxDepth) r.name other

/-- Among finitely many names a relation without circles goes back only so far. -/
theorem wellFounded_of_acyclic {leads : String → String → Prop}
    (acyclic : ∀ name, ¬ Relation.TransGen leads name name) (names : List String) :
    WellFounded fun a b : {name // name ∈ names} => leads a.1 b.1 := by
  let before (a b : {name // name ∈ names}) : Prop := Relation.TransGen leads a.1 b.1
  have : IsTrans _ before := ⟨fun _ _ _ => .trans⟩
  have : Std.Irrefl before := ⟨fun a => acyclic a.1⟩
  have wellFounded : WellFounded before := Finite.wellFounded_of_trans_of_irrefl before
  exact Subrelation.wf (fun step => .single step) wellFounded

/-- Where marks do not lead back, some marked alias would be asked for by no other. -/
theorem not_markedAlias_of_returned {options : Options} {d : Document}
    (acyclic : ∀ name, ¬ Relation.TransGen (Leads options d) name name)
    (returned : ∀ name r, MarkedAlias d.definitions name r → Renewed options d name)
    (name : String) (r : Reference) : ¬ MarkedAlias d.definitions name r := by
  have known {other : String} {q : Reference} (marked : MarkedAlias d.definitions other q) :
      other ∈ d.definitions.keys := by
    obtain ⟨s, member, _⟩ := marked
    exact (Table.mem_keys_iff _ _).mpr ⟨s, member⟩
  -- Going back, every marked alias was asked for by another one.
  have none (a : {key // key ∈ d.definitions.keys}) : ∀ q, ¬ MarkedAlias d.definitions a.1 q := by
    induction a using (wellFounded_of_acyclic acyclic d.definitions.keys).induction with
    | _ a ih =>
      intro q marked
      obtain ⟨source, q, sourceMarked, reached⟩ := returned a.1 q marked
      exact ih ⟨source, known sourceMarked⟩ ⟨q, sourceMarked, reached⟩ q sourceMarked
  intro marked
  exact none ⟨name, known marked⟩ r marked

section
variable {options : Options} {d : Document}

/-- The definitions that are references are neither marked nor asked for. -/
def Unasked (asked : List String) (e : String × Schema) : Prop :=
  ∀ r, e.2.keywords.reference = some r → e.2.keywords.xNullable ≠ some true ∧ e.1 ∉ asked

theorem unasked_turned (distinct : d.definitions.Distinct)
    (bare : ∀ name ∈ nillableNames options d, ∀ s, d.definitions.get? name = some s →
      s.keywords.reference = none) :
    ∀ e ∈ turned options d, Unasked (nillableNames options d) e := by
  rintro ⟨name, s⟩ member r refers
  have found : (turned options d).get? name = some s :=
    Table.get?_of_mem (by rwa [Table.Distinct, keys_turned]) member
  constructor
  · intro marked
    have met : ([], s) ∈ (turned options d).met :=
      Definitions.mem_met_iff.mpr ⟨_, member, Schema.mem_met_self s []⟩
    exact request?_turned options d met r ((request?_root _ _).mpr ⟨refers, marked⟩)
  · intro nillable
    have root := at?_turned options d name []
    rw [Definitions.at?, found, Definitions.at?] at root
    obtain ⟨k, stood, turns⟩ := Option.map_eq_some_iff.mp root.symm
    obtain ⟨original, defined, here⟩ := Option.bind_eq_some_iff.mp stood
    obtain rfl := Option.some.inj here
    have none := bare name nillable original defined
    have after := congrArg Keywords.reference turns
    rw [show Place.isEntered [] = true from rfl, if_pos rfl, reference_turn, reference_clear, none,
      refers] at after
    cases after

/-- If no definition that is to allow nil is a reference itself, none that is a reference is
marked. -/
theorem not_markedAlias_settled (distinct : d.definitions.Distinct)
    (bare : ∀ name ∈ nillableNames options d, ∀ s, d.definitions.get? name = some s →
      s.keywords.reference = none) (name : String) (r : Reference) :
    ¬ MarkedAlias (settled options d) name r := by
  -- Only roots that were asked for and their copies are put, and none of them is a reference.
  have bareRoot {name : String} (listed : name ∈ nillableNames options d) {s : Schema}
      (unasked : Unasked (nillableNames options d) (name, s)) : s.keywords.reference = none :=
    Option.eq_none_iff_forall_ne_some.mpr fun r refers => (unasked r refers).2 listed
  have unasked : ∀ e ∈ settled options d, Unasked (nillableNames options d) e := by
    refine forall_settled options d (unasked_turned distinct bare)
      (fun name listed s own r refers => ?_) fun name listed s hasAncestors own r refers => ?_
    · have same := reference_settledRoot (splitNames options d) name [] s
      cases (bareRoot listed own).symm.trans (same.symm.trans refers)
    · cases (bareRoot listed own).symm.trans
        ((reference_nillableCopy name hasAncestors s).symm.trans refers)
  rintro ⟨s, member, refers, marked⟩
  exact (unasked _ member r refers).1 marked

theorem restored_of_not_markedAlias
    (none : ∀ name r, ¬ MarkedAlias d.definitions name r) : Restored options d where
  marked := fun _ ⟨_, _, marked, _⟩ => absurd marked (none _ _)
  whole := fun _ ⟨_, _, marked, _⟩ => absurd marked (none _ _)
  returned := fun name r marked => absurd marked (none name r)

end

/-- A second split is idle exactly when the marks of definitions that are references come back to
them, and what they ask for allows nil already and is asked for by no site without. So it is when no
definition that was asked for is a reference; and where marks do not lead back, it is idle exactly
when no definition that is a reference is marked. -/
theorem split_again_iff (options : Options) (d : Document) (distinct : d.definitions.Distinct)
    {report : Report} (ran : (run options d).2 = .ok report) :
    (Idle options (run options d).1 ↔ Restored options (run options d).1) ∧
    ((∀ name ∈ nillableNames options d, ∀ s, d.definitions.get? name = some s →
      s.keywords.reference = none) → Idle options (run options d).1) ∧
    ((∀ name, ¬ Relation.TransGen (Leads options (run options d).1) name name) →
      (Idle options (run options d).1 ↔
        ∀ name r, ¬ MarkedAlias (run options d).1.definitions name r)) := by
  obtain ⟨left, _⟩ := run_of_ok ran
  have quiet : ∀ e ∈ (run options d).1.definitions, Quiet e.2 := by
    rw [left]
    exact quiet_settled options d
  have distinctOut : (run options d).1.definitions.Distinct := by
    rw [left]
    exact distinct_settled _ _ _ (by rwa [Table.Distinct, keys_turned])
  have exactly : Idle options (run options d).1 ↔ Restored options (run options d).1 :=
    ⟨restored_of_idle quiet distinctOut, idle_of_restored quiet distinctOut⟩
  refine ⟨exactly, fun bare => ?_, fun acyclic => exactly.trans ⟨fun restored => ?_, ?_⟩⟩
  · refine exactly.mpr (restored_of_not_markedAlias fun name r => ?_)
    rw [left]
    exact not_markedAlias_settled distinct bare name r
  · exact not_markedAlias_of_returned acyclic restored.returned
  · exact restored_of_not_markedAlias

theorem split_again_iff_taken : taken.definitions.Distinct ∧
    (run {} taken).2 = .ok { created := ["Code_nil"] } ∧
    (∀ name ∈ nillableNames {} taken, ∀ s, taken.definitions.get? name = some s →
      s.keywords.reference = none) ∧ Idle {} (run {} taken).1 := by
  have bare : ∀ name ∈ nillableNames {} taken, ∀ s, taken.definitions.get? name = some s →
      s.keywords.reference = none := by
    have each : ∀ e ∈ taken.definitions, e.2.keywords.reference = none := by decide
    exact fun name _ s found => each _ (Table.mem_of_get? found)
  exact ⟨by decide, rfl, bare, (split_again_iff {} taken (by decide) rfl).2.1 bare⟩

/-- `Alias` stands for `Base`, which is used without nil as well. -/
def aliased : Document where
  raw := [("definitions", .null)]
  flavor := .definitions
  hasSlot := true
  definitions := [
    ("Alias", useOf "Base" none), ("Base", { keywords := { type := some "string" } }),
    ("Holder", { children := { properties := some [
      ("a", useOf "Alias" (some true)), ("b", useOf "Base" none)] } })]

/-- The first run marks `Alias`; the second one takes that for a site, moves the mark to a copy of
`Base` and turns `Alias` to it. -/
theorem split_not_idle : aliased.definitions.Distinct ∧ (run {} aliased).2 = .ok {} ∧
    ¬ Idle {} (run {} aliased).1 := by
  refine ⟨by decide, rfl, fun idle => ?_⟩
  have created : (run {} (run {} aliased).1).2 = .ok { created := ["Base_nil"] } := rfl
  cases created.symm.trans (congrArg Prod.snd idle)

end NilSplit
end SchemaGraph
