import SchemaGraph.Proofs.Sound
import SchemaGraph.Proofs.Spreading
import SchemaGraph.Proofs.Visits

/- What the reference sites ask of the nil split, read off the document. The first walk notes what
   every counted site asks for and takes the marks away; spreading closes the two sets of names under
   the hierarchy; the second walk turns the marked sites of split definitions to the copies. -/
namespace SchemaGraph

theorem Schema.base?_eq (s : Schema) :
    s.base? = (s.at? [.allOf 0]).bind Keywords.reference := by
  cases members : s.children.allOf with
  | none => simp [base?, at?, Children.child?, members]
  | some l => cases l <;> simp [base?, at?, Children.child?, members]

theorem Definitions.bases_change {f : String → List String → Keywords → Keywords}
    (keeps : ∀ name k, (f name (Place.trail [.allOf 0]) k).reference = k.reference)
    (flavor : Flavor) (definitions : Definitions) :
    (definitions.change flavor (.rekey f)).bases = definitions.bases := by
  rw [bases, change, Table.mapValues, List.map_map]
  refine List.map_congr_left fun entry _ => Prod.ext rfl ?_
  obtain ⟨name, root⟩ := entry
  have walked := Schema.at?_walk f { flavor, definition := name } [.allOf 0]
    (Nat.le_refl root.levels)
  rw [List.append_nil] at walked
  refine (Schema.base?_eq _).trans ((congrArg (Option.bind · Keywords.reference) walked).trans ?_)
  refine Eq.trans ?_ (Schema.base?_eq root).symm
  cases Schema.at? [.allOf 0] root with
  | none => rfl
  | some k => exact keeps name k

namespace NilSplit

/-- The reference of a site that counts, and whether the site allows nil. -/
def request? (trail : List String) (k : Keywords) : Option (Reference × Bool) :=
  if trail.tail.head? = some "allOf" then none
  else k.reference.map fun r => (r, k.xNullable == some true)

def note (d : Demand) (v : Visit) : Demand :=
  match request? v.trail v.keywords with
  | none => d
  | some (r, true) => { d with
      nillable := insertNew d.nillable r.name
      sites := (v.definition, v.trail) :: d.sites }
  | some (r, false) => { d with plain := insertNew d.plain r.name }

/-- The keywords without the mark of a site that counts. -/
def clear (_ : String) (trail : List String) (k : Keywords) : Keywords :=
  match request? trail k with
  | some (_, true) => { k with xNullable := none }
  | _ => k

theorem collect_runs (graph : Definitions) (p : Position) (s : Schema) :
    Runs note [⟨p.definition, p.trail, s.keywords⟩] (collect graph p s)
      { s with keywords := clear p.definition p.trail s.keywords } := by
  intro demand
  obtain ⟨k, c⟩ := s
  rw [collect, List.foldl_cons, List.foldl_nil]
  dsimp only
  cases refers : k.reference with
  | none => simp [note, clear, request?, refers]; rfl
  | some r =>
    by_cases member : p.parentKey? = some "allOf"
    · have asksNothing : request? p.trail k = none := if_pos member
      simp only [note, clear, asksNothing, member, if_true]
      rfl
    · have asks : request? p.trail k = some (r, k.xNullable == some true) := by
        rw [request?, refers]
        exact if_neg member
      by_cases marked : k.xNullable = some true
      · simp only [note, clear, asks, member, marked, refers, if_true, if_false, beq_self_eq_true]
        rfl
      · have unmarked : (k.xNullable == some true) = false := by simpa using marked
        simp only [note, clear, asks, member, marked, if_false, unmarked]
        rfl

/-- The keywords of a node once the sites of split definitions are turned. -/
def turn (split : List String) (sites : List Site) (definition : String) (trail : List String)
    (k : Keywords) : Keywords :=
  match k.reference with
  | some r =>
    if split.contains r.name && sites.contains (definition, trail) then
      { k with reference := some (r.withSuffix suffix) }
    else k
  | none => k

theorem repoint_eq (split : List String) (sites : List Site) :
    (⟨fun _ s => s, repoint split sites⟩ : Visitor Id) = .rekey (turn split sites) := by
  refine congrArg (Visitor.mk (m := Id) fun _ s => s) (funext₂ fun p s => ?_)
  obtain ⟨k, c⟩ := s
  rw [repoint]
  cases refers : k.reference with
  | none => simp only [turn, refers]; rfl
  | some r =>
    simp only [turn, refers]
    split <;> rfl

/-- The demand after some visits. -/
structure Noted (before after : Demand) (visits : List Visit) : Prop where
  nillable : ∀ name, name ∈ after.nillable ↔ name ∈ before.nillable ∨
    ∃ v ∈ visits, ∃ r, request? v.trail v.keywords = some (r, true) ∧ r.name = name
  plain : ∀ name, name ∈ after.plain ↔ name ∈ before.plain ∨
    ∃ v ∈ visits, ∃ r, request? v.trail v.keywords = some (r, false) ∧ r.name = name
  sites : ∀ site, site ∈ after.sites ↔ site ∈ before.sites ∨
    ∃ v ∈ visits, ∃ r, request? v.trail v.keywords = some (r, true) ∧
      (v.definition, v.trail) = site
  nodup : before.nillable.Nodup ∧ before.plain.Nodup → after.nillable.Nodup ∧ after.plain.Nodup

theorem noted_note (before : Demand) (v : Visit) : Noted before (note before v) [v] := by
  rw [note]
  split
  · rename_i none
    exact ⟨by simp [none], by simp [none], by simp [none], id⟩
  · rename_i r asks
    refine ⟨?_, by simp [asks], by simp [asks, or_comm, eq_comm],
      fun h => ⟨nodup_insertNew h.1 _, h.2⟩⟩
    simp [asks, mem_insertNew_iff, eq_comm]
  · rename_i r asks
    refine ⟨by simp [asks], ?_, by simp [asks], fun h => ⟨h.1, nodup_insertNew h.2 _⟩⟩
    simp [asks, mem_insertNew_iff, eq_comm]

theorem noted_foldl (visits : List Visit) (before : Demand) :
    Noted before (visits.foldl note before) visits := by
  induction visits generalizing before with
  | nil => exact ⟨by simp, by simp, by simp, id⟩
  | cons v rest ih =>
    have first := noted_note before v
    have later := ih (note before v)
    refine ⟨fun name => ?_, fun name => ?_, fun site => ?_, later.nodup ∘ first.nodup⟩
    · rw [List.foldl_cons, later.nillable, first.nillable]
      simp [or_assoc]
    · rw [List.foldl_cons, later.plain, first.plain]
      simp [or_assoc]
    · rw [List.foldl_cons, later.sites, first.sites]
      simp [or_assoc]

section
variable (options : Options) (d : Document)

/-- What all sites of the document ask for. -/
def demand : Demand := d.definitions.visits.foldl note {}

/-- The names that are demanded with nil, in order. -/
def nillableNames : List String := spread d.definitions options.maxDepth (demand d).nillable

def plainNames : List String := spread d.definitions options.maxDepth (demand d).plain

def splitNames : List String := (nillableNames options d).filter (plainNames options d).contains

/-- The definitions without the marks of their sites, those of split definitions turned to the
copies that are made next. -/
def turned : Definitions :=
  (d.definitions.change d.flavor (.rekey clear)).change d.flavor
    (.rekey (turn (splitNames options d) (demand d).sites))

theorem walk_collect : (d.walkAfterM collect).run {} =
    (({ d with definitions := d.definitions.change d.flavor (.rekey clear) }, .ok ()),
      demand d) := by
  have walked : (d.definitions.walk d.flavor 0 fun graph => .ofAfter (collect graph)).run {} =
      ((d.definitions.change d.flavor (.rekey clear), .ok ()), demand d) :=
    Definitions.walkFrom_run (collect_runs []) d.flavor [] d.definitions {}
  rw [Document.walkAfterM, StateT.run_bind, walked]
  rfl

theorem bases_collected :
    (d.definitions.change d.flavor (.rekey clear)).bases = d.definitions.bases :=
  Definitions.bases_change (fun _ _ => rfl) d.flavor d.definitions

theorem run_eq : run options d =
    let out := markAll d.flavor options.maxDepth (splitNames options d) (nillableNames options d)
      (turned options d) []
    ({ d with definitions := out.1 }, out.2.map fun created => { created }) := by
  rw [run, walk_collect]
  dsimp only
  rw [spread_of_bases (bases_collected d), Document.changeAfter, repoint_eq]
  rfl

theorem bases_turned : (turned options d).bases = d.definitions.bases := by
  refine (Definitions.bases_change (fun name k => ?_) d.flavor _).trans (bases_collected d)
  -- A base is a member of `allOf`, and those ask for nothing.
  have noSite : (name, Place.trail [.allOf 0]) ∉ (demand d).sites := by
    intro site
    rcases ((noted_foldl d.definitions.visits {}).sites _).mp site with none | noted
    · simp at none
    · obtain ⟨v, _, r, asks, here⟩ := noted
      rw [(Prod.mk.inj here).2] at asks
      cases asks
  rw [turn]
  split
  · rename_i r refers
    have unmet : (demand d).sites.contains (name, Place.trail [.allOf 0]) = false := by
      simpa using noSite
    rw [unmet, Bool.and_false]
    rfl
  · rfl

theorem nodup_demand : (demand d).nillable.Nodup ∧ (demand d).plain.Nodup :=
  (noted_foldl d.definitions.visits {}).nodup (by simp)

theorem nodup_nillableNames : (nillableNames options d).Nodup :=
  nodup_spread options.maxDepth (nodup_demand d).1

end

section
variable {options : Options} {d : Document}

theorem reference_of_request? {trail : List String} {k : Keywords} {r : Reference} {marked : Bool}
    (asks : request? trail k = some (r, marked)) : k.reference = some r := by
  rw [request?] at asks
  split at asks
  · cases asks
  · obtain ⟨other, refers, same⟩ := Option.map_eq_some_iff.mp asks
    rw [refers, (Prod.mk.inj same).1]

theorem mem_keys_of_request? (closed : d.Closed) {v : Visit} (visited : v ∈ d.definitions.visits)
    {r : Reference} {marked : Bool} (asks : request? v.trail v.keywords = some (r, marked)) :
    r.name ∈ d.definitions.keys := by
  obtain ⟨entry, member, visited⟩ := List.mem_flatMap.mp visited
  have each := d.each_of_closed closed entry member
  exact (each v.keywords (Schema.mem_nodes_of_mem_visits visited)).reference r
    (reference_of_request? asks)

theorem mem_keys_of_demand (closed : d.Closed) :
    (∀ name ∈ (demand d).nillable, name ∈ d.definitions.keys) ∧
      ∀ name ∈ (demand d).plain, name ∈ d.definitions.keys := by
  have noted := noted_foldl d.definitions.visits {}
  constructor
  · intro name member
    obtain ⟨v, visited, r, asks, rfl⟩ := ((noted.nillable name).mp member).resolve_left (by simp)
    exact mem_keys_of_request? closed visited asks
  · intro name member
    obtain ⟨v, visited, r, asks, rfl⟩ := ((noted.plain name).mp member).resolve_left (by simp)
    exact mem_keys_of_request? closed visited asks

theorem mem_nillableNames_iff (name : String) :
    name ∈ nillableNames options d ↔ ∃ start ∈ (demand d).nillable,
      Relation.ReflTransGen (Spreads d.definitions options.maxDepth) start name :=
  mem_spread_iff d.definitions options.maxDepth (nodup_demand d).1 name

theorem mem_plainNames_iff (name : String) :
    name ∈ plainNames options d ↔ ∃ start ∈ (demand d).plain,
      Relation.ReflTransGen (Spreads d.definitions options.maxDepth) start name :=
  mem_spread_iff d.definitions options.maxDepth (nodup_demand d).2 name

theorem mem_splitNames_iff (name : String) : name ∈ splitNames options d ↔
    name ∈ nillableNames options d ∧ name ∈ plainNames options d := by
  rw [splitNames, List.mem_filter, List.contains_iff_mem]

theorem splitNames_closed {name other : String}
    (split : name ∈ splitNames options d)
    (spreads : Spreads d.definitions options.maxDepth name other) :
    other ∈ splitNames options d := by
  rw [mem_splitNames_iff, mem_nillableNames_iff, mem_plainNames_iff] at split ⊢
  obtain ⟨⟨start, asked, reached⟩, ⟨start', asked', reached'⟩⟩ := split
  exact ⟨⟨start, asked, reached.tail spreads⟩, ⟨start', asked', reached'.tail spreads⟩⟩

theorem mem_keys_of_nillable (closed : d.Closed) {name : String}
    (nillable : name ∈ nillableNames options d) : name ∈ d.definitions.keys := by
  obtain ⟨start, asked, reached⟩ := (mem_nillableNames_iff name).mp nillable
  induction reached with
  | refl => exact (mem_keys_of_demand closed).1 start asked
  | tail _ step _ => exact mem_keys_of_spreads (d.mem_keys_of_below closed) step

end

end NilSplit
end SchemaGraph
