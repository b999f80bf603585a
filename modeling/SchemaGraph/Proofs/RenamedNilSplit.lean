import Mathlib.Logic.Equiv.Basic
import SchemaGraph.Pipeline
import SchemaGraph.Proofs.NilSites
import SchemaGraph.Proofs.RenamedSquash

/- What the nil split makes of the names of properties. It looks at the place of a reference two
   segments up, where a property called `allOf` passes for the keyword: the reference in the items
   of that property then asks for nothing. -/
namespace SchemaGraph

def Step.rename (f : String → String) : Step → Step
  | property key => property (f key)
  | step => step

theorem Step.renameSegments_segments (f : String → String) (step : Step) :
    Children.renameSegments f step.segments = (step.rename f).segments := by
  cases step <;> simp [segments, rename, Children.renameSegments]

theorem Step.rename_injective {f : String → String} (injective : Function.Injective f) :
    Function.Injective (Step.rename f) := by
  intro a b same
  cases a <;> cases b <;> simp_all [rename, injective.eq_iff]

/-- The place after the renaming. -/
def Place.rename (f : String → String) (place : Place) : Place := place.map (Step.rename f)

theorem Place.rename_injective {f : String → String} (injective : Function.Injective f) :
    Function.Injective (Place.rename f) :=
  List.map_injective_iff.mpr (Step.rename_injective injective)

theorem Children.exists_step_of_placed {α : Type} {c : Children α} {placed : List String × α}
    (listed : placed ∈ c.enteredPlaces) : ∃ step : Step, placed.1 = step.segments := by
  rcases cases_of_placed listed with ⟨e, _, rfl⟩ | ⟨_, here⟩ | ⟨i, here | here | here⟩
  · exact ⟨.property e.1, rfl⟩
  · exact ⟨.items, here⟩
  · exact ⟨.allOf i, here⟩
  · exact ⟨.oneOf i, here⟩
  · exact ⟨.anyOf i, here⟩

/-- Two ways back from a node, before and after the renaming. -/
def Mirrored (f : String → String) (t u : List String) : Prop :=
  ∃ place : Place, t = place.trail ∧ u = (place.rename f).trail

theorem Mirrored.child {f : String → String} {t u : List String} (mirrored : Mirrored f t u)
    {c : Children Schema} {placed : List String × Schema} (listed : placed ∈ c.enteredPlaces) :
    Mirrored f (placed.1.reverse ++ t) ((Children.renameSegments f placed.1).reverse ++ u) := by
  obtain ⟨place, rfl, rfl⟩ := mirrored
  obtain ⟨step, here⟩ := Children.exists_step_of_placed listed
  refine ⟨place ++ [step], ?_, ?_⟩
  · rw [Place.trail_concat, here]
  · have renamed : (place ++ [step]).rename f = place.rename f ++ [step.rename f] := List.map_append
    rw [renamed, Place.trail_concat, here, Step.renameSegments_segments]

theorem Mirrored.eq_iff {f : String → String} (injective : Function.Injective f)
    {t t' u u' : List String} (first : Mirrored f t u) (second : Mirrored f t' u') :
    u = u' ↔ t = t' := by
  obtain ⟨place, rfl, rfl⟩ := first
  obtain ⟨other, rfl, rfl⟩ := second
  rw [Place.trail_injective.eq_iff, Place.trail_injective.eq_iff,
    (Place.rename_injective injective).eq_iff]

theorem Schema.follows_rekey {f : String → String}
    {g h : String → List String → Keywords → Keywords}
    {related : Position → Position → Schema → Prop}
    (same : ∀ {p q s}, related p q s →
      h q.definition q.trail s.keywords = g p.definition p.trail s.keywords)
    (below : ∀ {p q s}, related p q s → ∀ placed ∈ s.children.enteredPlaces,
      related (p.child s.keywords.xml placed.1)
        (q.child s.keywords.xml (Children.renameSegments f placed.1)) placed.2) :
    Follows f (.rekey g) (.rekey h) related where
  before _ := rfl
  below := below
  after := by
    rintro p q s start visit
    have keywords := same start
    obtain ⟨k, c⟩ := s
    rw [renameProperties_mk]
    show (⟨h q.definition q.trail k, ((c.mapEntered visit).map (renameProperties f)).renameKeys f⟩ :
      Schema) = renameProperties f ⟨g p.definition p.trail k, c.mapEntered visit⟩
    rw [renameProperties_mk, keywords]

section
variable (f : String → String)

theorem Schema.base?_renameProperties (s : Schema) : (s.renameProperties f).base? = s.base? := by
  rw [base?, base?, allOf_renameProperties]
  rcases s.children.allOf with _ | _ | ⟨first, rest⟩
  · rfl
  · rfl
  · simp

theorem Schema.withKeywords_renameProperties (k : Keywords) (s : Schema) :
    (⟨k, (s.renameProperties f).children⟩ : Schema) = renameProperties f ⟨k, s.children⟩ := by
  rw [renameProperties_mk, children_renameProperties]

theorem Schema.mapBase_renameProperties (g : Reference → Reference) (s : Schema) :
    (s.renameProperties f).mapBase g = (s.mapBase g).renameProperties f := by
  rw [mapBase, mapBase, allOf_renameProperties]
  rcases s.children.allOf with _ | _ | ⟨first, rest⟩
  · rfl
  · rfl
  · simp only [Option.map_some, List.map_cons]
    rw [← withAllOf_renameProperties, Option.map_some, List.map_cons,
      ← withKeywords_renameProperties]
    simp only [keywords_renameProperties]

theorem Definitions.bases_renameProperties (definitions : Definitions) :
    (definitions.renameProperties f).bases = definitions.bases := by
  rw [bases, bases, renameProperties, Table.mapValues_mapValues,
    funext (Schema.base?_renameProperties f)]

theorem Definitions.put_renameProperties (definitions : Definitions) (name : String) (s : Schema) :
    (definitions.renameProperties f).put name (s.renameProperties f) =
      renameProperties f (definitions.put name s) := by
  induction definitions with
  | nil => rfl
  | cons entry rest ih =>
    obtain ⟨key, value⟩ := entry
    rw [renameProperties, Table.mapValues] at ih
    rw [renameProperties, Table.mapValues, List.map_cons, Table.put, Table.put, ih]
    split <;> rfl

end

namespace NilSplit

/-- The items of the node are a reference. -/
def hasReferenceItems (s : Schema) : Bool := s.children.items.any (·.keywords.reference.isSome)

/-- The two ways back lead from the same node, which asks for the same on both, as far as it and its
items ask for anything. -/
structure Corresponds (f : String → String) (t u : List String) (s : Schema) : Prop where
  mirrored : Mirrored f t u
  request : request? u s.keywords = request? t s.keywords
  items : hasReferenceItems s → (u.head? = some "allOf" ↔ t.head? = some "allOf")
  indifferent : s.Indifferent f "allOf" hasReferenceItems

theorem Corresponds.child {f : String → String} {t u : List String} {s : Schema}
    (h : Corresponds f t u s) (placed : List String × Schema)
    (listed : placed ∈ s.children.enteredPlaces) :
    Corresponds f (placed.1.reverse ++ t) ((Children.renameSegments f placed.1).reverse ++ u)
      placed.2 := by
  have indifferent := h.indifferent.below listed
  have mirrored := h.mirrored.child listed
  rcases Children.cases_of_placed listed with ⟨e, inTable, rfl⟩ | ⟨found, here⟩ |
    ⟨i, here | here | here⟩
  -- A property has `properties` two segments up, whatever its name is.
  · refine ⟨mirrored, ?_, fun shown => ?_, indifferent⟩
    · simp [request?, Children.renameSegments]
    · simpa [Children.renameSegments] using h.indifferent.own e inTable shown
  -- Items have the last segment of the node itself there, which may be a name.
  · rw [here] at mirrored ⊢
    refine ⟨mirrored, ?_, fun _ => by simp [Children.renameSegments], indifferent⟩
    cases refers : placed.2.keywords.reference with
    | none => simp [request?, refers]
    | some r =>
      have asked := h.items (by simp [hasReferenceItems, found, refers])
      simp [request?, Children.renameSegments, asked]
  all_goals
    rw [here] at mirrored ⊢
    refine ⟨mirrored, ?_, fun _ => ?_, indifferent⟩ <;>
      simp [request?, Children.renameSegments, Place.index_ne_allOf]

/-- Two visits of the same node that note the same, each under its own way back. -/
structure Matches (f : String → String) (v w : Visit) : Prop where
  definition : w.definition = v.definition
  keywords : w.keywords = v.keywords
  mirrored : Mirrored f v.trail w.trail
  request : request? w.trail w.keywords = request? v.trail v.keywords

theorem forall₂_flatMap {α β γ : Type} {R : β → γ → Prop} {l : List α} {g : α → List β}
    {h : α → List γ} (each : ∀ a ∈ l, List.Forall₂ R (g a) (h a)) :
    List.Forall₂ R (l.flatMap g) (l.flatMap h) := by
  have same : List.Forall₂ (fun a b => List.Forall₂ R (g a) (h b)) l l := List.forall₂_same.mpr each
  exact List.rel_flatMap same fun _ _ related => related

theorem matches_visits {f : String → String} (definition : String) (levels : Nat)
    {t u : List String} {s : Schema} (start : Corresponds f t u s) :
    List.Forall₂ (Matches f) (s.visits definition levels t)
      ((s.renameProperties f).visits definition levels u) := by
  induction levels generalizing t u s with
  | zero => exact .nil
  | succ levels ih =>
    -- The same children in the same order, and the node itself after them.
    rw [Schema.visits, Schema.visits, Schema.children_renameProperties,
      Children.enteredPlaces_renameKeys, List.flatMap_map]
    refine List.rel_append (forall₂_flatMap fun placed listed => ih (start.child placed listed)) ?_
    refine .cons ⟨rfl, Schema.keywords_renameProperties f s, start.mirrored, ?_⟩ .nil
    rw [Schema.keywords_renameProperties]
    exact start.request

theorem corresponds_root {f : String → String} {s : Schema}
    (indifferent : s.Indifferent f "allOf" hasReferenceItems) : Corresponds f [] [] s :=
  ⟨⟨[], rfl, rfl⟩, rfl, fun _ => Iff.rfl, indifferent⟩

/-- Demands for the same, each with its own sites. -/
structure SameDemand (f : String → String) (d e : Demand) : Prop where
  nillable : e.nillable = d.nillable
  plain : e.plain = d.plain
  sites : List.Forall₂ (fun a b : Site => b.1 = a.1 ∧ Mirrored f a.2 b.2) d.sites e.sites

theorem SameDemand.note {f : String → String} {d e : Demand} (h : SameDemand f d e) {v w : Visit}
    (matched : Matches f v w) : SameDemand f (note d v) (note e w) := by
  rw [NilSplit.note, NilSplit.note, matched.request]
  rcases request? v.trail v.keywords with _ | ⟨r, _ | _⟩
  · exact h
  · exact { h with plain := congrArg (insertNew · r.name) h.plain }
  · exact { h with
      nillable := congrArg (insertNew · r.name) h.nillable
      sites := .cons ⟨matched.definition, matched.mirrored⟩ h.sites }

theorem SameDemand.contains_iff {f : String → String} (injective : Function.Injective f)
    {d e : Demand} (h : SameDemand f d e) (definition : String) {t u : List String}
    (mirrored : Mirrored f t u) :
    e.sites.contains (definition, u) = d.sites.contains (definition, t) := by
  have sites := h.sites
  generalize d.sites = before at sites ⊢
  generalize e.sites = after at sites ⊢
  induction sites with
  | nil => rfl
  | @cons a b _ _ first _ ih =>
    have same : ((definition, u) == b) = ((definition, t) == a) := by
      rw [Bool.eq_iff_iff, beq_iff_eq, beq_iff_eq, Prod.ext_iff, Prod.ext_iff, first.1]
      exact and_congr_right fun _ => mirrored.eq_iff injective first.2
    rw [List.contains_cons, List.contains_cons, same, ih]

section
variable {f : String → String} {d : Document}

theorem sameDemand (indifferent : d.Indifferent f "allOf" hasReferenceItems) :
    SameDemand f (demand d) (demand (d.renameProperties f)) := by
  refine List.rel_foldl (fun _ _ same _ _ matched => same.note matched) ⟨rfl, rfl, .nil⟩ ?_
  have visits : (d.renameProperties f).definitions.visits = d.definitions.flatMap fun e =>
      (e.2.renameProperties f).visits e.1 e.2.levels [] := by
    rw [Definitions.visits, Document.renameProperties, Definitions.renameProperties,
      Table.mapValues, List.flatMap_map]
    simp only [Schema.levels_renameProperties]
  rw [visits]
  exact forall₂_flatMap fun e listed =>
    matches_visits e.1 e.2.levels (corresponds_root (indifferent e listed))

variable (options : Options)

theorem nillableNames_renameProperties (indifferent : d.Indifferent f "allOf" hasReferenceItems) :
    nillableNames options (d.renameProperties f) = nillableNames options d := by
  rw [nillableNames, nillableNames, (sameDemand indifferent).nillable, Document.renameProperties,
    spread_of_bases (Definitions.bases_renameProperties f d.definitions)]

theorem splitNames_renameProperties (indifferent : d.Indifferent f "allOf" hasReferenceItems) :
    splitNames options (d.renameProperties f) = splitNames options d := by
  have plain : plainNames options (d.renameProperties f) = plainNames options d := by
    rw [plainNames, plainNames, (sameDemand indifferent).plain, Document.renameProperties,
      spread_of_bases (Definitions.bases_renameProperties f d.definitions)]
  rw [splitNames, splitNames, nillableNames_renameProperties options indifferent, plain]

theorem turned_renameProperties (injective : Function.Injective f)
    (indifferent : d.Indifferent f "allOf" hasReferenceItems) :
    turned options (d.renameProperties f) = (turned options d).renameProperties f := by
  have cleared : Schema.Follows f (.rekey clear) (.rekey clear) fun p q s =>
      Corresponds f p.trail q.trail s := by
    refine Schema.follows_rekey (fun {p q s} start => ?_) fun start => start.child
    rw [clear, clear, start.request]
  have turning : Schema.Follows f
      (.rekey (turn (splitNames options d) (demand d).sites))
      (.rekey (turn (splitNames options d) (demand (d.renameProperties f)).sites))
      fun p q _ => q.definition = p.definition ∧ Mirrored f p.trail q.trail := by
    refine Schema.follows_rekey (fun {p q s} start => ?_)
      fun start _ listed => ⟨start.1, start.2.child listed⟩
    rw [turn, turn, start.1, (sameDemand indifferent).contains_iff injective p.definition start.2]
  rw [turned, turned, splitNames_renameProperties options indifferent]
  have first := cleared.change d.flavor d.definitions
    fun e listed => corresponds_root (indifferent e listed)
  have second := turning.change d.flavor (d.definitions.change d.flavor (.rekey clear))
    fun _ _ => ⟨rfl, [], rfl, rfl⟩
  rw [← second, ← first]
  rfl

theorem nillableCopy_renameProperties (name : String) (hasAncestors : Bool) (s : Schema) :
    nillableCopy name hasAncestors (s.renameProperties f) =
      (nillableCopy name hasAncestors s).renameProperties f := by
  have content : ((s.renameProperties f).children.allOf.any fun members => 1 < members.length) =
      s.children.allOf.any fun members => 1 < members.length := by
    rw [Schema.allOf_renameProperties]
    cases s.children.allOf <;> simp
  have based (g : Reference → Reference) (b : Bool) :
      (if b then (s.renameProperties f).mapBase g else s.renameProperties f) =
        (if b then s.mapBase g else s).renameProperties f := by
    cases b
    · rfl
    · exact s.mapBase_renameProperties f g
  rw [nillableCopy, nillableCopy, content, based]
  dsimp only
  rw [← Schema.withKeywords_renameProperties, Schema.keywords_renameProperties]

theorem markAll_renameProperties (flavor : Flavor) (maxDepth : Nat) (split names : List String)
    (definitions : Definitions) (created : List String) :
    markAll flavor maxDepth split names (definitions.renameProperties f) created =
      ((markAll flavor maxDepth split names definitions created).1.renameProperties f,
        (markAll flavor maxDepth split names definitions created).2) := by
  induction names generalizing definitions created with
  | nil => rfl
  | cons name rest ih =>
    have marked (nullable : Option Bool) (s : Schema) :
        mark nullable (s.renameProperties f) = (mark nullable s).renameProperties f := by
      rw [mark, mark, ← Schema.withKeywords_renameProperties, Schema.keywords_renameProperties]
    rw [markAll, markAll, Definitions.renameProperties, Table.get?_mapValues,
      ← Definitions.renameProperties,
      Definitions.ancestors_of_bases (Definitions.bases_renameProperties f definitions)]
    cases definitions.get? name with
    | none => rfl
    | some s =>
      simp only [Option.map_some, marked, nillableCopy_renameProperties,
        Schema.keywords_renameProperties, Definitions.put_renameProperties]
      split
      · exact ih _ _
      · rw [← ih, ← Definitions.put_renameProperties, ← Definitions.put_renameProperties,
          apply_ite (Schema.renameProperties f)]

theorem run_renameProperties (injective : Function.Injective f)
    (indifferent : d.Indifferent f "allOf" hasReferenceItems) :
    run options (d.renameProperties f) =
      ((run options d).1.renameProperties f, (run options d).2) := by
  rw [run_eq, run_eq, splitNames_renameProperties options indifferent,
    nillableNames_renameProperties options indifferent,
    turned_renameProperties options injective indifferent]
  dsimp only
  rw [markAll_renameProperties]
  rfl

end

end NilSplit

namespace Pass

/-- The pass and the renaming change places, with the same report. -/
def Commutes (f : String → String) (dictionary : Dictionary) (options : Options) (d : Document)
    (pass : Pass) : Prop :=
  pass.run dictionary options (d.renameProperties f) =
    ((pass.run dictionary options d).1.renameProperties f, (pass.run dictionary options d).2)

/-- Names of properties are data to the XML annotations. To the other two passes they are data
unless the renaming gives or takes the name of a keyword: squashing knows the items of an array by
the name, which matters for properties with an `allOf`, and the nil split knows the members of an
`allOf` by it, which matters for properties whose items are references. -/
theorem commutes_with_renaming {f : String → String} (injective : Function.Injective f)
    (dictionary : Dictionary) (options : Options) (d : Document) :
    Commutes f dictionary options d placeXmlHints ∧
    (d.Indifferent f "items" Squash.hasAllOf → Commutes f dictionary options d squash) ∧
    (d.Indifferent f "allOf" NilSplit.hasReferenceItems →
      Commutes f dictionary options d splitNillable) :=
  ⟨XmlHints.run_renameProperties f options.pureXml d,
    Squash.run_renameProperties f injective,
    NilSplit.run_renameProperties options injective⟩

/-- A definition with one property, so called. -/
def holding (key : String) (value : Schema) (others : Definitions) : Document where
  raw := [("definitions", .null)]
  flavor := .definitions
  hasSlot := true
  definitions :=
    ("Holder", { keywords.type := some "object", children.properties := some [(key, value)] }) ::
      others

/-- A text that is the single member of an `allOf`. -/
def wrappedText : Schema where
  children.allOf := some [{ keywords.type := some "string" }]

/-- An array of `Leaf` or nil. -/
def nillableLeaves : Schema where
  keywords.type := some "array"
  children.items := some {
    keywords.reference := some (.toDefinition "Leaf" .definitions)
    keywords.xNullable := some true }

def leaf : Definitions := [("Leaf", { keywords.type := some "object" })]

theorem commutes_with_renaming_wrappedText :
    Function.Injective (· ++ "_") ∧
    (holding "value" wrappedText []).Indifferent (· ++ "_") "items" Squash.hasAllOf ∧
    Commutes (· ++ "_") {} {} (holding "value" wrappedText []) squash ∧
    (holding "value" nillableLeaves leaf).Indifferent (· ++ "_") "allOf"
      NilSplit.hasReferenceItems ∧
    Commutes (· ++ "_") {} {} (holding "value" nillableLeaves leaf) splitNillable := by
  have injective : Function.Injective (· ++ "_") := fun _ _ => (String.append_left_inj _).mp
  have wrapped : (holding "value" wrappedText []).Indifferent (· ++ "_") "items"
    Squash.hasAllOf := by decide
  have leaves : (holding "value" nillableLeaves leaf).Indifferent (· ++ "_") "allOf"
    NilSplit.hasReferenceItems := by decide
  exact ⟨injective, wrapped, (commutes_with_renaming injective {} {} _).2.1 wrapped, leaves,
    (commutes_with_renaming injective {} {} _).2.2 leaves⟩

/-- What is said at the place after the pass. -/
def outcomeAt (place : Place) (outcome : Outcome) : Option Keywords :=
  outcome.1.definitions.at? "Holder" place

/-- A property that gets the name of a keyword is taken for it. -/
theorem renaming_to_keyword_matters :
    Function.Injective (Equiv.swap "value" "items") ∧
    ¬ Commutes (Equiv.swap "value" "items") {} {} (holding "value" wrappedText []) squash ∧
    Function.Injective (Equiv.swap "value" "allOf") ∧
    ¬ Commutes (Equiv.swap "value" "allOf") {} {} (holding "value" nillableLeaves leaf)
      splitNillable := by
  refine ⟨Equiv.injective _, fun commutes => ?_, Equiv.injective _, fun commutes => ?_⟩
  · have types := congrArg (fun o => (outcomeAt [.property "items"] o).map (·.type)) commutes
    exact absurd types (by decide)
  · have marks := congrArg (fun o => (outcomeAt [.property "allOf", .items] o).map (·.xNullable))
      commutes
    exact absurd marks (by decide)

end Pass
end SchemaGraph
