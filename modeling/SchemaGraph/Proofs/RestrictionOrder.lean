import Mathlib.Logic.Relation
import SchemaGraph.Proofs.InheritedAttributes
import SchemaGraph.Proofs.Squashing

/- Restrictions and the order of the definitions. What a restriction inherits is read off its bases as
   the walk has left them or as they came in, so the order matters where a base is a restriction
   itself. Where the order of such two is kept, every definition becomes the same. -/
namespace SchemaGraph.Restriction

/-- The one definition has the other as its base. -/
def Leads (definitions : Definitions) (name other : String) : Prop :=
  ∃ base, definitions.get? name = some base ∧ ∃ r, nextBase? base = some r ∧ r.name = other

/-- A restriction in the one definition reads the other one, on the chain of its bases. -/
def Reads (definitions : Definitions) (name other : String) : Prop :=
  ∃ root, (name, root) ∈ definitions ∧ ∃ node ∈ root.met [], ∃ r content rest,
    Restricts node.2 r content rest ∧ Relation.ReflTransGen (Leads definitions) r.name other

/-- A walk changes what others inherit from the definition: it is a restriction, or there is a mark in
an attribute that it declares. -/
def Shifts (definitions : Definitions) (name : String) : Prop :=
  ∃ root, (name, root) ∈ definitions ∧ ((∃ r content rest, Restricts root r content rest) ∨
    ∃ e ∈ attributesOf (declared root), ¬ Plain e.2)

/-- What a base tells to the restrictions that read it. -/
def tell (base : Schema) : Table Schema × Option Reference :=
  (attributesOf (declared base), nextBase? base)

section
variable {one other : Definitions}

theorem collectBase_of_tell {b b' : Schema} (same : tell b' = tell b)
    (restricted found : Table Schema) :
    collectBase restricted found b' = collectBase restricted found b := by
  rw [collectBase_eq, collectBase_eq, filter_isWanted, filter_isWanted,
    show attributesOf (declared b') = attributesOf (declared b) from (Prod.mk.inj same).1]

/-- Where all definitions on the chain tell the same, so does the chain. -/
theorem lookAlike_of_tell {r : Reference}
    (same : ∀ target, Relation.ReflTransGen (Leads one) r.name target →
      (one.get? target).map tell = (other.get? target).map tell) : LookAlike one other r := by
  intro restricted depth found
  induction depth generalizing r found with
  | zero => rfl
  | succ depth ih =>
    have here := same r.name .refl
    rw [attributes?, attributes?]
    cases base : one.get? r.name with
    | none =>
      rw [base, Option.map_none, eq_comm, Option.map_eq_none_iff] at here
      rw [here]
    | some b =>
      rw [base, Option.map_some, eq_comm] at here
      obtain ⟨b', there, alike⟩ := Option.map_eq_some_iff.mp here
      have next : nextBase? b' = nextBase? b := (Prod.mk.inj alike).2
      rw [there]
      dsimp only
      rw [collectBase_of_tell alike, next]
      cases further : nextBase? b with
      | none => rfl
      | some after => exact ih (fun target path =>
          same target (.head ⟨b, base, after, further, rfl⟩ path)) _

end

/-- The same definitions in another order, in which every restriction stands on the same side of the
restrictions that it reads. -/
structure Reordered (one other : Definitions) : Prop where
  distinct : one.Distinct
  perm : List.Perm other one
  kept : ∀ name target, Reads one name target → Shifts one target →
    (one.Precedes target name ↔ other.Precedes target name)

section
variable {maxDepth : Nat} {flavor : Flavor} {one other : Definitions} {final : String → Schema}
  {noted : String → Nat}

/-- What the walk has left of a definition that shifts nothing tells the same. -/
theorem tell_final (become : AllBecome (after maxDepth) 0 flavor final noted [] one)
    {name : String} {root : Schema} (listed : (name, root) ∈ one) (still : ¬ Shifts one name) :
    tell (final name) = tell root := by
  obtain ⟨before, next, split⟩ := List.append_of_mem listed
  have resolved := resolved_of_visitRoot (become before name root next split)
  have idle : ∀ r content rest, ¬ Restricts root r content rest := fun r content rest restricts =>
    still ⟨root, listed, Or.inl ⟨r, content, rest, restricts⟩⟩
  have plain : ∀ e ∈ attributesOf (declared root), Plain e.2 := fun e inside => by
    by_contra marked
    exact still ⟨root, listed, Or.inr ⟨e, inside, marked⟩⟩
  rw [tell, tell, resolved.declares idle plain, nextBase?_congr (resolved.members idle)]

theorem leads_of_leads (become : AllBecome (after maxDepth) 0 flavor final noted [] one)
    (distinct : one.Distinct) {earlier later : Definitions} (split : one = earlier ++ later)
    {name target : String} (leads : Leads (finishedAs final earlier ++ later) name target) :
    Leads one name target := by
  obtain ⟨base, found, r, next, there⟩ := leads
  rw [get?_finishedAs_append split] at found
  split at found
  · rename_i member
    obtain ⟨root, inside⟩ := (Table.mem_keys_iff earlier name).mp member
    have listed : (name, root) ∈ one := split ▸ List.mem_append_left _ inside
    obtain ⟨before, next', parts⟩ := List.append_of_mem listed
    have resolved := resolved_of_visitRoot (become before name root next' parts)
    cases found
    exact ⟨root, Table.get?_of_mem distinct listed, r, resolved.next r next, there⟩
  · exact ⟨base, found, r, next, there⟩

/-- In the other order every definition becomes the same. -/
theorem Reordered.become (reordered : Reordered one other)
    (become : AllBecome (after maxDepth) 0 flavor final noted [] one) :
    AllBecome (after maxDepth) 0 flavor final noted [] other := by
  refine become.of_perm reordered.perm
    fun name root before next earlier later splitOne splitOther => ?_
  have listed : (name, root) ∈ one := splitOne ▸ List.mem_append_right _ List.mem_cons_self
  symm
  refine visitRoot_congr fun node met r content rest restricts => lookAlike_of_tell ?_
  intro target path
  have path : Relation.ReflTransGen (Leads one) r.name target :=
    path.lift id fun _ _ => leads_of_leads become reordered.distinct splitOne
  have reads : Reads one name target := ⟨root, listed, node, met, r, content, rest, restricts, path⟩
  rw [get?_finishedAs_append splitOne, get?_finishedAs_append splitOther,
    Table.get?_of_perm reordered.perm reordered.distinct]
  by_cases shifts : Shifts one target
  · -- The target is seen as it becomes exactly when it comes first, and that is kept.
    have first := Definitions.precedes_iff splitOne reordered.distinct target
    have second := Definitions.precedes_iff splitOther
      ((reordered.perm.map Prod.fst).nodup_iff.mpr reordered.distinct) target
    have kept := reordered.kept name target reads shifts
    rw [if_congr ((first.symm.trans kept).trans second) rfl rfl]
  · have still (moment : Definitions) (known : target ∈ moment.keys → target ∈ one.keys) :
        (if target ∈ moment.keys then some (final target) else one.get? target).map tell =
          (one.get? target).map tell := by
      split
      · rename_i member
        obtain ⟨its, inside⟩ := (Table.mem_keys_iff one target).mp (known member)
        rw [Table.get?_of_mem reordered.distinct inside, Option.map_some, Option.map_some,
          tell_final become inside shifts]
      · rfl
    have listedOne : target ∈ before.keys → target ∈ one.keys := fun member => by
      rw [splitOne, Table.keys_append]
      exact List.mem_append_left _ member
    have listedOther : target ∈ earlier.keys → target ∈ one.keys := fun member => by
      refine (reordered.perm.map Prod.fst).mem_iff.mp ?_
      rw [splitOther]
      exact List.map_append ▸ List.mem_append_left _ member
    rw [still before listedOne, still earlier listedOther]

end

theorem Leads.of_perm {one other : Definitions} (perm : List.Perm other one)
    (distinct : one.Distinct) {name target : String} (leads : Leads other name target) :
    Leads one name target := by
  rwa [Leads, Table.get?_of_perm perm distinct] at leads

theorem Reads.of_perm {one other : Definitions} (perm : List.Perm other one)
    (distinct : one.Distinct) {name target : String} (reads : Reads other name target) :
    Reads one name target := by
  obtain ⟨root, listed, node, met, r, content, rest, restricts, path⟩ := reads
  exact ⟨root, perm.mem_iff.mp listed, node, met, r, content, rest, restricts,
    path.lift id fun _ _ => Leads.of_perm perm distinct⟩

theorem Shifts.of_perm {one other : Definitions} (perm : List.Perm other one) {name : String}
    (shifts : Shifts other name) : Shifts one name := by
  obtain ⟨root, listed, change⟩ := shifts
  exact ⟨root, perm.mem_iff.mp listed, change⟩

theorem Reordered.symm {one other : Definitions} (reordered : Reordered one other) :
    Reordered other one where
  distinct := (reordered.perm.map Prod.fst).nodup_iff.mpr reordered.distinct
  perm := reordered.perm.symm
  kept name target reads shifts := (reordered.kept name target
    (reads.of_perm reordered.perm reordered.distinct) (shifts.of_perm reordered.perm)).symm

section
variable {options : Options} {d left : Document} {found : Nat}

theorem run_of_walk
    (ran : (d.walkAfterM (after options.maxDepth)).run 0 = ((left, .ok ()), found)) :
    run options d = if found = 0 then left.unreported else Squash.run left := by
  rw [run, ran]

theorem run_of_walk_error {e : Error}
    (ran : (d.walkAfterM (after options.maxDepth)).run 0 = ((left, .error e), found)) :
    run options d = (left, .error e) := by
  rw [run, ran]

theorem Reordered.run_eq {order : Definitions} (reordered : Reordered d.definitions order)
    (ran : (d.walkAfterM (after options.maxDepth)).run 0 = ((left, .ok ()), found)) :
    (run options d).2 = .ok {} ∧ (run options { d with definitions := order }).2 = .ok {} ∧
      ∀ name, (run options d).1.definitions.get? name =
        (run options { d with definitions := order }).1.definitions.get? name := by
  obtain ⟨final, noted, become, rfl, rfl⟩ :=
    Steady.walkAfterM (steady options.maxDepth d.flavor) reordered.distinct ran
  have again := AllBecome.walkAfterM (d := { d with definitions := order })
    (reordered.become become) (steady options.maxDepth d.flavor) 0
  have finals : List.Perm (finishedAs final order) (finishedAs final d.definitions) :=
    reordered.perm.map _
  have distinct : (finishedAs final d.definitions).Distinct := by
    rw [Table.Distinct, keys_finishedAs]
    exact reordered.distinct
  have same (name : String) : Table.get? (finishedAs final d.definitions) name =
      Table.get? (finishedAs final order) name := (Table.get?_of_perm finals distinct name).symm
  have commutes : RightCommutative fun (notes : Nat) (e : String × Schema) => notes + noted e.1 :=
    ⟨fun notes _ _ => Nat.add_right_comm notes _ _⟩
  have count := reordered.perm.foldl_eq (f := fun notes e => notes + noted e.1) 0
  rw [run_of_walk ran, run_of_walk again]
  dsimp only
  rw [count]
  split
  · exact ⟨rfl, rfl, same⟩
  · refine ⟨rfl, rfl, fun name => ?_⟩
    have changed (definitions : Definitions) :
        (Squash.run { d with definitions }).1.definitions =
          definitions.change d.flavor Squash.squasher := rfl
    rw [changed, changed, Definitions.get?_change, Definitions.get?_change, same]

end

/-- The content takes the property away. -/
def Prohibits (content : Schema) (key : String) : Prop :=
  key ∈ Table.keys (content.children.properties.getD []) ∧
    ∀ e ∈ content.children.properties.getD [], e.1 = key → isKept e.2 = false

theorem not_mem_of_prohibits {content content' : Schema} (same : face content' = face content)
    {key : String} (prohibits : Prohibits content key) (s : Schema) :
    (key, s) ∉ inlineProperties (restrictContent content') := by
  intro listed
  rw [inlineProperties] at listed
  split at listed
  · rw [restrictContent_properties] at listed
    obtain ⟨inside, kept⟩ := List.mem_filter.mp listed
    have said : (key, withoutMark s.keywords) ∈ saying (content'.children.properties.getD []) :=
      List.mem_map.mpr ⟨_, inside, rfl⟩
    rw [saying_properties same] at said
    obtain ⟨⟨key', its⟩, there, alike⟩ := List.mem_map.mp said
    have taken : isKept its = isKept s :=
      congrArg (fun e : String × Keywords => saysKept e.2) alike
    rw [prohibits.2 _ there (congrArg Prod.fst alike), kept] at taken
    cases taken
  · cases listed

/-- What a resolved restriction declares is not what its content takes away. -/
theorem Resolved.not_declares {graph : Definitions} {maxDepth : Nat} {s s' content : Schema}
    {r : Reference} (resolved : Resolved graph maxDepth s s') (restricts : Restricts s r content [])
    {key : String} (prohibits : Prohibits content key)
    (own : ∀ e ∈ s.children.properties.getD [], e.1 = key → e.2.isAttribute = false) :
    ¬ DeclaresAttribute s' key := by
  obtain ⟨content', rest', attributes, collected, members, sameContent, noRest⟩ :=
    resolved.resolves r content [] restricts
  rw [List.map_nil, List.map_eq_nil_iff] at noRest
  subst noRest
  rintro ⟨p, listed, marked⟩
  rw [declared, members, Option.getD_some, List.flatMap_cons, List.flatMap_singleton,
    List.mem_append, List.mem_append] at listed
  rcases listed with itself | taken | kept
  · obtain ⟨k, said, attr⟩ := (exists_attribute_iff _ key).mp ⟨p, itself, marked⟩
    rw [saying_properties resolved.sees] at said
    obtain ⟨q, inside, itsMark⟩ := (exists_attribute_iff _ key).mpr ⟨k, said, attr⟩
    rw [own _ inside rfl] at itsMark
    cases itsMark
  · -- What is inherited is not declared by the content, whether it takes it away or not.
    obtain ⟨_, _, inherits⟩ := inherits_of_collected collected
    have known : key ∈ attributes.keys := List.mem_map.mpr ⟨_, taken, rfl⟩
    refine ((inherits.names key).mp known).1 ?_
    rw [← keys_saying, saying_properties sameContent, keys_saying]
    exact prohibits.1
  · exact not_mem_of_prohibits sameContent prohibits p kept

/-- The chain of bases ends with a resolved restriction. -/
theorem Resolved.nextBase?_eq_none {graph : Definitions} {maxDepth : Nat} {s s' content : Schema}
    {r : Reference} (resolved : Resolved graph maxDepth s s') (restricts : Restricts s r content [])
    (inline : content.keywords.reference = none) : nextBase? s' = none := by
  obtain ⟨content', rest', attributes, _, members, sameContent, noRest⟩ :=
    resolved.resolves r content [] restricts
  rw [List.map_nil, List.map_eq_nil_iff] at noRest
  have inline' : (restrictContent content').keywords.reference = none :=
    (reference_of_face sameContent).trans inline
  rw [nextBase?_eq, members, noRest, Option.getD_some, List.map_cons, List.map_singleton, inline']
  rfl

/-- What a restriction takes away is not inherited by a restriction of it that the walk comes to
later. -/
theorem not_inherited_of_prohibited {maxDepth found : Nat} {d left : Document}
    (distinct : d.definitions.Distinct)
    (ran : (d.walkAfterM (after maxDepth)).run 0 = ((left, .ok ()), found))
    {one other : String} {s t content content₂ : Schema} {r r₂ : Reference} {rest₂ : List Schema}
    (standsOne : d.definitions.get? one = some s) (standsOther : d.definitions.get? other = some t)
    (first : d.definitions.Precedes one other) (restricts : Restricts s r content [])
    (inline : content.keywords.reference = none) {key : String} (prohibits : Prohibits content key)
    (own : ∀ e ∈ s.children.properties.getD [], e.1 = key → e.2.isAttribute = false)
    (again : Restricts t r₂ content₂ rest₂) (onto : r₂.name = one) :
    ∃ t' content' rest' attributes, left.definitions.get? other = some t' ∧
      t'.children.allOf =
        some (inherited content' attributes :: restrictContent content' :: rest') ∧
      key ∉ attributes.keys := by
  obtain ⟨final, noted, become, rfl, _⟩ :=
    Steady.walkAfterM (steady maxDepth d.flavor) distinct ran
  have resolved {name : String} {root : Schema} (stands : d.definitions.get? name = some root) :
      ∃ earlier later, d.definitions = earlier ++ (name, root) :: later ∧
        Resolved (finishedAs final earlier ++ (name, root) :: later) maxDepth root (final name) := by
    obtain ⟨earlier, later, split⟩ := List.append_of_mem (Table.mem_of_get? stands)
    exact ⟨earlier, later, split, resolved_of_visitRoot (become earlier name root later split)⟩
  obtain ⟨_, _, _, became⟩ := resolved standsOne
  obtain ⟨earlier, later, split, becomes⟩ := resolved standsOther
  obtain ⟨content', rest', attributes, collected, members, _⟩ :=
    becomes.resolves r₂ content₂ rest₂ again
  have known : other ∈ d.definitions.keys := (Table.exists_get?_iff _ _).mp ⟨t, standsOther⟩
  have left : Table.get? (finishedAs final d.definitions) other = some (final other) := by
    rw [get?_finishedAs, if_pos known]
  refine ⟨final other, content', rest', attributes, left, members, fun listed => ?_⟩
  obtain ⟨links, chain, inherits⟩ := inherits_of_collected collected
  have found : Table.get? (finishedAs final earlier ++ (other, t) :: later) r₂.name =
      some (final one) := by
    rw [onto, get?_finishedAs_append split,
      if_pos ((Definitions.precedes_iff split distinct one).mp first)]
  have ends := became.nextBase?_eq_none restricts inline
  -- The chain has no base but the one restriction.
  cases chain with
  | missing absent => cases found.symm.trans absent
  | last _ _ =>
    obtain ⟨_, base, listed, declares⟩ := (inherits.names key).mp listed
    rw [bases, List.filterMap_cons, found, List.filterMap_nil, List.mem_singleton] at listed
    exact became.not_declares restricts prohibits own (listed ▸ declares)
  | next here further _ =>
    cases found.symm.trans here
    cases ends.symm.trans further

/-- Definitions in another order become the same, or both runs fail, when every definition keeps its
side of the restrictions that it reads. And what a restriction takes away does not come back in a
restriction of it that stands after it. -/
theorem restrictions_of_reordered (options : Options) (d : Document)
    (distinct : d.definitions.Distinct) :
    (∀ order : Definitions, order.Perm d.definitions →
      (∀ name target, Reads d.definitions name target → Shifts d.definitions target →
        (d.definitions.Precedes target name ↔ order.Precedes target name)) →
      ((∃ e, (run options d).2 = .error e) ∧
          ∃ e, (run options { d with definitions := order }).2 = .error e) ∨
        ((run options d).2 = .ok {} ∧ (run options { d with definitions := order }).2 = .ok {} ∧
          ∀ name, (run options d).1.definitions.get? name =
            (run options { d with definitions := order }).1.definitions.get? name)) ∧
    ∀ (left : Document) (found : Nat),
      (d.walkAfterM (after options.maxDepth)).run 0 = ((left, .ok ()), found) →
      ∀ (one other : String) (s t content content₂ : Schema) (rest₂ : List Schema)
        (r r₂ : Reference) (key : String),
      d.definitions.get? one = some s → d.definitions.get? other = some t →
      d.definitions.Precedes one other → Restricts s r content [] →
      content.keywords.reference = none → Prohibits content key →
      (∀ e ∈ s.children.properties.getD [], e.1 = key → e.2.isAttribute = false) →
      Restricts t r₂ content₂ rest₂ → r₂.name = one →
      ∃ t' content' rest' attributes, left.definitions.get? other = some t' ∧
        t'.children.allOf =
          some (inherited content' attributes :: restrictContent content' :: rest') ∧
        key ∉ attributes.keys := by
  constructor
  · intro order perm kept
    have reordered : Reordered d.definitions order := ⟨distinct, perm, kept⟩
    cases ran : (d.walkAfterM (after options.maxDepth)).run 0 with
    | mk outcome found =>
      obtain ⟨left, e | _⟩ := outcome
      · refine Or.inl ⟨⟨e, by rw [run_of_walk_error ran]⟩, ?_⟩
        cases again : (({ d with definitions := order } : Document).walkAfterM
            (after options.maxDepth)).run 0 with
        | mk outcome found =>
          obtain ⟨left, e | _⟩ := outcome
          · exact ⟨e, by rw [run_of_walk_error again]⟩
          · -- What goes through in the one order goes through in the other.
            have there := (Reordered.run_eq (d := { d with definitions := order })
              reordered.symm again).2.1
            rw [run_of_walk_error ran] at there
            cases there
      · exact Or.inr (reordered.run_eq ran)
  · intro left found ran one other s t content content₂ rest₂ r r₂ key standsOne standsOther first
      restricts inline prohibits own again onto
    exact not_inherited_of_prohibited distinct ran standsOne standsOther first restricts inline
      prohibits own again onto

/-- A restriction takes the code of a shape away, and another one restricts that one. -/
def shapes : Document where
  raw := [("definitions", .null)]
  flavor := .definitions
  hasSlot := true
  definitions :=
    let gone : Keywords := { (tag "string").keywords with extra := [(prohibited, .bool true)] }
    [("Shape", { children := { properties := some [("code", tag "string")] } }),
      ("Blank", restriction (.toDefinition "Shape" .definitions)
        { children := { properties := some [("code", { keywords := gone })] } }),
      ("Dot", restriction (.toDefinition "Blank" .definitions) {})]

theorem base?_of_restricts {s content : Schema} {r : Reference} {rest : List Schema}
    (restricts : Restricts s r content rest) : s.base? = some r := by
  obtain ⟨base, held, refers⟩ := restricts.members
  rw [Schema.base?, held]
  exact refers

theorem leads_shapes {name other : String} (leads : Leads shapes.definitions name other) :
    name ≠ "Shape" ∧ (name = "Blank" → other = "Shape") := by
  obtain ⟨base, found, r, next, rfl⟩ := leads
  have each : ∀ e ∈ shapes.definitions, ∀ r ∈ nextBase? e.2,
      e.1 ≠ "Shape" ∧ (e.1 = "Blank" → r.name = "Shape") := by decide
  exact each _ (Table.mem_of_get? found) r next

theorem reads_shapes {name target : String} (reads : Reads shapes.definitions name target) :
    target = "Shape" ∨ name = "Dot" ∧ target = "Blank" := by
  obtain ⟨root, listed, node, met, r, content, rest, restricts, path⟩ := reads
  have each : ∀ e ∈ shapes.definitions, ∀ node ∈ e.2.met [], ∀ r ∈ node.2.base?,
      r.name = "Shape" ∨ e.1 = "Dot" ∧ r.name = "Blank" := by decide
  have start := each _ listed node met r (base?_of_restricts restricts)
  induction path with
  | refl => exact start
  | tail _ step ih =>
    obtain ⟨notShape, onto⟩ := leads_shapes step
    rcases ih with shape | ⟨_, blank⟩
    · exact absurd shape notShape
    · exact Or.inl (onto blank)

theorem not_shifts_shape : ¬ Shifts shapes.definitions "Shape" := by
  rintro ⟨root, listed, change⟩
  have root := Table.get?_of_mem (show shapes.definitions.Distinct by decide) listed
  cases root
  rcases change with ⟨r, content, rest, restricts⟩ | ⟨e, inside, marked⟩
  · exact not_restricts rfl r content rest restricts
  · cases List.mem_singleton.mp (show e ∈ [("code", tag "string")] from inside)
    exact marked ((Schema.everyMet_mk_iff _ _).mpr ⟨rfl, Children.each_empty _⟩)

/-- The shape last. -/
def shapeLast : Definitions := shapes.definitions.drop 1 ++ shapes.definitions.take 1

theorem restrictions_of_reordered_shapes :
    shapes.definitions.Distinct ∧ shapeLast.Perm shapes.definitions ∧
    (∀ name target, Reads shapes.definitions name target → Shifts shapes.definitions target →
      (shapes.definitions.Precedes target name ↔ shapeLast.Precedes target name)) ∧
    (((∃ e, (run {} shapes).2 = .error e) ∧
        ∃ e, (run {} { shapes with definitions := shapeLast }).2 = .error e) ∨
      ((run {} shapes).2 = .ok {} ∧ (run {} { shapes with definitions := shapeLast }).2 = .ok {} ∧
        ∀ name, (run {} shapes).1.definitions.get? name =
          (run {} { shapes with definitions := shapeLast }).1.definitions.get? name)) ∧
    ∃ left found, (shapes.walkAfterM (after ({} : Options).maxDepth)).run 0 =
        ((left, .ok ()), found) ∧
      ∃ dot content' rest' attributes, left.definitions.get? "Dot" = some dot ∧
        dot.children.allOf =
          some (inherited content' attributes :: restrictContent content' :: rest') ∧
        "code" ∉ attributes.keys := by
  have perm : shapeLast.Perm shapes.definitions :=
    List.perm_append_comm.trans (.of_eq (List.take_append_drop 1 _))
  have kept : ∀ name target, Reads shapes.definitions name target →
      Shifts shapes.definitions target →
      (shapes.definitions.Precedes target name ↔ shapeLast.Precedes target name) := by
    intro name target reads shifts
    rcases reads_shapes reads with rfl | ⟨rfl, rfl⟩
    · exact absurd shifts not_shifts_shape
    · decide
  obtain ⟨reordered, taken⟩ := restrictions_of_reordered {} shapes (by decide)
  refine ⟨by decide, perm, kept, reordered shapeLast perm kept, _, _, rfl, ?_⟩
  exact taken _ _ rfl "Blank" "Dot" _ _ _ _ _ _ _ "code" rfl rfl (by decide) ⟨rfl, _, rfl, rfl⟩ rfl
    ⟨by decide, by decide⟩ (by decide) ⟨rfl, _, rfl, rfl⟩ rfl

/-- Before the restriction that takes it away stands one of that restriction, and inherits it. -/
theorem restricted_first_matters : ¬ ∀ (options : Options) (d : Document) (order : Definitions),
    d.definitions.Distinct → order.Perm d.definitions →
    ((∃ e, (run options d).2 = .error e) ∧
        ∃ e, (run options { d with definitions := order }).2 = .error e) ∨
      ((run options d).2 = .ok {} ∧ (run options { d with definitions := order }).2 = .ok {} ∧
        ∀ name, (run options d).1.definitions.get? name =
          (run options { d with definitions := order }).1.definitions.get? name) := by
  intro same
  rcases same {} shapes shapes.definitions.reverse (by decide) shapes.definitions.reverse_perm with
    ⟨⟨e, failed⟩, _⟩ | ⟨_, _, found⟩
  · cases failed
  · have names := congrArg (Option.map fun s => Table.keys (s.children.properties.getD []))
      (found "Dot")
    exact absurd names (by decide)

end SchemaGraph.Restriction
