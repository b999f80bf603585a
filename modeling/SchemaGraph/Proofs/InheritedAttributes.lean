import SchemaGraph.Proofs.RestrictedWalks

/- What restrictions inherit. Along a chain of bases that are no restrictions themselves a restriction
   gets every attribute that it does not declare; what its bases have declared is the same whether the
   walk has been at them or not. -/
namespace SchemaGraph.Restriction

/-- An attribute as its keywords tell. -/
def saysAttribute (k : Keywords) : Bool := k.xml.any Xml.isAttribute

def saysKept (k : Keywords) : Bool := !(k.extra.get? prohibited).any Json.isTruthy

theorem exists_attribute_iff (t : Table Schema) (key : String) :
    (∃ s, (key, s) ∈ t ∧ s.isAttribute = true) ↔
      ∃ k, (key, k) ∈ saying t ∧ saysAttribute k = true := by
  constructor
  · rintro ⟨s, listed, marked⟩
    exact ⟨_, List.mem_map.mpr ⟨_, listed, rfl⟩, marked⟩
  · rintro ⟨k, listed, marked⟩
    obtain ⟨⟨key', s⟩, inside, same⟩ := List.mem_map.mp listed
    cases same
    exact ⟨s, inside, marked⟩

theorem keys_saying (t : Table Schema) : (saying t).keys = t.keys := Table.keys_mapValues _ _

theorem restrictContent_properties (content : Schema) :
    (restrictContent content).children.properties.getD [] =
      (content.children.properties.getD []).filter fun e => isKept e.2 := by
  rw [restrictContent]
  cases content.children.properties <;> rfl

theorem keys_filter_isKept (t : Table Schema) :
    Table.keys (t.filter fun e => isKept e.2) =
      Table.keys ((saying t).filter fun e => saysKept e.2) := by
  rw [saying, Table.mapValues, List.filter_map, Table.keys, Table.keys, List.map_map]
  rfl

theorem saying_properties {s s' : Schema} (same : face s' = face s) :
    saying (s'.children.properties.getD []) = saying (s.children.properties.getD []) := by
  have properties : s'.children.properties.map saying = s.children.properties.map saying :=
    congrArg Prod.snd same
  have read (s : Schema) : saying (s.children.properties.getD []) =
      (s.children.properties.map saying).getD [] := by
    cases s.children.properties <;> rfl
  rw [read, read, properties]

/-- What a lookup sees of a base. -/
def look (base : Schema) := (face base, memberFaces base)

theorem saying_declared_of_look {b b' : Schema} (same : look b' = look b) :
    saying (declared b') = saying (declared b) := by
  obtain ⟨faces, members⟩ := Prod.mk.inj same
  rw [saying_declared, saying_declared, faces, members]

/-- Which attributes bases declare is seen by looking at them. -/
theorem exists_declares_iff {l l' : List Schema} (same : l'.map look = l.map look) (key : String) :
    (∃ base ∈ l', DeclaresAttribute base key) ↔ ∃ base ∈ l, DeclaresAttribute base key := by
  have turned {l l' : List Schema} (same : l'.map look = l.map look)
      (declares : ∃ base ∈ l', DeclaresAttribute base key) :
      ∃ base ∈ l, DeclaresAttribute base key := by
    obtain ⟨base', listed, declares⟩ := declares
    have seen : look base' ∈ l.map look := same ▸ List.mem_map_of_mem listed
    obtain ⟨base, inside, alike⟩ := List.mem_map.mp seen
    refine ⟨base, inside, ?_⟩
    rw [DeclaresAttribute, exists_attribute_iff] at declares ⊢
    rwa [saying_declared_of_look alike]
  exact ⟨turned same, turned same.symm⟩

section
variable {one other : Definitions}

/-- Where the links of a chain lead to bases that look the same, they are a chain in both graphs. -/
theorem BaseChain.of_look {r : Reference} {links : List Reference} (chain : BaseChain one r links)
    (same : ∀ link ∈ links, (other.get? link.name).map look = (one.get? link.name).map look) :
    BaseChain other r links := by
  have next {b b' : Schema} (alike : look b' = look b) : nextBase? b' = nextBase? b :=
    nextBase?_congr (Prod.mk.inj alike).2
  induction chain with
  | @missing r absent =>
    have here := same r List.mem_cons_self
    rw [absent, Option.map_none, Option.map_eq_none_iff] at here
    exact .missing here
  | @last r base found ends =>
    have here := same r List.mem_cons_self
    rw [found, Option.map_some] at here
    obtain ⟨base', found', alike⟩ := Option.map_eq_some_iff.mp here
    exact .last found' ((next alike).trans ends)
  | @next r after base links found further rest ih =>
    obtain ⟨here, later⟩ := List.forall_mem_cons.mp same
    rw [found, Option.map_some] at here
    obtain ⟨base', found', alike⟩ := Option.map_eq_some_iff.mp here
    exact .next found' ((next alike).trans further) (ih later)

theorem map_look_bases {links : List Reference}
    (same : ∀ link ∈ links, (other.get? link.name).map look = (one.get? link.name).map look) :
    (bases other links).map look = (bases one links).map look := by
  rw [bases, bases, List.map_filterMap, List.map_filterMap]
  exact List.filterMap_congr same

end

section
variable {maxDepth : Nat} {d : Document} {final : String → Schema} {noted : String → Nat}

/-- Wherever the walk is, a definition that is no restriction looks as it did. -/
theorem look_of_allBecome
    (become : AllBecome (after maxDepth) 0 d.flavor final noted [] d.definitions)
    (distinct : d.definitions.Distinct) {earlier later : Definitions} {name : String} {root : Schema}
    (split : d.definitions = earlier ++ (name, root) :: later) {target : String}
    (plain : target ≠ name → ∀ b, d.definitions.get? target = some b →
      b.keywords.complexRestriction = none) :
    (Table.get? (finishedAs final earlier ++ (name, root) :: later) target).map look =
      (d.definitions.get? target).map look := by
  rw [get?_finishedAs_append split]
  split
  · rename_i member
    obtain ⟨b, inside⟩ := (Table.mem_keys_iff earlier target).mp member
    have listed : (target, b) ∈ d.definitions := split ▸ List.mem_append_left _ inside
    have found := Table.get?_of_mem distinct listed
    have apart : target ≠ name := by
      rintro rfl
      rw [split, Table.Distinct, Table.keys_append_cons] at distinct
      exact (List.nodup_append.mp distinct).2.2 _ member _ List.mem_cons_self rfl
    obtain ⟨before, next, parts⟩ := List.append_of_mem listed
    have resolved := resolved_of_visitRoot (become before target b next parts)
    have alike : look (final target) = look b :=
      Prod.ext resolved.sees (resolved.members (not_restricts (plain apart b found)))
    rw [found, Option.map_some, Option.map_some, alike]
  · rfl

end

/-- A restriction whose chain is not too long goes through and inherits. -/
theorem run_after_of_chain {graph : Definitions} {maxDepth : Nat} {s content : Schema}
    {rest : List Schema} {r : Reference} {links : List Reference}
    (restricts : Restricts s r content rest) (chain : BaseChain graph r links)
    (short : links.length ≤ maxDepth) (p : Position) (found : Nat) :
    ∃ attributes, (after maxDepth graph p s).run.run found =
        (.ok (replaced s content rest attributes), found + 1) ∧
      Inherits (bases graph links) (content.children.properties.getD []) attributes := by
  obtain ⟨attributes, collected, inherits⟩ :=
    inherits_of_chain chain short (content.children.properties.getD [])
  refine ⟨attributes, ?_, inherits⟩
  have marked : s.keywords.complexRestriction.isNone = false := by
    rw [Option.isNone_eq_false_iff]
    exact restricts.flagged
  obtain ⟨base, held, refers⟩ := restricts.members
  rw [after, marked]
  dsimp only
  rw [held]
  dsimp only
  rw [refers]
  dsimp only
  rw [collected]
  rfl

/-- A restriction inherits exactly the attributes that are declared along the chain of its bases and
not by itself, each as the farthest base declares it; so it is the nearest declaration exactly where
the two are the same. A walk does this to every restriction whose bases are no restrictions, with the
bases before it as they have become. -/
theorem inherits_farthest (maxDepth : Nat) :
    (∀ (graph : Definitions) (p : Position) (s content : Schema) (rest : List Schema)
        (r : Reference) (links : List Reference) (found : Nat),
      Restricts s r content rest → BaseChain graph r links → links.length ≤ maxDepth →
      ∃ attributes, (after maxDepth graph p s).run.run found =
          (.ok (replaced s content rest attributes), found + 1) ∧
        Inherits (bases graph links) (content.children.properties.getD []) attributes ∧
        ((∀ key ∈ attributes.keys, attributes.get? key = nearest? (bases graph links) key) ↔
          ∀ key ∈ attributes.keys,
            nearest? (bases graph links) key = farthest? (bases graph links) key)) ∧
    ∀ (d left : Document) (found : Nat), d.definitions.Distinct →
      (d.walkAfterM (after maxDepth)).run 0 = ((left, .ok ()), found) →
      ∀ (earlier later : Definitions) (name : String) (root content : Schema) (rest : List Schema)
        (r : Reference) (links : List Reference),
      d.definitions = earlier ++ (name, root) :: later → Restricts root r content rest →
      BaseChain d.definitions r links → links.length ≤ maxDepth →
      (∀ link ∈ links, link.name ≠ name → ∀ b, d.definitions.get? link.name = some b →
        b.keywords.complexRestriction = none) →
      ∃ (earlier' later' : Definitions) (root' content' : Schema) (rest' : List Schema)
        (attributes : Table Schema),
        left.definitions = earlier' ++ (name, root') :: later' ∧
        earlier'.keys = earlier.keys ∧ later'.keys = later.keys ∧
        root'.keywords = { root.keywords with complexRestriction := none } ∧
        root'.children.allOf =
          some (inherited content' attributes :: restrictContent content' :: rest') ∧
        Inherits (bases (earlier' ++ (name, root) :: later) links)
          (content'.children.properties.getD []) attributes ∧
        (∀ key, key ∈ attributes.keys ↔ key ∉ Table.keys (content.children.properties.getD []) ∧
          ∃ b ∈ bases d.definitions links, DeclaresAttribute b key) ∧
        Table.keys ((restrictContent content').children.properties.getD []) =
          Table.keys ((content.children.properties.getD []).filter fun e => isKept e.2) := by
  constructor
  · intro graph p s content rest r links found restricts chain short
    obtain ⟨attributes, ran, inherits⟩ := run_after_of_chain restricts chain short p found
    refine ⟨attributes, ran, inherits, forall₂_congr fun key listed => ?_⟩
    rw [inherits.farthest key listed, eq_comm]
  · intro d left found distinct ran earlier later name root content rest r links split restricts
      chain short others
    obtain ⟨final, noted, become, rfl, _⟩ :=
      Steady.walkAfterM (steady maxDepth d.flavor) distinct ran
    have resolved := resolved_of_visitRoot (become earlier name root later split)
    rw [List.nil_append] at resolved
    obtain ⟨content', rest', attributes, collected, members, sameContent, _⟩ :=
      resolved.resolves r content rest restricts
    have alike : ∀ link ∈ links,
        (Table.get? (finishedAs final earlier ++ (name, root) :: later) link.name).map look =
          (d.definitions.get? link.name).map look := fun link listed =>
      look_of_allBecome become distinct split (others link listed)
    obtain ⟨_, again, inherits⟩ :=
      inherits_of_chain (chain.of_look alike) short (content'.children.properties.getD [])
    cases collected.symm.trans again
    have sameProperties := saying_properties sameContent
    have sameKeys : Table.keys (content'.children.properties.getD []) =
        Table.keys (content.children.properties.getD []) := by
      rw [← keys_saying, sameProperties, keys_saying]
    refine ⟨finishedAs final earlier, finishedAs final later, final name, content', rest',
      attributes, ?_, keys_finishedAs _ _, keys_finishedAs _ _, resolved.keywords, members, inherits,
      fun key => ?_, ?_⟩
    · dsimp only
      rw [split, finishedAs, List.map_append]
      rfl
    · rw [inherits.names, sameKeys, exists_declares_iff (map_look_bases alike)]
    · rw [restrictContent_properties, keys_filter_isKept, keys_filter_isKept, sameProperties]

def tag (type : String) : Schema :=
  { keywords := { xml := some { attr := some true }, type := some type } }

def leaf : Reference := .toDefinition "Leaf" .definitions

def node : Reference := .toDefinition "Node" .definitions

def restriction (r : Reference) (content : Schema) : Schema where
  keywords := { complexRestriction := some (.bool true) }
  children := { allOf := some [.ofReference r, content] }

/-- A restriction of the leaf, whose content says nothing. -/
def bud : Schema := restriction leaf {}

/-- A leaf declares a tag anew that a node declares. -/
def tree : Document where
  raw := [("definitions", .null)]
  flavor := .definitions
  hasSlot := true
  definitions := [
    ("Leaf", { children := {
      properties := some [("size", tag "integer")]
      allOf := some [.ofReference node] } }),
    ("Node", { children := { properties := some [("size", tag "string")] } }),
    ("Bud", bud)]

theorem restricts_bud : Restricts bud leaf {} [] := ⟨rfl, _, rfl, rfl⟩

theorem chain_bud : BaseChain tree.definitions leaf [leaf, node] := .next rfl rfl (.last rfl rfl)

theorem inherits_farthest_bud :
    Restricts bud leaf {} [] ∧ BaseChain tree.definitions leaf [leaf, node] ∧
    (∃ attributes, (after 2 tree.definitions ⟨.definitions, "Bud", [], []⟩ bud).run.run 0 =
        (.ok (replaced bud {} [] attributes), 1) ∧
      Inherits (bases tree.definitions [leaf, node]) [] attributes) ∧
    tree.definitions.Distinct ∧
    ∃ left found, (tree.walkAfterM (after 2)).run 0 = ((left, .ok ()), found) ∧
      ∃ (earlier' : Definitions) (bud' content' : Schema) (rest' : List Schema)
        (attributes : Table Schema), left.definitions = earlier' ++ [("Bud", bud')] ∧
        bud'.children.allOf =
          some (inherited content' attributes :: restrictContent content' :: rest') ∧
        "size" ∈ attributes.keys := by
  obtain ⟨visited, walked⟩ := inherits_farthest 2
  obtain ⟨attributes, ran, inherits, _⟩ := visited tree.definitions ⟨.definitions, "Bud", [], []⟩ bud
    {} [] leaf [leaf, node] 0 restricts_bud chain_bud (Nat.le_refl 2)
  have plain : ∀ link ∈ [leaf, node], link.name ≠ "Bud" → ∀ b,
      tree.definitions.get? link.name = some b → b.keywords.complexRestriction = none := by
    intro link listed _ b found
    rcases List.mem_pair.mp listed with rfl | rfl
    · cases found
      rfl
    · cases found
      rfl
  obtain ⟨earlier', later', bud', content', rest', inheritedThere, split, _, noLater, _, members, _,
    names, _⟩ := walked tree _ _ (by decide) rfl (tree.definitions.take 2) [] "Bud" bud {} [] leaf
      [leaf, node] rfl restricts_bud chain_bud (Nat.le_refl 2) plain
  refine ⟨restricts_bud, chain_bud, ⟨attributes, ran, inherits⟩, by decide, _, _, rfl, earlier', bud',
    content', rest', inheritedThere, ?_, members, (names "size").mpr ⟨by decide, ?_⟩⟩
  · rw [split, List.map_eq_nil_iff.mp noLater]
  · exact ⟨_, List.mem_cons_self, _, List.mem_cons_self, rfl⟩

/-- Of two declarations along the chain the nearer one does not count. -/
theorem nearest_not_inherited : ¬ ∀ (maxDepth : Nat) (graph : Definitions) (p : Position)
    (s content : Schema) (rest : List Schema) (r : Reference) (links : List Reference) (found : Nat),
    Restricts s r content rest → BaseChain graph r links → links.length ≤ maxDepth →
    ∃ attributes, (after maxDepth graph p s).run.run found =
        (.ok (replaced s content rest attributes), found + 1) ∧
      ∀ key ∈ attributes.keys, attributes.get? key = nearest? (bases graph links) key := by
  intro nearest
  obtain ⟨attributes, ran, each⟩ := nearest 2 tree.definitions ⟨.definitions, "Bud", [], []⟩ bud {} []
    leaf [leaf, node] 0 restricts_bud chain_bud (Nat.le_refl 2)
  have made : (after 2 tree.definitions ⟨.definitions, "Bud", [], []⟩ bud).run.run 0 =
      (.ok (replaced bud {} [] [("size", tag "string")]), 1) := rfl
  cases made.symm.trans ran
  have size := congrArg (Option.map fun s => s.keywords.type) (each "size" List.mem_cons_self)
  exact absurd size (by decide)

end SchemaGraph.Restriction
