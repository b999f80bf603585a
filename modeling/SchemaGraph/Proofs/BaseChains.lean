import SchemaGraph.Pass.Restriction
import SchemaGraph.Proofs.Distinct

/- What a restriction takes over along the chain of its bases. Every attribute that a base declares
   is put over those of the nearer bases, so of several declarations the one of the farthest base is
   left. -/
namespace SchemaGraph

namespace Table
variable {α : Type}

/-- Puts the entries one after the other, the later over the earlier. -/
def putAll (t entries : Table α) : Table α := entries.foldl (fun t e => t.put e.1 e.2) t

theorem putAll_append (t entries more : Table α) :
    t.putAll (entries ++ more) = (t.putAll entries).putAll more := List.foldl_append

theorem distinct_putAll {t : Table α} (distinct : t.Distinct) (entries : Table α) :
    (t.putAll entries).Distinct :=
  List.foldlRecOn (motive := Distinct) entries _ distinct fun _ distinct entry _ =>
    distinct_put distinct entry.1 entry.2

/-- The last entry under a key is the one that is found. -/
theorem get?_putAll (t entries : Table α) (key : String) :
    (t.putAll entries).get? key = (get? entries.reverse key).or (t.get? key) := by
  induction entries generalizing t with
  | nil => rfl
  | cons e rest ih =>
    have later : t.putAll (e :: rest) = (t.put e.1 e.2).putAll rest := rfl
    rw [later, ih, get?_put, List.reverse_cons, get?_append, Option.or_assoc, get?, get?]
    split <;> rfl

end Table

namespace Restriction

/-- What a member declares in the place of the base: nothing if it refers to another one. -/
def inlineProperties (member : Schema) : Table Schema :=
  if member.keywords.reference.isNone then member.children.properties.getD [] else []

/-- The properties that a base declares: its own, then those of its inline members. -/
def declared (base : Schema) : Table Schema :=
  base.children.properties.getD [] ++ (base.children.allOf.getD []).flatMap inlineProperties

def attributesOf (t : Table Schema) : Table Schema := t.filter fun e => e.2.isAttribute

/-- An attribute that the restriction does not declare itself. -/
def isWanted (restricted : Table Schema) (e : String × Schema) : Bool :=
  e.2.isAttribute && !restricted.has e.1

theorem collect_eq (restricted attributes properties : Table Schema) :
    collect restricted attributes properties =
      attributes.putAll (properties.filter (isWanted restricted)) := by
  rw [Table.putAll, List.foldl_filter]
  rfl

/-- A base hands over its own properties, then those of its inline members. -/
theorem collectBase_eq_foldl (restricted attributes : Table Schema) (base : Schema) :
    collectBase restricted attributes base = (base.children.allOf.getD []).foldl
      (fun t member => collect restricted t (inlineProperties member))
      (collect restricted attributes (base.children.properties.getD [])) := by
  rw [collectBase]
  congr 1
  · funext t member
    rw [inlineProperties]
    cases member.keywords.reference with
    | some _ => rfl
    | none => cases member.children.properties <;> rfl
  · cases base.children.properties <;> rfl

theorem collectBase_eq (restricted attributes : Table Schema) (base : Schema) :
    collectBase restricted attributes base =
      attributes.putAll ((declared base).filter (isWanted restricted)) := by
  have inline (members : List Schema) (start : Table Schema) :
      members.foldl (fun t member => collect restricted t (inlineProperties member)) start =
        start.putAll ((members.flatMap inlineProperties).filter (isWanted restricted)) := by
    induction members generalizing start with
    | nil => rfl
    | cons member rest ih =>
      rw [List.foldl_cons, List.flatMap_cons, List.filter_append, Table.putAll_append, ih,
        collect_eq]
  rw [collectBase_eq_foldl, inline, collect_eq, declared, List.filter_append, Table.putAll_append]

/-- A restriction of the definition that the reference leads to, with its content and its other
members. -/
structure Restricts (s : Schema) (r : Reference) (content : Schema) (rest : List Schema) : Prop where
  flagged : s.keywords.complexRestriction.isSome
  members : ∃ base, s.children.allOf = some (base :: content :: rest) ∧
    base.keywords.reference = some r

theorem not_restricts {s : Schema} (unmarked : s.keywords.complexRestriction = none) (r : Reference)
    (content : Schema) (rest : List Schema) : ¬ Restricts s r content rest := by
  intro restricts
  have flagged := restricts.flagged
  rw [unmarked] at flagged
  cases flagged

/-- What a restriction becomes once its attributes are known. -/
def replaced (s content : Schema) (rest : List Schema) (attributes : Table Schema) : Schema :=
  { s with
    keywords.complexRestriction := none
    children.allOf := some (inherited content attributes :: restrictContent content :: rest) }

/-- The references that lead from a restriction over its bases; one that leads to no definition is
the last. -/
inductive BaseChain (graph : Definitions) : Reference → List Reference → Prop where
  | missing {r : Reference} (absent : graph.get? r.name = none) : BaseChain graph r [r]
  | last {r : Reference} {base : Schema} (found : graph.get? r.name = some base)
      (ends : nextBase? base = none) : BaseChain graph r [r]
  | next {r after : Reference} {base : Schema} {links : List Reference}
      (found : graph.get? r.name = some base) (further : nextBase? base = some after)
      (rest : BaseChain graph after links) : BaseChain graph r (r :: links)

/-- The definitions on the chain, the nearest first. -/
def bases (graph : Definitions) (links : List Reference) : List Schema :=
  links.filterMap fun link => graph.get? link.name

theorem attributes?_of_chain {graph : Definitions} {r : Reference} {links : List Reference}
    (chain : BaseChain graph r links) {depth : Nat} (short : links.length ≤ depth)
    (restricted found : Table Schema) : attributes? graph restricted depth r found =
      some (found.putAll ((bases graph links).flatMap fun base =>
        (declared base).filter (isWanted restricted))) := by
  induction chain generalizing depth found with
  | missing absent =>
    obtain ⟨depth, rfl⟩ := Nat.exists_eq_add_of_le' short
    rw [List.length_singleton, attributes?, absent, bases, List.filterMap_cons, absent]
    rfl
  | last here ends =>
    obtain ⟨depth, rfl⟩ := Nat.exists_eq_add_of_le' short
    rw [List.length_singleton, attributes?, here]
    dsimp only
    rw [ends, collectBase_eq, bases, List.filterMap_cons, here, List.filterMap_nil,
      List.flatMap_singleton]
  | @next r after base links here further rest ih =>
    cases depth with
    | zero => cases short
    | succ depth =>
      rw [attributes?, here]
      dsimp only
      rw [further]
      dsimp only
      rw [ih (Nat.le_of_succ_le_succ short), collectBase_eq, ← Table.putAll_append, bases, bases,
        List.filterMap_cons, here, List.flatMap_cons]

def DeclaresAttribute (base : Schema) (key : String) : Prop :=
  ∃ s, (key, s) ∈ declared base ∧ s.isAttribute = true

/-- Only along a chain that is not too long attributes are found. -/
theorem chain_of_attributes? {graph : Definitions} {restricted found attributes : Table Schema}
    {depth : Nat} {r : Reference}
    (collected : attributes? graph restricted depth r found = some attributes) :
    ∃ links, BaseChain graph r links ∧ links.length ≤ depth := by
  induction depth generalizing r found with
  | zero => cases collected
  | succ depth ih =>
    rw [attributes?] at collected
    split at collected
    · rename_i absent
      exact ⟨[r], .missing absent, Nat.le_add_left _ _⟩
    · rename_i base here
      dsimp only at collected
      split at collected
      · rename_i ends
        exact ⟨[r], .last here ends, Nat.le_add_left _ _⟩
      · rename_i after further
        obtain ⟨links, chain, short⟩ := ih collected
        exact ⟨r :: links, .next here further chain, Nat.succ_le_succ short⟩

/-- The declaration of an attribute by a base; the last one counts. -/
def declaration? (base : Schema) (key : String) : Option Schema :=
  Table.get? (attributesOf (declared base)).reverse key

def nearest? (bases : List Schema) (key : String) : Option Schema :=
  bases.findSome? (declaration? · key)

def farthest? (bases : List Schema) (key : String) : Option Schema :=
  bases.reverse.findSome? (declaration? · key)

theorem declaration?_isSome_iff (base : Schema) (key : String) :
    (declaration? base key).isSome ↔ DeclaresAttribute base key := by
  rw [DeclaresAttribute, declaration?, ← Table.has, Table.has_iff_mem_keys, Table.mem_keys_iff]
  simp only [attributesOf, List.mem_reverse, List.mem_filter]

theorem filter_isWanted (restricted t : Table Schema) :
    t.filter (isWanted restricted) = (attributesOf t).filter fun e => !restricted.has e.1 := by
  rw [attributesOf, List.filter_filter]
  exact List.filter_congr fun e _ => Bool.and_comm _ _

theorem get?_wanted (restricted : Table Schema) (base : Schema) (key : String) :
    Table.get? ((declared base).filter (isWanted restricted)).reverse key =
      if restricted.has key then none else declaration? base key := by
  rw [filter_isWanted, ← List.filter_reverse, Table.get?_filter (fun key => !restricted.has key),
    declaration?]
  cases restricted.has key <;> rfl

/-- Of the attributes that are put one after the other the farthest declaration is left. -/
theorem get?_inherited (restricted : Table Schema) (bases : List Schema) (key : String) :
    (Table.putAll [] (bases.flatMap fun base =>
      (declared base).filter (isWanted restricted))).get? key =
        if restricted.has key then none else farthest? bases key := by
  rw [Table.get?_putAll, Table.get?, Option.or_none, farthest?]
  induction bases with
  | nil => split <;> rfl
  | cons base rest ih =>
    rw [List.flatMap_cons, List.reverse_append, Table.get?_append, ih, get?_wanted,
      List.reverse_cons, List.findSome?_append, List.findSome?_singleton]
    split <;> rfl

theorem farthest?_isSome_iff (bases : List Schema) (key : String) :
    (farthest? bases key).isSome ↔ ∃ base ∈ bases, DeclaresAttribute base key := by
  simp only [farthest?, List.isSome_findSome?, List.any_eq_true, List.mem_reverse,
    declaration?_isSome_iff]

/-- The attributes that a restriction with these own properties takes over from its bases. -/
structure Inherits (bases : List Schema) (restricted attributes : Table Schema) : Prop where
  distinct : attributes.Distinct
  names : ∀ key, key ∈ attributes.keys ↔
    key ∉ restricted.keys ∧ ∃ base ∈ bases, DeclaresAttribute base key
  farthest : ∀ key ∈ attributes.keys, attributes.get? key = farthest? bases key

theorem inherits_of_chain {graph : Definitions} {r : Reference} {links : List Reference}
    (chain : BaseChain graph r links) {depth : Nat} (short : links.length ≤ depth)
    (restricted : Table Schema) : ∃ attributes,
      attributes? graph restricted depth r [] = some attributes ∧
        Inherits (bases graph links) restricted attributes := by
  have empty : Table.Distinct ([] : Table Schema) := List.nodup_nil
  refine ⟨_, attributes?_of_chain chain short restricted [], ?_⟩
  have found := get?_inherited restricted (bases graph links)
  refine ⟨Table.distinct_putAll empty _, fun key => ?_, fun key listed => ?_⟩
  · rw [← farthest?_isSome_iff, ← Table.has_iff_mem_keys, ← Table.has_iff_mem_keys, Table.has, found]
    split
    · rename_i declares
      simp [declares]
    · rename_i free
      simp [free]
  · rw [← Table.has_iff_mem_keys, Table.has, found] at listed
    rw [found]
    split at listed
    · cases listed
    · rename_i free
      rw [if_neg free]

/-- What is collected is inherited along a chain. -/
theorem inherits_of_collected {graph : Definitions} {restricted attributes : Table Schema}
    {depth : Nat} {r : Reference}
    (collected : attributes? graph restricted depth r [] = some attributes) :
    ∃ links, BaseChain graph r links ∧ Inherits (bases graph links) restricted attributes := by
  obtain ⟨links, chain, short⟩ := chain_of_attributes? collected
  obtain ⟨_, again, inherits⟩ := inherits_of_chain chain short restricted
  cases collected.symm.trans again
  exact ⟨links, chain, inherits⟩

end Restriction
end SchemaGraph
