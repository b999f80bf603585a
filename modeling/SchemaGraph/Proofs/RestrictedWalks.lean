import SchemaGraph.Proofs.BaseChains
import SchemaGraph.Proofs.OrderedWalks
import SchemaGraph.Proofs.RelatedWalks

/- What a walk that resolves restrictions makes of a schema. A lookup sees of a node what it and its
   properties say themselves; that stays, apart from the marks, and so do the members of a node that
   is no restriction. -/
namespace SchemaGraph

/-- From every state the same result on both sides, and the same number added. -/
def counting : Likeness (StateM Nat) (StateM Nat) where
  Alike p x y := ∃ a more, p a ∧ (∀ found, x.run found = (a, found + more)) ∧
    ∀ found, y.run found = (a, found + more)
  pure h := ⟨_, 0, h, fun _ => rfl, fun _ => rfl⟩
  bind := by
    rintro α β p q x y f g ⟨a, more, holds, one, other⟩ next
    obtain ⟨b, further, ends, here, there⟩ := next a holds
    refine ⟨b, more + further, ends, fun found => ?_, fun found => ?_⟩
    · rw [StateT.run_bind, one, ← Nat.add_assoc]
      exact here _
    · rw [StateT.run_bind, other, ← Nat.add_assoc]
      exact there _

namespace Restriction

def withoutMark (k : Keywords) : Keywords := { k with complexRestriction := none }

theorem eq_of_withoutMark {k k' : Keywords} (same : withoutMark k' = withoutMark k)
    (mark : k'.complexRestriction = k.complexRestriction) : k' = k := by
  have whole (k : Keywords) : k = { withoutMark k with complexRestriction := k.complexRestriction } :=
    rfl
  rw [whole k', whole k, same, mark]

/-- What the properties of a table say themselves. -/
def saying (t : Table Schema) : Table Keywords := t.mapValues fun s => withoutMark s.keywords

theorem saying_append (t u : Table Schema) : saying (t ++ u) = saying t ++ saying u := List.map_append

/-- What a lookup sees of a node. -/
def face (s : Schema) : Keywords × Option (Table Keywords) :=
  (withoutMark s.keywords, s.children.properties.map saying)

/-- What a lookup sees of the members of a node. -/
def memberFaces (s : Schema) : Option (List (Keywords × Option (Table Keywords))) :=
  s.children.allOf.map (List.map face)

theorem reference_of_face {s s' : Schema} (same : face s' = face s) :
    s'.keywords.reference = s.keywords.reference :=
  congrArg (fun seen => seen.1.reference) same

theorem nextBase?_eq (s : Schema) : nextBase? s =
    ((s.children.allOf.getD []).map fun member => member.keywords.reference).foldl
      (fun next r => r.or next) none := by
  rw [nextBase?, List.foldl_map]

/-- Where there is a later reference, the earlier ones do not matter. -/
theorem foldl_reference (l : List (Option Reference)) (start : Option Reference) :
    l.foldl (fun next r => r.or next) start = (l.foldl (fun next r => r.or next) none).or start := by
  induction l generalizing start with
  | nil => rfl
  | cons r rest ih =>
    rw [List.foldl_cons, List.foldl_cons, ih, ih (r.or none), Option.or_assoc, Option.or_assoc,
      Option.none_or]

theorem nextBase?_congr {s s' : Schema} (same : memberFaces s' = memberFaces s) :
    nextBase? s' = nextBase? s := by
  have seen (s : Schema) : (s.children.allOf.getD []).map (fun member => member.keywords.reference) =
      ((memberFaces s).getD []).map fun seen => seen.1.reference := by
    rw [memberFaces]
    cases s.children.allOf with
    | none => rfl
    | some l =>
      rw [Option.map_some, Option.getD_some, Option.getD_some, List.map_map]
      rfl
  rw [nextBase?_eq, nextBase?_eq, seen, seen, same]

/-- Which properties a base declares, and what they say themselves, is seen in the faces. -/
theorem saying_declared (s : Schema) : saying (declared s) =
    (face s).2.getD [] ++ ((memberFaces s).getD []).flatMap fun seen =>
      if seen.1.reference.isNone then seen.2.getD [] else [] := by
  have own (s : Schema) : (face s).2.getD [] = saying (s.children.properties.getD []) := by
    rw [face]
    cases s.children.properties <;> rfl
  have listed : (memberFaces s).getD [] = (s.children.allOf.getD []).map face := by
    rw [memberFaces]
    cases s.children.allOf <;> rfl
  rw [own, listed, declared, saying_append, List.flatMap_map]
  refine congrArg _ (List.map_flatMap.trans (List.flatMap_congr fun member _ => ?_))
  have reference : (face member).1.reference = member.keywords.reference := rfl
  rw [own, reference, inlineProperties]
  split <;> rfl

/-- Members that look the same are as many. -/
theorem members_of_look {c c' : Children Schema} (same : c'.allOf.map (List.map face) =
    c.allOf.map (List.map face)) {base' content' : Schema} {rest' : List Schema}
    (held : c'.allOf = some (base' :: content' :: rest')) :
    ∃ base content rest, c.allOf = some (base :: content :: rest) ∧ face base' = face base ∧
      face content' = face content ∧ rest'.map face = rest.map face := by
  rw [held, Option.map_some] at same
  obtain ⟨l, there, seen⟩ := Option.map_eq_some_iff.mp same.symm
  obtain ⟨base, l, rfl, sameBase, seen⟩ := List.map_eq_cons_iff.mp seen
  obtain ⟨content, rest, rfl, sameContent, sameRest⟩ := List.map_eq_cons_iff.mp seen
  exact ⟨base, content, rest, there, sameBase.symm, sameContent.symm, sameRest.symm⟩

/-- No node that a walk meets is marked. -/
def Plain (s : Schema) : Prop := s.EveryMet (·.complexRestriction = none)

/-- What comes of a schema in the graph. -/
structure Resolved (graph : Definitions) (maxDepth : Nat) (s s' : Schema) : Prop where
  sees : face s' = face s
  settled : s'.keywords.complexRestriction = none
  plain : Plain s → s' = s
  own : (∀ e ∈ attributesOf (s.children.properties.getD []), Plain e.2) →
    attributesOf (s'.children.properties.getD []) = attributesOf (s.children.properties.getD [])
  members : (∀ r content rest, ¬ Restricts s r content rest) → memberFaces s' = memberFaces s
  declares : (∀ r content rest, ¬ Restricts s r content rest) →
    (∀ e ∈ attributesOf (declared s), Plain e.2) →
      attributesOf (declared s') = attributesOf (declared s)
  resolves : ∀ r content rest, Restricts s r content rest → ∃ content' rest' attributes,
    attributes? graph (content'.children.properties.getD []) maxDepth r [] = some attributes ∧
    s'.children.allOf = some (inherited content' attributes :: restrictContent content' :: rest') ∧
    face content' = face content ∧ rest'.map face = rest.map face
  next : ∀ r, nextBase? s' = some r → nextBase? s = some r

theorem Resolved.keywords {graph : Definitions} {maxDepth : Nat} {s s' : Schema}
    (resolved : Resolved graph maxDepth s s') :
    s'.keywords = { s.keywords with complexRestriction := none } := by
  have bare : withoutMark s'.keywords = s'.keywords := by
    rw [withoutMark, ← resolved.settled]
  exact bare.symm.trans (Prod.mk.inj resolved.sees).1

section
variable {graph : Definitions} {maxDepth : Nat}

theorem map_face_of_forall {l l' : List Schema}
    (each : List.Forall₂ (Resolved graph maxDepth) l l') : l'.map face = l.map face := by
  induction each with
  | nil => rfl
  | cons first _ ih => rw [List.map_cons, List.map_cons, first.sees, ih]

theorem attributesOf_append (t u : Table Schema) :
    attributesOf (t ++ u) = attributesOf t ++ attributesOf u := List.filter_append _ _

/-- Attributes without marks stay as they are. -/
theorem attributesOf_forall {t t' : Table Schema} (pairs : List.Forall₂
    (fun e e' : String × Schema => e'.1 = e.1 ∧ Resolved graph maxDepth e.2 e'.2) t t')
    (each : ∀ e ∈ attributesOf t, Plain e.2) : attributesOf t' = attributesOf t := by
  induction pairs with
  | nil => rfl
  | @cons e e' t t' first _ ih =>
    have same : e'.2.isAttribute = e.2.isAttribute :=
      congrArg (fun seen => seen.1.xml.any Xml.isAttribute) first.2.sees
    rw [attributesOf, List.filter_cons] at each ⊢
    rw [attributesOf, List.filter_cons, same]
    split
    · rename_i marked
      rw [if_pos marked] at each
      obtain ⟨here, later⟩ := List.forall_mem_cons.mp each
      exact congrArg₂ List.cons (Prod.ext first.1 (first.2.plain here)) (ih later)
    · rename_i other
      rw [if_neg other] at each
      exact ih each

theorem attributesOf_inline {l l' : List Schema}
    (members : List.Forall₂ (Resolved graph maxDepth) l l')
    (each : ∀ e ∈ attributesOf (l.flatMap inlineProperties), Plain e.2) :
    attributesOf (l'.flatMap inlineProperties) = attributesOf (l.flatMap inlineProperties) := by
  induction members with
  | nil => rfl
  | @cons member member' l l' first _ ih =>
    rw [List.flatMap_cons, attributesOf_append] at each
    obtain ⟨here, later⟩ := List.forall_mem_append.mp each
    rw [List.flatMap_cons, List.flatMap_cons, attributesOf_append, attributesOf_append, ih later]
    refine congrArg (· ++ _) ?_
    rw [inlineProperties] at here
    rw [inlineProperties, inlineProperties, reference_of_face first.sees]
    split
    · rename_i inline
      rw [if_pos inline] at here
      exact first.own here
    · rfl

theorem saying_of_forall {t t' : Table Schema} (each : List.Forall₂
    (fun e e' : String × Schema => e'.1 = e.1 ∧ Resolved graph maxDepth e.2 e'.2) t t') :
    saying t' = saying t := by
  induction each with
  | nil => rfl
  | @cons e e' _ _ first _ ih =>
    have same : withoutMark e'.2.keywords = withoutMark e.2.keywords :=
      congrArg Prod.fst first.2.sees
    have here : (e'.1, withoutMark e'.2.keywords) = (e.1, withoutMark e.2.keywords) := by
      rw [same, first.1]
    exact congrArg₂ List.cons here ih

variable {k : Keywords} {c walked : Children Schema}
  (related : c.Related (Resolved graph maxDepth) walked)
include related

theorem face_of_related (k' : Keywords) (same : withoutMark k' = withoutMark k)
    (members : Option (List Schema)) :
    face ⟨k', { walked with allOf := members }⟩ = face ⟨k, c⟩ := by
  have properties : walked.properties.map saying = c.properties.map saying := by
    obtain ⟨⟩ := c
    obtain ⟨⟩ := walked
    cases related.properties with
    | none => rfl
    | some each => exact congrArg some (saying_of_forall each)
  rw [face, face, same, properties]

theorem memberFaces_of_related (k k' : Keywords) : memberFaces ⟨k', walked⟩ = memberFaces ⟨k, c⟩ := by
  rw [memberFaces, memberFaces]
  obtain ⟨⟩ := c
  obtain ⟨⟩ := walked
  cases related.allOf with
  | none => rfl
  | some each => exact congrArg some (map_face_of_forall each)

theorem eq_of_plain (plain : Plain ⟨k, c⟩) : walked = c :=
  related.eq ((Children.each_iff _ _).mpr fun child inside _ resolved => resolved.plain
    ((Children.each_iff _ _).mp ((Schema.everyMet_mk_iff k c).mp plain).2 child inside))

theorem attributesOf_properties
    (each : ∀ e ∈ attributesOf (c.properties.getD []), Plain e.2) :
    attributesOf (walked.properties.getD []) = attributesOf (c.properties.getD []) := by
  obtain ⟨⟩ := c
  obtain ⟨⟩ := walked
  cases related.properties with
  | none => rfl
  | some pairs => exact attributesOf_forall pairs each

theorem attributesOf_declared (k' : Keywords)
    (each : ∀ e ∈ attributesOf (declared ⟨k, c⟩), Plain e.2) :
    attributesOf (declared ⟨k', walked⟩) = attributesOf (declared ⟨k, c⟩) := by
  rw [declared, attributesOf_append] at each
  obtain ⟨own, inline⟩ := List.forall_mem_append.mp each
  rw [declared, declared, attributesOf_append, attributesOf_append]
  refine congrArg₂ (· ++ ·) (attributesOf_properties related own) ?_
  obtain ⟨⟩ := c
  obtain ⟨⟩ := walked
  cases related.allOf with
  | none => rfl
  | some members => exact attributesOf_inline members inline

/-- A node that restricts nothing keeps its members. -/
theorem resolved_of_kept (k' : Keywords) (bare : withoutMark k' = withoutMark k)
    (settled : k'.complexRestriction = none)
    (idle : ∀ r content rest, ¬ Restricts ⟨k, c⟩ r content rest) :
    Resolved graph maxDepth ⟨k, c⟩ ⟨k', walked⟩ :=
  have faces := memberFaces_of_related related k k'
  { sees := face_of_related related k' bare walked.allOf
    settled
    plain := fun plain => by
      have unmarked : k.complexRestriction = none := ((Schema.everyMet_mk_iff k c).mp plain).1
      rw [eq_of_plain related plain, eq_of_withoutMark bare (settled.trans unmarked.symm)]
    own := attributesOf_properties related
    members := fun _ => faces
    declares := fun _ => attributesOf_declared related k'
    resolves := fun r content rest restricts => absurd restricts (idle r content rest)
    next := fun r found => by rwa [nextBase?_congr faces] at found }

theorem resolved_of_replaced (flagged : k.complexRestriction.isSome) {base' content' : Schema}
    {rest' : List Schema} (held' : walked.allOf = some (base' :: content' :: rest')) {r : Reference}
    (refers : base'.keywords.reference = some r) {attributes : Table Schema}
    (found : attributes? graph (content'.children.properties.getD []) maxDepth r [] =
      some attributes) :
    Resolved graph maxDepth ⟨k, c⟩ (replaced ⟨k, walked⟩ content' rest' attributes) := by
  obtain ⟨base, content, rest, held, sameBase, sameContent, sameRest⟩ :=
    members_of_look (memberFaces_of_related related k k) held'
  rw [reference_of_face sameBase] at refers
  have restricts : Restricts ⟨k, c⟩ r content rest := ⟨flagged, base, held, refers⟩
  have own := attributesOf_properties related
  refine
    { sees := face_of_related related _ rfl _
      settled := rfl
      plain := fun plain => ?_
      own
      members := fun idle => absurd restricts (idle r content rest)
      declares := fun idle => absurd restricts (idle r content rest)
      resolves := fun r₁ content₁ rest₁ restricts => ?_
      next := fun r₁ later => ?_ }
  · rw [((Schema.everyMet_mk_iff k c).mp plain).1] at flagged
    cases flagged
  · obtain ⟨base₁, again, refers₁⟩ := restricts.members
    cases held.symm.trans again
    cases refers.symm.trans refers₁
    exact ⟨content', rest', attributes, found, rfl, sameContent, sameRest⟩
  · -- The reference of the first member is gone, so the one that is left was the last before.
    have others := congrArg (List.map fun seen => seen.1.reference) sameRest
    rw [List.map_map, List.map_map] at others
    have tails : content'.keywords.reference :: rest'.map (·.keywords.reference) =
        content.keywords.reference :: rest.map (·.keywords.reference) :=
      congrArg₂ List.cons (reference_of_face sameContent) others
    have left : (content'.keywords.reference :: rest'.map (·.keywords.reference)).foldl
        (fun next r => r.or next) none = some r₁ := by
      rw [nextBase?_eq] at later
      exact later
    rw [nextBase?_eq, held, Option.getD_some, List.map_cons, List.map_cons, ← tails,
      List.foldl_cons, foldl_reference, left, Option.some_or]

end

/-- Both graphs have the same attributes along the chain from a reference. -/
def LookAlike (one other : Definitions) (r : Reference) : Prop :=
  ∀ restricted depth found,
    attributes? one restricted depth r found = attributes? other restricted depth r found

/-- Both graphs have the same to tell to every restriction in the schema. -/
def ToldAlike (one other : Definitions) (s : Schema) : Prop :=
  ∀ node ∈ s.met [], ∀ r content rest, Restricts node.2 r content rest → LookAlike one other r

section
variable {one other : Definitions} {maxDepth : Nat}

/-- Hooks that look up the same do the same over children that have been resolved. -/
theorem alike_after {k : Keywords} {c walked : Children Schema} (p : Position)
    (same : ∀ r content rest, Restricts ⟨k, c⟩ r content rest → LookAlike one other r)
    (related : c.Related (Resolved one maxDepth) walked) :
    counting.throwing.Alike (Resolved one maxDepth ⟨k, c⟩) (after maxDepth one p ⟨k, walked⟩)
      (after maxDepth other p ⟨k, walked⟩) := by
  have faces : walked.allOf.map (List.map face) = c.allOf.map (List.map face) :=
    memberFaces_of_related related k k
  rw [after, after]
  split
  · rename_i plain
    have none : k.complexRestriction = none := Option.isNone_iff_eq_none.mp plain
    exact Likeness.pure _ (resolved_of_kept related k rfl none (not_restricts none))
  · rename_i marked
    have flagged : k.complexRestriction.isSome := by
      rwa [Bool.not_eq_true, Option.isNone_eq_false_iff] at marked
    refine Likeness.bind _ (p := fun _ => True) ⟨.ok (), 1, trivial, fun _ => rfl, fun _ => rfl⟩
      fun _ _ => ?_
    dsimp only
    split
    · rename_i base' content' rest' held'
      obtain ⟨base, content, rest, held, sameBase, _⟩ := members_of_look faces held'
      split
      · rename_i none
        refine Likeness.pure _ (resolved_of_kept related _ rfl rfl fun r _ _ restricts => ?_)
        obtain ⟨_, again, refers⟩ := restricts.members
        cases held.symm.trans again
        rw [← reference_of_face sameBase, none] at refers
        cases refers
      · rename_i r refers
        have based := (reference_of_face sameBase).symm.trans refers
        rw [← same r content rest ⟨flagged, base, held, based⟩]
        split
        · exact ⟨.error _, 0, trivial, fun _ => rfl, fun _ => rfl⟩
        · rename_i attributes found
          exact Likeness.pure _ (resolved_of_replaced related flagged held' refers found)
    · rename_i short
      refine Likeness.pure _ (resolved_of_kept related _ rfl rfl fun r content rest restricts => ?_)
      obtain ⟨base, held, _⟩ := restricts.members
      obtain ⟨base', content', rest', held', _⟩ := members_of_look faces.symm held
      exact short _ _ _ held'

/-- The walks of a definition in two graphs that tell its restrictions the same. -/
theorem alike_walk {s : Schema} (same : ToldAlike one other s) {levels : Nat} (p : Position)
    (enough : s.levels ≤ levels) : counting.throwing.Alike (Resolved one maxDepth s)
      (s.walk (.ofAfter (after maxDepth one)) levels p)
      (s.walk (.ofAfter (after maxDepth other)) levels p) := by
  have enter : ∀ k c, ToldAlike one other ⟨k, c⟩ → c.entered.Each (ToldAlike one other) :=
    fun k c within => ((Schema.forall_met_mk_iff (fun s => ∀ r content rest,
      Restricts s r content rest → LookAlike one other r) k c).mp within).2
  refine counting.throwing.walkRelated enter (fun p k c walked within related => ?_) p enough same
  exact alike_after p (within _ (Schema.mem_met_self _ [])) related

end

section
variable (maxDepth : Nat) (flavor : Flavor)

theorem alike_self (graph : Definitions) (name : String) (root : Schema) :
    counting.throwing.Alike (Resolved graph maxDepth root)
      (root.walk (.ofAfter (after maxDepth graph)) root.levels { flavor, definition := name })
      (root.walk (.ofAfter (after maxDepth graph)) root.levels { flavor, definition := name }) :=
  alike_walk (fun _ _ _ _ _ _ _ _ _ => rfl) _ (Nat.le_refl _)

theorem steady : Steady (after maxDepth) 0 flavor (· + ·) := by
  intro graph name root found
  obtain ⟨result, more, _, ran, _⟩ := alike_self maxDepth flavor graph name root
  rw [visitRoot, ran, ran 0, Nat.zero_add]

variable {maxDepth flavor}

theorem resolved_of_visitRoot {graph : Definitions} {name : String} {root changed : Schema} {n : Nat}
    (visited : visitRoot (after maxDepth) 0 flavor graph name root = (.ok changed, n)) :
    Resolved graph maxDepth root changed := by
  obtain ⟨result, more, ends, ran, _⟩ := alike_self maxDepth flavor graph name root
  rw [visitRoot, ran] at visited
  cases visited
  exact ends

theorem visitRoot_congr {one other : Definitions} {name : String} {root : Schema}
    (same : ToldAlike one other root) :
    visitRoot (after maxDepth) 0 flavor one name root =
      visitRoot (after maxDepth) 0 flavor other name root := by
  have alike : counting.throwing.Alike (Resolved one maxDepth root)
      (root.walk (.ofAfter (after maxDepth one)) root.levels { flavor, definition := name })
      (root.walk (.ofAfter (after maxDepth other)) root.levels { flavor, definition := name }) :=
    alike_walk same _ (Nat.le_refl _)
  obtain ⟨result, more, _, here, there⟩ := alike
  rw [visitRoot, visitRoot, here, there]

end
end Restriction
end SchemaGraph
