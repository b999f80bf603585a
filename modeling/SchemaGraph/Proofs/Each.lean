import SchemaGraph.Proofs.Nodes
import SchemaGraph.Schema.Merge

/- Schemas in which every reference satisfies a predicate, place by place: in a node, in its
   children and in the schema that a recursion over a node makes of its children. -/
namespace SchemaGraph

theorem forall_eq_some {α : Type} {p : α → Prop} {a : α} (h : p a) :
    ∀ b, some a = some b → p b := by
  rintro _ ⟨⟩
  exact h

namespace Children
variable {α β : Type}

/-- Every child satisfies the predicate. -/
structure Each (p : α → Prop) (c : Children α) : Prop where
  not : ∀ a, c.not = some a → p a
  items : ∀ a, c.items = some a → p a
  additional : ∀ a, c.additional = some (.schema a) → p a
  properties : ∀ t, c.properties = some t → ∀ e ∈ t, p e.2
  allOf : ∀ l, c.allOf = some l → ∀ a ∈ l, p a
  oneOf : ∀ l, c.oneOf = some l → ∀ a ∈ l, p a
  anyOf : ∀ l, c.anyOf = some l → ∀ a ∈ l, p a

theorem each_iff (p : α → Prop) (c : Children α) : c.Each p ↔ ∀ a ∈ c.toList, p a := by
  have inMembers (list : Option (List α)) :
      (∀ a ∈ list.getD [], p a) ↔ ∀ l, list = some l → ∀ a ∈ l, p a := by
    cases list <;> simp
  have inProperties : (∀ a ∈ (c.properties.map Table.values).getD [], p a) ↔
      ∀ t, c.properties = some t → ∀ e ∈ t, p e.2 := by
    cases c.properties with
    | none => simp
    | some t => simp only [Option.map_some, Option.getD_some, Table.values, List.forall_mem_map,
        Option.some.injEq, forall_eq']
  have inAdditional : (∀ a, c.additional.bind (·.schema?) = some a → p a) ↔
      ∀ a, c.additional = some (.schema a) → p a := by
    rcases c.additional with _ | _ | _ <;> simp [Additional.schema?]
  simp only [toList, List.forall_mem_append, inProperties, inAdditional, Option.mem_toList]
  simp only [inMembers]
  constructor
  · rintro ⟨not, items, additional, properties, allOf, oneOf, anyOf⟩
    exact ⟨⟨⟨⟨⟨⟨not, items⟩, additional⟩, properties⟩, allOf⟩, oneOf⟩, anyOf⟩
  · rintro ⟨⟨⟨⟨⟨⟨not, items⟩, additional⟩, properties⟩, allOf⟩, oneOf⟩, anyOf⟩
    exact ⟨not, items, additional, properties, allOf, oneOf, anyOf⟩

theorem each_empty (p : α → Prop) : Each p {} :=
  ⟨by simp, by simp, by simp, by simp, by simp, by simp, by simp⟩

theorem each_iff_entered (p : α → Prop) (c : Children α) :
    c.Each p ↔ c.entered.Each p ∧ ∀ a ∈ c.skipped, p a := by
  rw [each_iff, each_iff, ← List.forall_mem_append]
  exact forall_congr' fun a => by rw [mem_toList_iff, List.mem_append]

theorem Each.imp {p q : α → Prop} (weaker : ∀ a, p a → q a) {c : Children α} (h : c.Each p) :
    c.Each q :=
  (each_iff q c).mpr fun a member => weaker a ((each_iff p c).mp h a member)

theorem Each.members {p : α → Prop} {c : Children α} (h : c.Each p) :
    ∀ a ∈ c.allOf.getD [], p a := by
  cases members : c.allOf with
  | none => simp
  | some l => exact h.allOf l members

theorem each_map_iff (p : β → Prop) (f : α → β) (c : Children α) :
    (c.map f).Each p ↔ c.Each fun a => p (f a) := by
  simp [each_iff, toList_map]

theorem map_map {γ : Type} (g : β → γ) (f : α → β) (c : Children α) :
    (c.map f).map g = c.map fun a => g (f a) := by
  obtain ⟨not, items, properties, allOf, oneOf, anyOf, additional⟩ := c
  simp only [map, Option.map_map]
  congr 1
  · cases properties <;> simp [Table.mapValues]
  · cases allOf <;> simp
  · cases oneOf <;> simp
  · cases anyOf <;> simp
  · rcases additional with _ | _ | _ <;> simp [Additional.map]

theorem map_congr {f g : α → β} {c : Children α} (h : c.Each fun a => f a = g a) :
    c.map f = c.map g := by
  have inMembers {list : Option (List α)} (same : ∀ l, list = some l → ∀ a ∈ l, f a = g a) :
      list.map (List.map f) = list.map (List.map g) :=
    Option.map_congr fun l found => List.map_congr_left (same l found)
  rw [map, map, Option.map_congr h.not, Option.map_congr h.items, inMembers h.allOf,
    inMembers h.oneOf, inMembers h.anyOf]
  congr 1
  · refine Option.map_congr fun t found => List.map_congr_left fun e member => ?_
    exact congrArg (e.1, ·) (h.properties t found e member)
  · refine Option.map_congr fun additional found => ?_
    cases additional with
    | flag _ => rfl
    | schema a => exact congrArg Additional.schema (h.additional a found)

theorem map_id (c : Children α) : c.map id = c := by
  obtain ⟨not, items, properties, allOf, oneOf, anyOf, additional⟩ := c
  simp only [map, Option.map_id_fun, List.map_id_fun, id_eq]
  congr 1
  · cases properties <;> simp [Table.mapValues]
  · rcases additional with _ | _ | _ <;> rfl

theorem map_eq_self {f : α → α} {c : Children α} (h : c.Each fun a => f a = a) : c.map f = c :=
  (map_congr h).trans c.map_id

theorem Each.onto {p : α → Prop} {top base : Children α} (onTop : top.Each p)
    (below : base.Each p) : (top.onto base).Each p where
  not a h := (Option.or_eq_some_iff.mp h).elim (onTop.not a) fun h => below.not a h.2
  items a h := (Option.or_eq_some_iff.mp h).elim (onTop.items a) fun h => below.items a h.2
  additional a h :=
    (Option.or_eq_some_iff.mp h).elim (onTop.additional a) fun h => below.additional a h.2
  properties t h :=
    (Option.or_eq_some_iff.mp h).elim (onTop.properties t) fun h => below.properties t h.2
  allOf l h := (Option.or_eq_some_iff.mp h).elim (onTop.allOf l) fun h => below.allOf l h.2
  oneOf l h := (Option.or_eq_some_iff.mp h).elim (onTop.oneOf l) fun h => below.oneOf l h.2
  anyOf l h := (Option.or_eq_some_iff.mp h).elim (onTop.anyOf l) fun h => below.anyOf l h.2

end Children

namespace Keywords

/-- Every reference of the node satisfies the predicate. -/
structure Each (p : Reference → Prop) (k : Keywords) : Prop where
  reference : ∀ r, k.reference = some r → p r
  typeOf : ∀ r, k.typeOf = some r → p r
  ancestor : ∀ r, k.ancestor = some r → p r
  descendants : ∀ l, k.descendants = some l → ∀ r ∈ l, p r
  mapping : ∀ d, k.discriminator = some d → ∀ t, d.mapping = some t →
    ∀ raw ∈ Table.values t, ∀ r, Reference.parse? raw = some r → p r

theorem each_iff (p : Reference → Prop) (k : Keywords) :
    k.Each p ↔ ∀ r ∈ k.allReferences, p r := by
  have inDescendants : (∀ r ∈ k.descendants.getD [], p r) ↔
      ∀ l, k.descendants = some l → ∀ r ∈ l, p r := by
    cases k.descendants <;> simp
  have inMapping : (∀ r ∈ k.mappedReferences, p r) ↔ ∀ d, k.discriminator = some d →
      ∀ t, d.mapping = some t → ∀ raw ∈ Table.values t,
        ∀ r, Reference.parse? raw = some r → p r := by
    rw [mappedReferences]
    cases k.discriminator with
    | none => simp [Table.values]
    | some d =>
      cases mapping : d.mapping with
      | none => simp [mapping, Table.values]
      | some t => simp only [Option.bind_some, mapping, Option.getD_some, List.forall_mem_filterMap,
          Option.some.injEq, forall_eq']
  simp only [allReferences, typedReferences, references, List.map_append, List.map_map,
    Function.comp_def, List.map_id', List.forall_mem_append, inDescendants, inMapping,
    Option.mem_toList]
  constructor
  · rintro ⟨reference, typeOf, ancestor, descendants, mapping⟩
    exact ⟨⟨⟨⟨reference, typeOf⟩, ancestor⟩, descendants⟩, mapping⟩
  · rintro ⟨⟨⟨⟨reference, typeOf⟩, ancestor⟩, descendants⟩, mapping⟩
    exact ⟨reference, typeOf, ancestor, descendants, mapping⟩

theorem each_empty (p : Reference → Prop) : Each p {} :=
  ⟨by simp, by simp, by simp, by simp, by simp⟩

theorem Each.mono {p q : Reference → Prop} (weaker : ∀ r, p r → q r) {k : Keywords}
    (h : k.Each p) : k.Each q :=
  (each_iff q k).mpr fun r refers => weaker r ((each_iff p k).mp h r refers)

theorem Each.onto {p : Reference → Prop} {top base : Keywords} (onTop : top.Each p)
    (below : base.Each p) : (top.onto base).Each p where
  reference r h :=
    (Option.or_eq_some_iff.mp h).elim (onTop.reference r) fun h => below.reference r h.2
  typeOf r h := (Option.or_eq_some_iff.mp h).elim (onTop.typeOf r) fun h => below.typeOf r h.2
  ancestor r h := (Option.or_eq_some_iff.mp h).elim (onTop.ancestor r) fun h => below.ancestor r h.2
  descendants l h :=
    (Option.or_eq_some_iff.mp h).elim (onTop.descendants l) fun h => below.descendants l h.2
  mapping d h := (Option.or_eq_some_iff.mp h).elim (onTop.mapping d) fun h => below.mapping d h.2

end Keywords

namespace Schema
variable {β : Type}

/-- The keywords of the node and of the nodes below it satisfy the predicate. -/
def Every (holds : Keywords → Prop) (s : Schema) : Prop := ∀ node ∈ s.nodes, holds node

section
variable {holds : Keywords → Prop}

theorem every_mk_iff (holds : Keywords → Prop) (k : Keywords) (c : Children Schema) :
    Every holds ⟨k, c⟩ ↔ holds k ∧ c.Each (Every holds) := by
  simp only [Every, mem_nodes_mk, Children.each_iff]
  constructor
  · intro all
    exact ⟨all k (Or.inl rfl), fun child member node inside =>
      all node (Or.inr ⟨child, member, inside⟩)⟩
  · rintro ⟨own, below⟩ node (rfl | ⟨child, member, inside⟩)
    · exact own
    · exact below child member node inside

theorem Every.mk {k : Keywords} {c : Children Schema} (own : holds k)
    (below : c.Each (Every holds)) : Every holds ⟨k, c⟩ :=
  (every_mk_iff holds k c).mpr ⟨own, below⟩

theorem Every.own {s : Schema} (h : s.Every holds) : holds s.keywords := by
  obtain ⟨k, c⟩ := s
  exact ((every_mk_iff holds k c).mp h).1

theorem Every.below {s : Schema} (h : s.Every holds) : s.children.Each (Every holds) := by
  obtain ⟨k, c⟩ := s
  exact ((every_mk_iff holds k c).mp h).2

theorem Every.rekey {after : Keywords → Prop} {g : Keywords → Keywords}
    (turns : ∀ k, holds k → after (g k)) {s : Schema} (h : s.Every holds) :
    (s.rekey g).Every after := by
  rw [Every, nodes_rekey]
  exact List.forall_mem_map.mpr fun node inside => turns node (h node inside)

/-- Only the reference of the first `allOf` member changes. -/
theorem Every.mapBase {f : Reference → Reference} {s : Schema} (h : s.Every holds)
    (turns : ∀ k, holds k → k.reference = s.base? →
      holds { k with reference := k.reference.map f }) : (s.mapBase f).Every holds := by
  rw [Schema.mapBase]
  split
  · rename_i first rest members
    obtain ⟨base, others⟩ := List.forall_mem_cons.mp (h.below.allOf _ members)
    have turned := turns first.keywords base.own (by simp [base?, members])
    refine .mk h.own { h.below with allOf := forall_eq_some ?_ }
    exact List.forall_mem_cons.mpr ⟨.mk turned base.below, others⟩
  · exact h

theorem mem_of_member? {list : Option (List Schema)} {i : String} {s : Schema}
    (found : descend.member? list i = some s) : ∃ l, list = some l ∧ s ∈ l := by
  unfold descend.member? at found
  obtain ⟨l, listed, found⟩ := Option.bind_eq_some_iff.mp found
  obtain ⟨index, _, found⟩ := Option.bind_eq_some_iff.mp found
  exact ⟨l, listed, List.mem_of_getElem? found⟩

/-- The node that a path leads to is one of the schema's own. -/
theorem of_descend {p : Schema → Prop} (below : ∀ s, p s → s.children.Each p)
    (segments : List String) {s t : Schema} (h : p s) (found : descend segments s = some t) : p t := by
  unfold descend at found
  split at found
  · cases found
    exact h
  · rename_i rest
    obtain ⟨child, held, found⟩ := Option.bind_eq_some_iff.mp found
    exact of_descend below rest ((below s h).items child held) found
  · rename_i rest
    obtain ⟨child, held, found⟩ := Option.bind_eq_some_iff.mp found
    exact of_descend below rest ((below s h).not child held) found
  · rename_i rest
    obtain ⟨child, held, found⟩ := Option.bind_eq_some_iff.mp found
    obtain ⟨additional, allowed, held⟩ := Option.bind_eq_some_iff.mp held
    cases additional with
    | flag => cases held
    | schema value =>
      cases held
      exact of_descend below rest ((below s h).additional child allowed) found
  · rename_i rest
    obtain ⟨child, held, found⟩ := Option.bind_eq_some_iff.mp found
    obtain ⟨properties, listed, held⟩ := Option.bind_eq_some_iff.mp held
    exact of_descend below rest ((below s h).properties properties listed _ (Table.mem_of_get? held))
      found
  · rename_i rest
    obtain ⟨child, held, found⟩ := Option.bind_eq_some_iff.mp found
    obtain ⟨members, listed, member⟩ := mem_of_member? held
    exact of_descend below rest ((below s h).allOf members listed child member) found
  · rename_i rest
    obtain ⟨child, held, found⟩ := Option.bind_eq_some_iff.mp found
    obtain ⟨members, listed, member⟩ := mem_of_member? held
    exact of_descend below rest ((below s h).oneOf members listed child member) found
  · rename_i rest
    obtain ⟨child, held, found⟩ := Option.bind_eq_some_iff.mp found
    obtain ⟨members, listed, member⟩ := mem_of_member? held
    exact of_descend below rest ((below s h).anyOf members listed child member) found
  · cases found
termination_by segments.length

theorem para_mk (f : Keywords → Children (Schema × β) → β) (k : Keywords) (c : Children Schema) :
    para f ⟨k, c⟩ = f k (c.map fun child => (child, para f child)) := by
  have itself (s : Schema) :
      (fold (fun k c => ((⟨k, c.map Prod.fst⟩ : Schema), f k c)) s).1 = s := by
    induction s using children_induction with
    | step k c ih =>
      rw [fold_mk, Children.map_map, Children.map_eq_self ((Children.each_iff _ c).mpr ih)]
  have paired (s : Schema) :
      fold (fun k c => ((⟨k, c.map Prod.fst⟩ : Schema), f k c)) s = (s, para f s) :=
    Prod.ext (itself s) rfl
  rw [para, fold_mk]
  simp only [funext paired]

end

/-- Every reference of the node and of the nodes below it satisfies the predicate. -/
def Each (p : Reference → Prop) (s : Schema) : Prop := ∀ node ∈ s.nodes, node.Each p

theorem Each.mk {p : Reference → Prop} {k : Keywords} {c : Children Schema} (own : k.Each p)
    (below : c.Each (Each p)) : Each p ⟨k, c⟩ := Every.mk own below

theorem Each.own {p : Reference → Prop} {s : Schema} (h : s.Each p) : s.keywords.Each p :=
  Every.own h

theorem Each.below {p : Reference → Prop} {s : Schema} (h : s.Each p) :
    s.children.Each (Each p) := Every.below h

theorem Each.mono {p q : Reference → Prop} (weaker : ∀ r, p r → q r) {s : Schema} (h : s.Each p) :
    s.Each q := fun node inside => (h node inside).mono weaker

theorem Each.base {p : Reference → Prop} {s : Schema} (h : s.Each p) :
    ∀ r, s.base? = some r → p r := by
  intro r based
  obtain ⟨members, listed, based⟩ := Option.bind_eq_some_iff.mp based
  obtain ⟨first, head, refers⟩ := Option.bind_eq_some_iff.mp based
  exact (h.below.allOf members listed first (List.mem_of_mem_head? head)).own.reference r refers

theorem Each.mapBase {p : Reference → Prop} {f : Reference → Reference} {s : Schema} (h : s.Each p)
    (turns : ∀ r, s.base? = some r → p (f r)) : (s.mapBase f).Each p := by
  refine Every.mapBase h fun k own based => { own with reference := ?_ }
  simp only [Option.map_eq_some_iff]
  rintro _ ⟨r, refers, rfl⟩
  exact turns r (based.symm.trans refers)

theorem Each.onto {p : Reference → Prop} {top base : Schema} (onTop : top.Each p)
    (below : base.Each p) : (top.onto base).Each p :=
  .mk (onTop.own.onto below.own) (onTop.below.onto below.below)

theorem Each.withoutReference {p : Reference → Prop} {s : Schema} (h : s.Each p) :
    Each p { s with keywords.reference := none } :=
  .mk { h.own with reference := by simp } h.below

end Schema

theorem Definitions.target?_of_resolve {graph : Definitions} {r : Reference} {target : Schema}
    {location : String} (resolved : graph.resolve r location = .ok target) :
    graph.target? r = some target := by
  rw [resolve] at resolved
  split at resolved
  · rename_i leads
    cases resolved
    exact leads
  · cases resolved

end SchemaGraph
