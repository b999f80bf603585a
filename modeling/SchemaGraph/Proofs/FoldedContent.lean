import SchemaGraph.Pass.Repetition
import SchemaGraph.Proofs.Distinct
import SchemaGraph.Proofs.Entered
import SchemaGraph.Proofs.RelatedWalks

/- What folding a group makes of its content, node by node: the members of one composition and the
   array properties are folded on, every other property stays or becomes an array. -/
namespace SchemaGraph

theorem mapM_eq_ok_iff {ε α β : Type} {f : α → Except ε β} {l : List α} {l' : List β} :
    l.mapM f = .ok l' ↔ List.Forall₂ (fun a b => f a = .ok b) l l' := by
  induction l generalizing l' with
  | nil =>
    rw [List.mapM_nil, List.forall₂_nil_left_iff]
    exact ⟨fun same => (Except.ok.inj same).symm, fun same => congrArg Except.ok same.symm⟩
  | cons a rest ih =>
    rw [List.mapM_cons, List.forall₂_cons_left_iff]
    constructor
    · intro mapped
      obtain ⟨b, first, mapped⟩ := of_bind_eq_ok mapped
      obtain ⟨bs, others, mapped⟩ := of_bind_eq_ok mapped
      exact ⟨b, bs, first, ih.mp others, (Except.ok.inj mapped).symm⟩
    · rintro ⟨b, bs, first, others, rfl⟩
      rw [first, ih.mpr others]
      rfl

theorem exists_mapM_eq_ok {ε α β : Type} {f : α → Except ε β} {l : List α}
    (each : ∀ a ∈ l, ∃ b, f a = .ok b) : ∃ l', l.mapM f = .ok l' := by
  induction l with
  | nil => exact ⟨[], rfl⟩
  | cons a rest ih =>
    obtain ⟨⟨b, first⟩, others⟩ := List.forall_mem_cons.mp each
    obtain ⟨bs, mapped⟩ := ih others
    exact ⟨b :: bs, mapM_eq_ok_iff.mpr (.cons first (mapM_eq_ok_iff.mp mapped))⟩

theorem exists_of_mem_right {α β : Type} {rel : α → β → Prop} {l : List α} {l' : List β}
    (pairs : List.Forall₂ rel l l') {b : β} (listed : b ∈ l') : ∃ a ∈ l, rel a b := by
  induction pairs with
  | nil => cases listed
  | @cons a _ _ _ first _ ih =>
    rcases List.mem_cons.mp listed with rfl | later
    · exact ⟨a, List.mem_cons_self, first⟩
    · obtain ⟨a', inside, related⟩ := ih later
      exact ⟨a', List.mem_cons_of_mem _ inside, related⟩

theorem forall₂_trans {α β γ : Type} {rel : α → β → Prop} {other : β → γ → Prop}
    {whole : α → γ → Prop} (each : ∀ a b c, rel a b → other b c → whole a c) {l : List α}
    {l' : List β} {l'' : List γ} (first : List.Forall₂ rel l l') (next : List.Forall₂ other l' l'') :
    List.Forall₂ whole l l'' := by
  induction first generalizing l'' with
  | nil =>
    cases next
    exact .nil
  | cons here _ ih =>
    cases next with
    | cons here' later => exact .cons (each _ _ _ here here') (ih later)

theorem forall_mem_iff_of_forall₂ {α β : Type} {p : α → Prop} {q : β → Prop} {l : List α}
    {l' : List β} (pairs : List.Forall₂ (fun a b => p a ↔ q b) l l') :
    (∀ a ∈ l, p a) ↔ ∀ b ∈ l', q b := by
  induction pairs with
  | nil => simp
  | cons first _ ih => rw [List.forall_mem_cons, List.forall_mem_cons, first, ih]

/-- The members of compositions that groups stand among. -/
def Children.slots {α : Type} (c : Children α) : List α := c.allOf.getD [] ++ c.oneOf.getD []

namespace Repetition

/-- Folds the content of a child, or of what it refers to. -/
def foldChild (g : Setting) (hops : Nat) (b : Bounds) (child : Schema) : Except Error Schema :=
  match child.keywords.reference with
  | none => fold g (hops + 1) child b
  | some r => do fold g hops (← g.graph.resolve r g.location) b

/-- The node with the members of one composition folded. -/
def foldMembers (g : Setting) (hops : Nat) (b : Bounds) (s : Schema) : Except Error Schema :=
  match s.children.oneOf, s.children.allOf with
  | some members, _ => do
    return { s with children.oneOf := some (← members.mapM (foldChild g hops b)) }
  | none, some members => do
    return { s with children.allOf := some (← members.mapM (foldChild g hops b)) }
  | none, none => return s

/-- The bounds that a group has for a property. -/
def Bounds.forProperty (b : Bounds) (required : Bool) : Bounds :=
  ⟨if required then b.min else 0, b.max⟩

def foldProperty (g : Setting) (hops : Nat) (b : Bounds) (required : List String)
    (e : String × Schema) : Except Error (String × Schema) :=
  if e.2.isArray then do
    return (e.1, ← foldChild g hops (b.forProperty (required.contains e.1)) e.2)
  else if b.max = some 1 then return (e.1, e.2)
  else do return (e.1, ← wrap g (b.forProperty (required.contains e.1)) e.2)

/-- The node with its own bounds or its properties folded. -/
def foldContent (g : Setting) (hops : Nat) (b : Bounds) (properties : Option (Table Schema))
    (node : Schema) : Except Error Schema :=
  if node.isArray then .ok { node with keywords := boundArray g.group b node.keywords }
  else match properties with
    | none => .ok node
    | some t => do
      let t ← t.mapM (foldProperty g hops b (node.keywords.required.getD []))
      return { node with
        children.properties := some t
        keywords.required := if b.min = 0 then none else node.keywords.required }

/-- A fold by what it makes of the children. -/
theorem fold_succ (g : Setting) (hops : Nat) (s : Schema) (b : Bounds) :
    fold g (hops + 1) s b =
      (foldMembers g hops b s).bind (foldContent g hops b s.children.properties) := by
  obtain ⟨k, c⟩ := s
  have same : c.map (fun child => child) = c := c.map_id
  let visit (child : Child) (b : Bounds) : Except Error Schema :=
    match child.1.keywords.reference with
    | none => child.2 b
    | some r => do fold g hops (← g.graph.resolve r g.location) b
  let paired (child : Schema) : Child := (child, child.para (boundNode g visit))
  have child (x : Schema) (b : Bounds) : visit (paired x) b = foldChild g hops b x := rfl
  have mapped (l : List Schema) :
      (l.map paired).mapM (visit · b) = l.mapM (foldChild g hops b) := by
    rw [List.mapM_map]
    rfl
  have members : boundMembers visit k (c.map paired) b = foldMembers g hops b ⟨k, c⟩ := by
    have node : (c.map paired).map Prod.fst = c := by rw [Children.map_map, same]
    rw [boundMembers, foldMembers, node]
    dsimp only [Children.map]
    cases c.oneOf with
    | some l => simp only [Option.map_some, mapped]
    | none => cases c.allOf with
      | some l => simp only [Option.map_some, Option.map_none, mapped]
      | none => rfl
  have content (node : Schema) : boundContent g visit (c.map paired).properties b node =
      foldContent g hops b c.properties node := by
    unfold boundContent foldContent
    cases held : c.properties with
    | none => simp [Children.map, held]; rfl
    | some t =>
      simp only [Children.map, held, Option.map_some, Table.mapValues, List.mapM_map]
      rfl
  rw [fold, Schema.para_mk]
  change boundNode g visit k (c.map paired) b = _
  rw [boundNode, members, funext content]
  rfl

/-- The members that a fold goes on with: a choice before a sequence. -/
def members (s : Schema) : List Schema := s.children.oneOf.getD (s.children.allOf.getD [])

/-- The children that a fold of the node goes on with. -/
def followed (s : Schema) : List Schema :=
  members s ++ if s.isArray then [] else
    ((s.children.properties.map Table.values).getD []).filter Schema.isArray

/-- The property has become an array of what it was. -/
structure Wraps (property wrapped : Schema) : Prop where
  reference : wrapped.keywords.reference = none
  isArray : wrapped.isArray = true
  children : wrapped.children = { items := some property }

/-- What a fold puts in the place of a child of the node: the child, or what comes of the content
that it stands for. -/
inductive Carried (g : Setting) (rel : Schema → Schema → Prop) (s child : Schema) : Schema → Prop where
  | kept : Carried g rel s child child
  | folded {content left : Schema} (follows : child ∈ followed s)
      (stands : g.graph.deref child g.location = .ok content) (related : rel content left) :
      Carried g rel s child left

/-- What a fold makes of a node when it makes what is related of the content that it follows. -/
structure Rebuilt (g : Setting) (rel : Schema → Schema → Prop) (s left : Schema) : Prop where
  reference : left.keywords.reference = s.keywords.reference
  type : left.keywords.type = s.keywords.type
  items : left.children.items = s.children.items
  kinds : left.children.kinds = s.children.kinds
  skipped : left.children.skipped = s.children.skipped
  slots : List.Forall₂ (Carried g rel s) s.children.slots left.children.slots
  entered : List.Forall₂ (fun child left => Carried g rel s child left ∨ Wraps child left)
    s.children.entered.toList left.children.entered.toList
  followed : ∀ child ∈ followed left, (∃ property, Wraps property child) ∨
    ∃ origin ∈ followed s, ∃ content, g.graph.deref origin g.location = .ok content ∧
      rel content child

section
variable {g : Setting} {hops : Nat} {b : Bounds} {rel : Schema → Schema → Prop} {s : Schema}

/-- Folding a child of the node makes what is related of the content. -/
def Leads (g : Setting) (hops : Nat) (rel : Schema → Schema → Prop) (s : Schema) : Prop :=
  ∀ child ∈ s.children.toList, ∀ b left, foldChild g hops b child = .ok left →
    ∃ content, g.graph.deref child g.location = .ok content ∧ rel content left

theorem mem_toList_of_members {child : Schema} (member : child ∈ members s) :
    child ∈ s.children.toList := by
  simp only [Children.toList, List.mem_append]
  rw [members] at member
  cases held : s.children.oneOf with
  | none =>
    rw [held, Option.getD_none] at member
    tauto
  | some l =>
    rw [held, Option.getD_some] at member
    simp only [Option.getD_some]
    tauto

theorem mem_toList_of_followed {child : Schema} (follows : child ∈ followed s) :
    child ∈ s.children.toList := by
  rcases List.mem_append.mp follows with member | property
  · exact mem_toList_of_members member
  · split at property
    · cases property
    · have listed := (List.mem_filter.mp property).1
      simp only [Children.toList, List.mem_append]
      tauto

theorem Leads.forall₂ (leads : Leads g hops rel s) {l left : List Schema} (all : l = members s)
    (folded : l.mapM (foldChild g hops b) = .ok left) :
    List.Forall₂ (fun child left => child ∈ members s ∧
      ∃ content, g.graph.deref child g.location = .ok content ∧ rel content left) l left := by
  subst all
  have each := (List.forall₂_and_left _ _ (p := (· ∈ members s))).mpr
    ⟨fun _ member => member, mapM_eq_ok_iff.mp folded⟩
  exact each.imp fun child left related =>
    ⟨related.1, leads child (mem_toList_of_members related.1) b left related.2⟩

/-- What a fold leaves of the compositions of a node. -/
theorem Leads.foldMembers (leads : Leads g hops rel s) {node : Schema}
    (made : foldMembers g hops b s = .ok node) :
    node.keywords = s.keywords ∧ ∃ allOf oneOf, node.children = { s.children with allOf, oneOf } ∧
      node.children.kinds = s.children.kinds ∧
      List.Forall₂ (Carried g rel s) (s.children.allOf.getD []) (allOf.getD []) ∧
      List.Forall₂ (Carried g rel s) (s.children.oneOf.getD []) (oneOf.getD []) ∧
      ∀ child ∈ members node, ∃ origin ∈ members s, ∃ content,
        g.graph.deref origin g.location = .ok content ∧ rel content child := by
  have kept (l : List Schema) : List.Forall₂ (Carried g rel s) l l :=
    List.forall₂_same.mpr fun _ _ => .kept
  have turned {l left : List Schema} (all : l = members s)
      (folded : l.mapM (foldChild g hops b) = .ok left) :
      List.Forall₂ (Carried g rel s) l left ∧ ∀ child ∈ left, ∃ origin ∈ members s, ∃ content,
        g.graph.deref origin g.location = .ok content ∧ rel content child := by
    have pairs := leads.forall₂ all folded
    constructor
    · refine pairs.imp fun child left turned => ?_
      obtain ⟨member, content, stands, related⟩ := turned
      exact .folded (List.mem_append_left _ member) stands related
    · intro child listed
      obtain ⟨origin, _, member, related⟩ := exists_of_mem_right pairs listed
      exact ⟨origin, member, related⟩
  unfold Repetition.foldMembers at made
  split at made
  · rename_i l _ held
    obtain ⟨left, folded, made⟩ := of_bind_eq_ok made
    cases made
    obtain ⟨pairs, origins⟩ := turned (by rw [members, held, Option.getD_some]) folded
    exact ⟨rfl, s.children.allOf, some left, rfl, by simp [Children.kinds, held], kept _,
      held ▸ pairs, origins⟩
  · rename_i l absent held
    obtain ⟨left, folded, made⟩ := of_bind_eq_ok made
    cases made
    obtain ⟨pairs, origins⟩ :=
      turned (by rw [members, absent, held, Option.getD_none, Option.getD_some]) folded
    refine ⟨rfl, some left, s.children.oneOf, rfl, by simp [Children.kinds, held], held ▸ pairs,
      kept _, ?_⟩
    rw [members, absent]
    exact origins
  · rename_i absent none
    cases made
    refine ⟨rfl, s.children.allOf, s.children.oneOf, rfl, rfl, kept _, kept _, ?_⟩
    rw [members, absent, none]
    intro child listed
    cases listed

/-- What a fold puts in the place of a property of the node. -/
inductive PropertyLeft (g : Setting) (rel : Schema → Schema → Prop) (s property : Schema) :
    Schema → Prop where
  | kept (stays : s.isArray = true ∨ property.isArray = false) : PropertyLeft g rel s property property
  | folded {content left : Schema} (single : s.isArray = false) (many : property.isArray = true)
      (stands : g.graph.deref property g.location = .ok content) (related : rel content left) :
      PropertyLeft g rel s property left
  | wrapped {left : Schema} (wraps : Wraps property left) : PropertyLeft g rel s property left

theorem propertyLeft_of_foldProperty {required : List String} {e left : String × Schema}
    (single : s.isArray = false)
    (leads : ∀ b left, foldChild g hops b e.2 = .ok left →
      ∃ content, g.graph.deref e.2 g.location = .ok content ∧ rel content left)
    (made : foldProperty g hops b required e = .ok left) : PropertyLeft g rel s e.2 left.2 := by
  rw [foldProperty] at made
  split at made
  · rename_i many
    obtain ⟨folded, visited, made⟩ := of_bind_eq_ok made
    cases made
    obtain ⟨content, stands, related⟩ := leads _ _ visited
    exact .folded single many stands related
  · rename_i one
    split at made
    · cases made
      exact .kept (Or.inr (by simpa using one))
    · obtain ⟨wrapped, made', made⟩ := of_bind_eq_ok made
      cases made
      obtain ⟨target, _, made'⟩ := of_bind_eq_ok made'
      cases made'
      exact .wrapped ⟨rfl, rfl, rfl⟩

/-- What a fold leaves of the keywords of a node and of its properties. -/
theorem Leads.foldContent (leads : Leads g hops rel s) {node left : Schema}
    (keywords : node.keywords = s.keywords) (held : node.children.properties = s.children.properties)
    (made : foldContent g hops b s.children.properties node = .ok left) :
    left.keywords.reference = s.keywords.reference ∧ left.keywords.type = s.keywords.type ∧
      ∃ properties, left.children = { node.children with properties } ∧
        left.children.kinds = node.children.kinds ∧
        List.Forall₂ (PropertyLeft g rel s) ((s.children.properties.map Table.values).getD [])
          ((properties.map Table.values).getD []) := by
  have array : node.isArray = s.isArray := by rw [Schema.isArray, Schema.hasType, keywords]; rfl
  unfold Repetition.foldContent at made
  rw [array] at made
  split at made
  · rename_i isArray
    cases made
    refine ⟨by rw [← keywords]; rfl, by rw [← keywords]; rfl, s.children.properties, by rw [← held],
      rfl, ?_⟩
    exact List.forall₂_same.mpr fun _ _ => .kept (Or.inl isArray)
  · rename_i single
    split at made
    · rename_i none
      cases made
      refine ⟨by rw [keywords], by rw [keywords], s.children.properties, by rw [← held], rfl, ?_⟩
      rw [none]
      exact .nil
    · rename_i t listed
      obtain ⟨t', folded, made⟩ := of_bind_eq_ok made
      cases made
      refine ⟨by rw [← keywords], by rw [← keywords], some t', rfl,
        by simp [Children.kinds, held, listed], ?_⟩
      rw [listed, Option.map_some, Option.map_some, Option.getD_some, Option.getD_some, Table.values,
        Table.values, List.forall₂_map_left_iff, List.forall₂_map_right_iff]
      have inside : ∀ e ∈ t, e.2 ∈ s.children.toList := fun e member => by
        have value : e.2 ∈ (s.children.properties.map Table.values).getD [] := by
          rw [listed]
          exact List.mem_map_of_mem member
        simp only [Children.toList, List.mem_append]
        tauto
      refine ((List.forall₂_and_left _ _ (p := (· ∈ t))).mpr
        ⟨fun _ member => member, mapM_eq_ok_iff.mp folded⟩).imp fun e left related => ?_
      exact propertyLeft_of_foldProperty (by simpa using single) (leads e.2 (inside e related.1))
        related.2

theorem mem_followed_of_property (single : s.isArray = false) {property : Schema}
    (listed : property ∈ (s.children.properties.map Table.values).getD [])
    (many : property.isArray = true) : property ∈ followed s := by
  refine List.mem_append_right _ ?_
  rw [if_neg (by simp [single])]
  exact List.mem_filter.mpr ⟨listed, many⟩

/-- A property is carried over, or it has become an array. -/
theorem PropertyLeft.carried {property left : Schema} (made : PropertyLeft g rel s property left)
    (listed : property ∈ (s.children.properties.map Table.values).getD []) :
    Carried g rel s property left ∨ Wraps property left := by
  cases made with
  | kept => exact Or.inl .kept
  | folded single many stands related =>
    exact Or.inl (.folded (mem_followed_of_property single listed many) stands related)
  | wrapped wraps => exact Or.inr wraps

/-- A property of a node that is no array is an array when it has become one or stood for content. -/
theorem PropertyLeft.followed {property left : Schema} (made : PropertyLeft g rel s property left)
    (listed : property ∈ (s.children.properties.map Table.values).getD [])
    (single : s.isArray = false) (many : left.isArray = true) :
    (∃ property, Wraps property left) ∨ ∃ origin ∈ Repetition.followed s, ∃ content,
      g.graph.deref origin g.location = .ok content ∧ rel content left := by
  cases made with
  | kept stays =>
    rw [single, many] at stays
    simp at stays
  | folded _ many stands related =>
    exact Or.inr ⟨property, mem_followed_of_property single listed many, _, stands, related⟩
  | wrapped wraps => exact Or.inl ⟨property, wraps⟩

/-- One step of a fold. -/
theorem rebuilt_of_fold {left : Schema} (leads : Leads g hops rel s)
    (folded : fold g (hops + 1) s b = .ok left) : Rebuilt g rel s left := by
  rw [fold_succ] at folded
  obtain ⟨node, made, folded⟩ := of_bind_eq_ok folded
  obtain ⟨keywords, allOf, oneOf, parts, kinds, inAllOf, inOneOf, origins⟩ :=
    leads.foldMembers made
  obtain ⟨reference, type, properties, children, kinds', inProperties⟩ :=
    leads.foldContent keywords (by rw [parts]) folded
  rw [parts] at children
  have array : left.isArray = s.isArray := by rw [Schema.isArray, Schema.hasType, type]; rfl
  have same : members left = members node := by rw [members, members, children, parts]
  have made := (List.forall₂_and_left _ _).mpr ⟨fun _ member => member, inProperties⟩
  refine ⟨reference, type, by rw [children], kinds'.trans kinds, by rw [children]; rfl, ?_, ?_, ?_⟩
  · rw [children]
    exact List.rel_append inAllOf inOneOf
  · have keep (l : List Schema) : List.Forall₂ (fun child left => Carried g rel s child left ∨
        Wraps child left) l l := List.forall₂_same.mpr fun _ _ => Or.inl .kept
    have widen {l l' : List Schema} (pairs : List.Forall₂ (Carried g rel s) l l') :
        List.Forall₂ (fun child left => Carried g rel s child left ∨ Wraps child left) l l' :=
      pairs.imp fun _ _ => Or.inl
    rw [children]
    exact List.rel_append (List.rel_append (List.rel_append (List.rel_append (keep _)
      (made.imp fun _ _ both => both.2.carried both.1)) (widen inAllOf)) (widen inOneOf)) (keep _)
  · intro child follows
    rw [followed, same, array, children] at follows
    rcases List.mem_append.mp follows with member | property
    · obtain ⟨origin, member, related⟩ := origins child member
      exact Or.inr ⟨origin, List.mem_append_left _ member, related⟩
    · split at property
      · cases property
      · rename_i single
        obtain ⟨listed, many⟩ := List.mem_filter.mp property
        obtain ⟨origin, inside, member, left⟩ := exists_of_mem_right made listed
        exact left.followed member (by simpa using single) many

/-- What a step keeps, a fold keeps. -/
theorem fold_induction (step : ∀ s left, Rebuilt g rel s left → rel s left) {s left : Schema}
    (folded : fold g hops s b = .ok left) : rel s left := by
  induction hops generalizing s left b with
  | zero => cases folded
  | succ hops ih =>
    -- Over the references on the way; between two of them over the schema itself.
    induction s using Schema.children_induction generalizing left b with
    | step k c below =>
      refine step _ _ (rebuilt_of_fold (fun child listed b left folded => ?_) folded)
      rw [foldChild] at folded
      split at folded
      · rename_i inline
        exact ⟨child, by rw [Definitions.deref, inline], below child listed folded⟩
      · rename_i r refers
        obtain ⟨target, resolved, folded⟩ := of_bind_eq_ok folded
        exact ⟨target, by rw [Definitions.deref, refers]; exact resolved, ih folded⟩

end

end Repetition
end SchemaGraph
