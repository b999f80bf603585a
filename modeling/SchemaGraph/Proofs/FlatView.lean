import SchemaGraph.Proofs.Squashing

/- What a schema shows once the members of its compositions are read as parts of it. A member that
   refers elsewhere shows its reference only; every other one shows what it declares, and of several
   declarations of one property the first counts. Squashing takes members out of a schema and moves
   them into it without a change to what is shown, at every node that can be reached this way. -/
namespace SchemaGraph

namespace Table
variable {α β : Type}

/-- Adds the entries whose keys are not known yet. -/
def join (t entries : Table α) : Table α := entries.foldl (fun t e => t.putNew e.1 e.2) t

/-- The first entry under every key. -/
def firsts (entries : Table α) : Table α := join [] entries

theorem join_concat (t entries : Table α) (e : String × α) :
    t.join (entries ++ [e]) = (t.join entries).putNew e.1 e.2 := List.foldl_concat _ _ _ _

theorem firsts_concat (entries : Table α) (e : String × α) :
    firsts (entries ++ [e]) = (firsts entries).putNew e.1 e.2 := join_concat [] entries e

theorem putNew_eq (t : Table α) (key : String) (value : α) :
    t.putNew key value = if t.has key then t else t ++ [(key, value)] := by
  rw [putNew]
  split
  · rfl
  · rename_i fresh
    exact put_of_fresh (fun known => fresh ((has_iff_mem_keys t key).mpr known)) value

theorem get?_join (t entries : Table α) (key : String) :
    (t.join entries).get? key = (t.get? key).or (get? entries key) := by
  induction entries generalizing t with
  | nil => exact (Option.or_none).symm
  | cons e rest ih =>
    have later : t.join (e :: rest) = (t.putNew e.1 e.2).join rest := rfl
    rw [later, ih, putNew_eq, get?]
    split
    · rename_i known
      split
      · rename_i same
        obtain ⟨value, found⟩ := Option.isSome_iff_exists.mp (same ▸ known)
        rw [found, Option.some_or, Option.some_or]
      · rfl
    · rw [get?_append, Option.or_assoc, get?, get?]
      split <;> rfl

theorem has_join (t entries : Table α) (key : String) :
    (t.join entries).has key = (t.has key || has entries key) := by
  rw [has, get?_join, Option.isSome_or]
  rfl

theorem has_firsts (entries : Table α) (key : String) :
    (firsts entries).has key = has entries key := has_join [] entries key

/-- What is joined to a table is what comes first under the keys that it lacks. -/
theorem join_eq (t entries : Table α) :
    t.join entries = t ++ (firsts entries).filter fun e => !t.has e.1 := by
  induction entries using List.reverseRecOn with
  | nil => exact (List.append_nil t).symm
  | append_singleton entries e ih =>
    rw [join_concat, putNew_eq, has_join, firsts_concat, putNew_eq, has_firsts, ih]
    cases held : t.has e.1 <;> cases has entries e.1 <;> simp [held]

theorem firsts_append (a b : Table α) :
    firsts (a ++ b) = firsts a ++ (firsts b).filter fun e => !(firsts a).has e.1 := by
  rw [← join_eq]
  exact List.foldl_append

theorem firsts_join (a b : Table α) : firsts (a.join b) = firsts (a ++ b) := by
  induction b using List.reverseRecOn with
  | nil => rw [List.append_nil]; rfl
  | append_singleton b e ih =>
    have known : (a.join b).has e.1 = has (a ++ b) e.1 := by rw [← has_firsts, ih, has_firsts]
    rw [join_concat, ← List.append_assoc, firsts_concat, putNew_eq, putNew_eq, has_firsts, ← known]
    split
    · exact ih
    · rename_i fresh
      rw [firsts_concat, putNew_eq, has_firsts, if_neg fresh, ih]

theorem firsts_map (f : String → α → β) (entries : Table α) :
    firsts (entries.map fun e => (e.1, f e.1 e.2)) =
      (firsts entries).map fun e => (e.1, f e.1 e.2) := by
  have has_map (t : Table α) (key : String) :
      has (t.map fun e => (e.1, f e.1 e.2)) key = t.has key := by
    rw [Bool.eq_iff_iff, has_iff_mem_keys, has_iff_mem_keys, keys, List.map_map]
    rfl
  induction entries using List.reverseRecOn with
  | nil => rfl
  | append_singleton entries e ih =>
    rw [List.map_append, List.map_singleton, firsts_concat, firsts_concat, ih, putNew_eq, putNew_eq,
      has_map]
    split
    · rfl
    · rw [List.map_append, List.map_singleton]

theorem get?_map (f : String → α → β) (t : Table α) (key : String) :
    get? (t.map fun e => (e.1, f e.1 e.2)) key = (t.get? key).map (f key) := by
  induction t with
  | nil => rfl
  | cons e rest ih =>
    rw [List.map_cons, get?, get?]
    split
    · rename_i same
      rw [Option.map_some, same]
    · exact ih

end Table

/-- What a schema shows. -/
@[ext]
structure View where
  /-- Every declaration of a property, in order. -/
  properties : Table Schema := []
  references : List Reference := []
  required : List String := []

namespace View

def append (v w : View) : View where
  properties := v.properties ++ w.properties
  references := v.references ++ w.references
  required := v.required ++ w.required

instance : Append View := ⟨append⟩

def concat (views : List View) : View := views.foldr append {}

/-- The names of the properties, in the order in which they are declared first. -/
def names (v : View) : List String := (Table.firsts v.properties).keys

/-- Changes the schemas of the properties. -/
def mapSchemas (f : String → Schema → Schema) (v : View) : View :=
  { v with properties := v.properties.map fun e => (e.1, f e.1 e.2) }

theorem append_empty (v : View) : v ++ {} = v :=
  View.ext (List.append_nil _) (List.append_nil _) (List.append_nil _)

theorem empty_append (v : View) : {} ++ v = v := rfl

theorem append_assoc (u v w : View) : u ++ v ++ w = u ++ (v ++ w) :=
  View.ext (List.append_assoc _ _ _) (List.append_assoc _ _ _) (List.append_assoc _ _ _)

theorem concat_cons (v : View) (rest : List View) : concat (v :: rest) = v ++ concat rest := rfl

theorem concat_append (l more : List View) : concat (l ++ more) = concat l ++ concat more := by
  induction l with
  | nil => rfl
  | cons v rest ih => rw [List.cons_append, concat_cons, concat_cons, ih, append_assoc]

theorem mapSchemas_append (f : String → Schema → Schema) (v w : View) :
    (v ++ w).mapSchemas f = v.mapSchemas f ++ w.mapSchemas f :=
  View.ext List.map_append rfl rfl

theorem mapSchemas_concat (f : String → Schema → Schema) (l : List View) :
    (concat l).mapSchemas f = concat (l.map (mapSchemas f)) := by
  induction l with
  | nil => rfl
  | cons v rest ih => rw [List.map_cons, concat_cons, concat_cons, mapSchemas_append, ih]

/-- Two views that a reader cannot tell apart. -/
structure Same (v w : View) : Prop where
  properties : Table.firsts v.properties = Table.firsts w.properties
  references : v.references = w.references
  required : ∀ name, name ∈ v.required ↔ name ∈ w.required

namespace Same
variable {u v w v' w' : View}

theorem refl (v : View) : Same v v := ⟨rfl, rfl, fun _ => Iff.rfl⟩

theorem of_eq (same : v = w) : Same v w := same ▸ refl v

theorem trans (first : Same u v) (second : Same v w) : Same u w where
  properties := first.properties.trans second.properties
  references := first.references.trans second.references
  required name := (first.required name).trans (second.required name)

theorem append (left : Same v v') (right : Same w w') : Same (v ++ w) (v' ++ w') where
  properties := by
    have split (a b : View) : Table.firsts (a ++ b).properties = Table.firsts a.properties ++
        (Table.firsts b.properties).filter fun e => !(Table.firsts a.properties).has e.1 :=
      Table.firsts_append a.properties b.properties
    rw [split, split, left.properties, right.properties]
  references := congrArg₂ (· ++ ·) left.references right.references
  required name := by
    have split (a b : View) : name ∈ (a ++ b).required ↔ name ∈ a.required ∨ name ∈ b.required :=
      List.mem_append
    rw [split, split, left.required, right.required]

theorem concat {α : Type} {f g : α → View} {l : List α} (each : ∀ a ∈ l, Same (f a) (g a)) :
    Same (View.concat (l.map f)) (View.concat (l.map g)) := by
  induction l with
  | nil => exact refl _
  | cons a rest ih =>
    obtain ⟨here, later⟩ := List.forall_mem_cons.mp each
    exact here.append (ih later)

end Same
end View

namespace Schema

/-- What the schema declares without its members. -/
def own (s : Schema) : View where
  properties := s.children.properties.getD []
  required := s.keywords.required.getD []

/-- What the schema shows. -/
def view : Schema → View :=
  para fun k c => own ⟨k, c.map Prod.fst⟩ ++ View.concat ((c.allOf.getD []).map fun member =>
    match member.1.keywords.reference with
    | some reference => { references := [reference] }
    | none => member.2)

/-- What the schema adds to what it is a member of. -/
def share (s : Schema) : View :=
  match s.keywords.reference with
  | some reference => { references := [reference] }
  | none => s.view

theorem view_eq (s : Schema) :
    s.view = s.own ++ View.concat ((s.children.allOf.getD []).map share) := by
  obtain ⟨k, c⟩ := s
  have itself : (c.map fun child => (child, child.view)).map Prod.fst = c := by
    rw [Children.map_map]
    exact c.map_id
  have members : ((c.map fun child => (child, child.view)).allOf.getD []).map (fun member =>
      match member.1.keywords.reference with
      | some reference => ({ references := [reference] } : View)
      | none => member.2) = (c.allOf.getD []).map share := by
    cases held : c.allOf with
    | none => simp [Children.map, held]
    | some l => simp only [Children.map, held, Option.map_some, Option.getD_some, List.map_map]; rfl
  rw [view, para_mk, ← view, itself, members]

theorem share_of_inline {s : Schema} (inline : s.keywords.reference = none) : s.share = s.view := by
  rw [share, inline]

theorem view_of_bare {s : Schema} (bare : s.children.allOf = none) : s.view = s.own := by
  rw [view_eq, bare]
  exact View.append_empty _

theorem view_of_allOf {s : Schema} {members : List Schema} (held : s.children.allOf = some members) :
    s.view = s.own ++ View.concat (members.map share) := by
  rw [view_eq, held, Option.getD_some]

theorem own_of_isIdle {s : Schema} (idle : s.isIdle) : s.own = {} := by
  simp only [isIdle, isVacuous, Keywords.isEmpty, Children.isEmpty, Bool.and_eq_true,
    Option.isNone_iff_eq_none] at idle
  have required : s.keywords.required = none := by tauto
  have properties : s.children.properties.getD [] = [] := by
    have none : (if s.children.properties.any List.isEmpty then Option.none
      else s.children.properties) = Option.none := by tauto
    split at none
    · rename_i empty
      cases held : s.children.properties with
      | none => rfl
      | some t =>
        rw [held] at empty
        exact List.isEmpty_iff.mp empty
    · rw [none, Option.getD_none]
  rw [own, required, properties, Option.getD_none]

end Schema

namespace Squash

theorem concat_share_splice (member : Schema) :
    View.concat ((splice member).map Schema.share) = member.share := by
  rw [splice_eq]
  split
  · rename_i idle
    rw [Schema.share_of_inline (Schema.reference_of_isIdle idle), Schema.view_eq,
      Schema.own_of_isIdle idle, View.empty_append]
  · exact View.append_empty _

theorem concat_share_flatMap_splice (members : List Schema) :
    View.concat ((members.flatMap splice).map Schema.share) =
      View.concat (members.map Schema.share) := by
  induction members with
  | nil => rfl
  | cons member rest ih =>
    rw [List.flatMap_cons, List.map_append, View.concat_append, ih, concat_share_splice]
    rfl

/-! Merging members into a node. -/

theorem mergeProperties_getD (parent more : Option (Table Schema)) :
    (mergeProperties parent more).getD [] = Table.join (parent.getD []) (more.getD []) := by
  cases more <;> rfl

theorem mem_union_iff (names more : List String) (name : String) :
    name ∈ union names more ↔ name ∈ names ∨ name ∈ more := by
  induction more generalizing names with
  | nil => simp [union]
  | cons first rest ih =>
    have later : union names (first :: rest) =
        union (if names.contains first then names else names ++ [first]) rest := rfl
    rw [later, ih, List.mem_cons]
    split
    · rename_i known
      rw [List.contains_iff_mem] at known
      constructor
      · tauto
      · rintro (earlier | rfl | later) <;> tauto
    · rw [List.mem_append, List.mem_singleton]
      tauto

theorem mem_mergeRequired_iff (parent more : Option (List String)) (name : String) :
    name ∈ (mergeRequired parent more).getD [] ↔ name ∈ parent.getD [] ∨ name ∈ more.getD [] := by
  cases more with
  | none => simp [mergeRequired]
  | some required => exact mem_union_iff _ _ _

section
variable {parent member : Schema}

theorem reference_mergeMember (inline : member.keywords.reference = none) :
    (mergeMember parent member).keywords.reference = parent.keywords.reference := by
  simp [mergeMember, Schema.onto, Keywords.onto, inline]

theorem allOf_mergeMember (bare : parent.children.allOf = none) :
    (mergeMember parent member).children.allOf = member.children.allOf := by
  simp [mergeMember, Schema.onto, Children.onto, bare]

theorem own_mergeMember : View.Same (mergeMember parent member).own (parent.own ++ member.own) where
  properties := by
    have joined : (mergeMember parent member).own.properties =
        Table.join parent.own.properties member.own.properties := by
      rw [Schema.own, Schema.own, Schema.own, ← mergeProperties_getD]
      simp [mergeMember, Schema.onto, Children.onto]
    rw [joined, Table.firsts_join]
    rfl
  references := rfl
  required name := by
    have joined : (mergeMember parent member).own.required =
        (mergeRequired parent.keywords.required member.keywords.required).getD [] := by
      simp [Schema.own, mergeMember, Schema.onto, Keywords.onto]
    rw [joined, mem_mergeRequired_iff]
    exact List.mem_append.symm

/-- A member that is merged into a node without members leaves its own in its place. -/
theorem view_mergeMember (bare : parent.children.allOf = none)
    (inline : member.keywords.reference = none) :
    View.Same (mergeMember parent member).view (parent.view ++ member.share) := by
  rw [Schema.share_of_inline inline, Schema.view_of_bare bare, Schema.view_eq, Schema.view_eq member,
    allOf_mergeMember bare, ← View.append_assoc]
  exact own_mergeMember.append (View.Same.refl _)

end

theorem view_foldl_mergeMember {members : List Schema} {parent : Schema}
    (bare : parent.children.allOf = none) (inline : ∀ m ∈ members, m.keywords.reference = none)
    (flat : ∀ m ∈ members, m.children.allOf = none) :
    View.Same (members.foldl mergeMember parent).view
      (parent.view ++ View.concat (members.map Schema.share)) := by
  induction members generalizing parent with
  | nil => exact View.Same.of_eq (View.append_empty _).symm
  | cons member rest ih =>
    obtain ⟨here, later⟩ := List.forall_mem_cons.mp inline
    obtain ⟨single, others⟩ := List.forall_mem_cons.mp flat
    rw [List.foldl_cons, List.map_cons, View.concat_cons, ← View.append_assoc]
    refine (ih ((allOf_mergeMember bare).trans single) later others).trans ?_
    exact (view_mergeMember bare here).append (View.Same.refl _)

/-- Members that are merged refer to nothing, and unless there is only one they have no members. -/
theorem inline_of_isMerged {merge : Bool} {s : Schema} {members : List Schema}
    (merged : isMerged merge s members) : (∀ m ∈ members, m.keywords.reference = none) ∧
      ((∃ m, members = [m]) ∨ ∀ m ∈ members, m.children.allOf = none) := by
  rw [isMerged, Bool.and_eq_true, Bool.or_eq_true, Bool.and_eq_true, List.all_eq_true] at merged
  rcases merged.2 with single | ⟨_, inline⟩
  · obtain ⟨m, rfl⟩ := eq_singleton_of_isSingleInline single
    simp only [isSingleInline, Bool.and_eq_true, Option.isNone_iff_eq_none] at single
    exact ⟨by simpa using single.1.1.2, Or.inl ⟨m, rfl⟩⟩
  · simp only [Schema.isInlineObject, Bool.and_eq_true, Option.isNone_iff_eq_none] at inline
    exact ⟨fun m listed => (inline m listed).1.1.1.1.1,
      Or.inr fun m listed => (inline m listed).1.1.1.2⟩

section
variable (merge : Bool) (s : Schema)

/-- What a node shows stays what it is. -/
theorem view_squashNode : View.Same (squashNode merge s).view s.view := by
  cases held : s.children.allOf with
  | none =>
    rw [squashNode, held]
    exact View.Same.refl _
  | some members =>
    have whole : s.view = s.own ++ View.concat ((members.flatMap splice).map Schema.share) := by
      rw [Schema.view_of_allOf held, concat_share_flatMap_splice]
    have bare : Schema.view { s with children.allOf := none } = s.own := Schema.view_of_bare rfl
    rw [squashNode_eq held, whole]
    split
    · rename_i empty
      rw [bare, List.isEmpty_iff.mp empty]
      exact View.Same.of_eq (View.append_empty _).symm
    · split
      · rename_i merged
        obtain ⟨inline, single | flat⟩ := inline_of_isMerged merged
        · obtain ⟨m, only⟩ := single
          rw [only] at inline ⊢
          have inlineMember := inline m List.mem_cons_self
          have taken : View.Same (mergeMember { s with children.allOf := none } m).view
              (s.own ++ m.share) := by
            rw [← bare]
            exact view_mergeMember rfl inlineMember
          rw [List.map_singleton, View.concat_cons]
          exact taken.trans (View.Same.of_eq (congrArg (s.own ++ ·) (View.append_empty _).symm))
        · rw [← bare]
          exact view_foldl_mergeMember rfl inline flat
      · exact View.Same.of_eq (Schema.view_of_allOf rfl)

theorem reference_squashNode :
    (squashNode merge s).keywords.reference = s.keywords.reference := by
  cases held : s.children.allOf with
  | none => rw [squashNode, held]
  | some members =>
    rw [squashNode_eq held]
    split
    · rfl
    · split
      · rename_i merged
        exact List.foldlRecOn (motive := fun t : Schema =>
            t.keywords.reference = s.keywords.reference) _ _ rfl fun _ kept m listed =>
          (reference_mergeMember ((inline_of_isMerged merged).1 m listed)).trans kept
      · rfl

theorem items_squashNode {items : Schema} (held : s.children.items = some items) :
    (squashNode merge s).children.items = some items := by
  cases composed : s.children.allOf with
  | none => rw [squashNode, composed, held]
  | some members =>
    rw [squashNode_eq composed]
    split
    · exact held
    · split
      · refine List.foldlRecOn (motive := fun t : Schema => t.children.items = some items) _ _ held
          fun parent kept m _ => ?_
        simp [mergeMember, Schema.onto, Children.onto, kept]
      · exact held

end

/-! Squashing a whole schema. -/

/-- A child by its place; what it is made of stays at hand. -/
def squashChild (segments : List String) (child : Schema × (Bool → Schema)) :
    Schema × (Bool → Schema) := (child.2 (mergesAt segments), child.2)

/-- What squashing makes of a schema. -/
def squashed : Schema → Bool → Schema :=
  Schema.para fun k c merge => squashNode merge ⟨k, (c.mapEntered squashChild).map Prod.fst⟩

theorem squashed_mk (k : Keywords) (c : Children Schema) (merge : Bool) :
    squashed ⟨k, c⟩ merge =
      squashNode merge ⟨k, c.mapEntered fun segments child => squashed child (mergesAt segments)⟩ := by
  have below : ((c.map fun child => (child, squashed child)).mapEntered squashChild).map Prod.fst =
      c.mapEntered fun segments child => squashed child (mergesAt segments) :=
    Children.mapEntered_paired squashed (fun segments change => change (mergesAt segments)) c
  rw [squashed, Schema.para_mk, ← squashed, below]

theorem walk_eq_squashed {levels : Nat} (p : Position) {s : Schema} (enough : s.levels ≤ levels) :
    (s.walk squasher levels p).run = squashed s (p.key? != some "items") := by
  induction levels generalizing p s with
  | zero => exact absurd s.levels_pos (by omega)
  | succ levels ih =>
    obtain ⟨k, c⟩ := s
    rw [walk_succ, squashed_mk]
    refine congrArg (fun c => squashNode _ ⟨k, c⟩) ((Children.mapEntered_eq_iff c).mpr ?_)
    intro placed listed
    have lower := Schema.levels_lt_of_mem (k := k) (Schema.mem_toList_of_placed listed)
    rw [ih _ (by omega), mergesAt_child listed]

theorem reference_squashed (s : Schema) (merge : Bool) :
    (squashed s merge).keywords.reference = s.keywords.reference := by
  obtain ⟨k, c⟩ := s
  rw [squashed_mk, reference_squashNode]

/-- What squashing makes of a property. -/
def squashedAt (key : String) (s : Schema) : Schema := squashed s (some key != some "items")

theorem view_squashed (s : Schema) (merge : Bool) :
    View.Same (squashed s merge).view (s.view.mapSchemas squashedAt) := by
  induction s using Schema.children_induction generalizing merge with
  | step k c ih =>
    rw [squashed_mk]
    refine (view_squashNode merge _).trans ?_
    rw [Schema.view_eq, Schema.view_eq ⟨k, c⟩, View.mapSchemas_append, View.mapSchemas_concat]
    refine View.Same.append (View.Same.of_eq ?_) ?_
    · refine View.ext ?_ rfl rfl
      cases held : c.properties with
      | none => simp [Schema.own, View.mapSchemas, Children.mapEntered, held]
      | some t =>
        simp only [Schema.own, View.mapSchemas, Children.mapEntered, held, Option.map_some,
          Option.getD_some]
        rfl
    · have members : (c.mapEntered fun segments child => squashed child (mergesAt segments)).allOf.getD
          [] = (c.allOf.getD []).map fun member => squashed member true := by
        cases held : c.allOf with
        | none => simp [Children.mapEntered, held]
        | some l =>
          simp only [Children.mapEntered, held, Option.map_some, Option.getD_some,
            Children.mapMembers, mergesAt_index, List.mapIdx_eq_zipIdx_map]
          conv_rhs => rw [← List.zipIdx_map_fst 0 l, List.map_map]
          rfl
      rw [members, List.map_map, List.map_map]
      refine View.Same.concat fun member listed => ?_
      rw [Function.comp, Function.comp, Schema.share, Schema.share, reference_squashed]
      split
      · exact View.Same.refl _
      · exact ih member (by simp only [Children.toList, List.mem_append]; tauto) true

theorem items_squashed {s items : Schema} (merge : Bool) (held : s.children.items = some items) :
    (squashed s merge).children.items = some (squashedAt "items" items) := by
  obtain ⟨k, c⟩ := s
  rw [squashed_mk]
  refine items_squashNode merge _ ?_
  dsimp only at held
  rw [Children.mapEntered, held]
  rfl

end Squash

/-- A step from a schema to what it shows. -/
inductive FlatStep where
  | property (key : String)
  | items
  deriving DecidableEq, Repr

/-- The last segment of a place where the step leads to. -/
def FlatStep.key : FlatStep → String
  | property key => key
  | items => "items"

namespace Schema

/-- The first declaration of a property, or the node's own items. -/
def shown? (s : Schema) : FlatStep → Option Schema
  | .property key => (Table.firsts s.view.properties).get? key
  | .items => s.children.items

def reach? : List FlatStep → Schema → Option Schema
  | [], s => some s
  | step :: rest, s => (s.shown? step).bind (reach? rest)

end Schema

namespace Squash

theorem shown?_squashed {s t : Schema} {step : FlatStep} (merge : Bool)
    (found : s.shown? step = some t) :
    (squashed s merge).shown? step = some (squashedAt step.key t) := by
  cases step with
  | property key =>
    rw [Schema.shown?, (view_squashed s merge).properties, View.mapSchemas, Table.firsts_map,
      Table.get?_map, FlatStep.key]
    rw [Schema.shown?] at found
    rw [found, Option.map_some]
  | items => exact items_squashed merge found

/-- The same steps lead to the squashed schema. -/
theorem reach?_squashed {steps : List FlatStep} {s t : Schema} (key? : Option String)
    (reached : s.reach? steps = some t) : (squashed s (key? != some "items")).reach? steps =
      some (squashed t ((steps.getLast?.map FlatStep.key).or key? != some "items")) := by
  induction steps generalizing s key? with
  | nil =>
    cases reached
    rfl
  | cons step rest ih =>
    obtain ⟨child, found, reached⟩ := Option.bind_eq_some_iff.mp reached
    rw [Schema.reach?, shown?_squashed _ found, Option.bind_some, squashedAt, ih _ reached,
      List.getLast?_cons]
    cases rest.getLast? <;> rfl

/-- Squashing keeps what is shown by every schema that steps from a definition lead to, and the same
steps lead to that schema squashed. -/
theorem run_keeps_views (d : Document) (name : String) (root s : Schema) (steps : List FlatStep)
    (p : Position) (stands : d.definitions.get? name = some root)
    (reached : root.reach? steps = some s) (last : p.key? = steps.getLast?.map FlatStep.key) :
    ∃ root', (run d).1.definitions.get? name = some root' ∧
      ∃ s', root'.reach? steps = some s' ∧ s' = (s.walk squasher s.levels p).run ∧
        s'.view.names = s.view.names ∧ s'.view.references = s.view.references ∧
        ∀ field, field ∈ s'.view.required ↔ field ∈ s.view.required := by
  have changed : (run d).1.definitions = d.definitions.change d.flavor squasher := rfl
  have walked : (run d).1.definitions.get? name = some (squashed root true) := by
    rw [changed, Definitions.get?_change, stands, Option.map_some, walk_eq_squashed _ (Nat.le_refl _)]
    rfl
  have led := reach?_squashed none reached
  rw [Option.or_none, ← last] at led
  have same := view_squashed s (p.key? != some "items")
  refine ⟨_, walked, _, led, (walk_eq_squashed p (Nat.le_refl _)).symm, ?_, same.references,
    same.required⟩
  rw [View.names, same.properties, View.mapSchemas, Table.firsts_map, Table.keys, List.map_map]
  rfl

/-- A parcel that wraps its members and declares its identifier twice. -/
def parcels : Document where
  raw := [("definitions", .null)]
  flavor := .definitions
  hasSlot := true
  definitions :=
    let text : Schema := { keywords := { type := some "string" } }
    let grouped : Schema := { children := { allOf := some [text, text] } }
    let lines : Schema := { children := { properties := some [("id", {}),
      ("lines", { keywords := { type := some "array" }, children := { items := some grouped } })] } }
    let item : Schema := .ofReference (.toDefinition "Item" .definitions)
    let wrapper : Schema := { children := { allOf := some [item, lines] } }
    [("Parcel", { children := {
      properties := some [("id", text)]
      allOf := some [wrapper, {}, { keywords := { required := some ["id"] } }] } }), ("Item", text)]

theorem run_keeps_views_parcels : ∃ root s,
    parcels.definitions.get? "Parcel" = some root ∧
    root.reach? [.property "lines", .items] = some s ∧
    ∃ root', (run parcels).1.definitions.get? "Parcel" = some root' ∧
      ∃ s', root'.reach? [.property "lines", .items] = some s' ∧
        s'.view.names = s.view.names ∧ s'.view.references = s.view.references ∧
        ∀ field, field ∈ s'.view.required ↔ field ∈ s.view.required := by
  let p : Position := { flavor := .definitions, definition := "Parcel", trail := ["items"] }
  obtain ⟨root', found, s', reached, _, shown⟩ := run_keeps_views parcels "Parcel" _ _
    [.property "lines", .items] p rfl rfl rfl
  exact ⟨_, _, rfl, rfl, root', found, s', reached, shown⟩

end Squash
end SchemaGraph
