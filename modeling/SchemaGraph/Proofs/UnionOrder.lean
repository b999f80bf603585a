import SchemaGraph.Proofs.CommonType
import SchemaGraph.Proofs.OptionalBranches
import SchemaGraph.Proofs.OrderedPasses
import SchemaGraph.Proofs.Sound

/- Unions and the order of the definitions. A member that is a reference is read as it stands in the
   graph: a union that the walk has come to is its common type there, and one that is still to come
   is a node without type. Where every definition keeps its side of the unions that it reads, all
   definitions become the same. -/
namespace SchemaGraph

/-- The steps that a pointer's segments stand for. -/
def Place.ofSegments? : List String → Option Place
  | [] => some []
  | "items" :: rest => (ofSegments? rest).map (.items :: ·)
  | "not" :: rest => (ofSegments? rest).map (.not :: ·)
  | "additionalProperties" :: rest => (ofSegments? rest).map (.additional :: ·)
  | "properties" :: key :: rest => (ofSegments? rest).map (.property key :: ·)
  | "allOf" :: i :: rest =>
    (Schema.index? i).bind fun i => (ofSegments? rest).map (.allOf i :: ·)
  | "oneOf" :: i :: rest =>
    (Schema.index? i).bind fun i => (ofSegments? rest).map (.oneOf i :: ·)
  | "anyOf" :: i :: rest =>
    (Schema.index? i).bind fun i => (ofSegments? rest).map (.anyOf i :: ·)
  | _ => none

theorem Schema.descend_eq_node? (segments : List String) (s : Schema) :
    s.descend segments = (Place.ofSegments? segments).bind (node? · s) := by
  have step (s : Schema) (next : Step) (rest : List String)
      (below : ∀ child, Schema.descend rest child = (Place.ofSegments? rest).bind (node? · child)) :
      (s.children.child? next).bind (Schema.descend rest) =
        ((Place.ofSegments? rest).map (next :: ·)).bind (node? · s) := by
    rw [funext below]
    cases Place.ofSegments? rest with
    | none => simp
    | some place => rfl
  have member (s : Schema) (composition : Nat → Step) (i : String) (rest : List String)
      (list : Option (List Schema))
      (held : ∀ n, s.children.child? (composition n) = list.bind (·[n]?))
      (below : ∀ child, Schema.descend rest child = (Place.ofSegments? rest).bind (node? · child)) :
      (descend.member? list i).bind (Schema.descend rest) =
        ((index? i).bind fun n => (Place.ofSegments? rest).map (composition n :: ·)).bind
          (node? · s) := by
    rw [descend.member?]
    cases indexed : index? i with
    | none => cases list <;> rfl
    | some n =>
      rw [Option.bind_some, ← step s (composition n) rest below, held]
      rfl
  induction segments using Place.ofSegments?.induct generalizing s with
  | case1 => rfl
  | case2 rest ih => exact step s .items rest ih
  | case3 rest ih => exact step s .not rest ih
  | case4 rest ih => exact step s .additional rest ih
  | case5 key rest ih => exact step s (.property key) rest ih
  | case6 i rest ih => exact member s .allOf i rest s.children.allOf (fun _ => rfl) ih
  | case7 i rest ih => exact member s .oneOf i rest s.children.oneOf (fun _ => rfl) ih
  | case8 i rest ih => exact member s .anyOf i rest s.children.anyOf (fun _ => rfl) ih
  | case9 segments h1 h2 h3 h4 h5 h6 h7 h8 =>
    rw [Place.ofSegments?.eq_9 segments h1 h2 h3 h4 h5 h6 h7 h8,
      Schema.descend.eq_9 segments s h1 h2 h3 h4 h5 h6 h7 h8]
    rfl

theorem Schema.every_of_mem_met {holds : Keywords → Prop} {node : List String × Schema}
    {trail : List String} {s : Schema} (every : s.Every holds) (met : node ∈ s.met trail) :
    node.2.Every holds := by
  induction s using children_induction generalizing trail with
  | step k c ih =>
    rcases mem_met_mk.mp met with rfl | ⟨placed, listed, inside⟩
    · exact every
    · have below := mem_toList_of_placed listed
      exact ih placed.2 below ((Children.each_iff _ _).mp every.below placed.2 below) inside

namespace Place

/-- At the place is a union, or there is one whose members are on the way. -/
def meetsUnion : Place → Schema → Bool
  | [], s => s.children.anyOf.isSome
  | .anyOf _ :: _, s => s.children.anyOf.isSome
  | step :: rest, s => step.isEntered && (s.children.child? step).any (meetsUnion rest)

theorem meetsUnion_cons {step : Step} (elsewhere : ∀ i, step ≠ .anyOf i) (rest : Place)
    (s : Schema) : meetsUnion (step :: rest) s =
      (step.isEntered && (s.children.child? step).any (meetsUnion rest)) := by
  cases step with
  | anyOf i => exact absurd rfl (elsewhere i)
  | property | items | not | additional | allOf | oneOf => rfl

/-- No step of the place goes into a union. -/
def avoidsUnions (place : Place) : Prop := ∀ i, Step.anyOf i ∉ place

end Place

namespace AnyOf

/-- What is left of a schema: nodes that are not below a union, and of those that are no unions the
keywords. -/
structure Collapsed (s left : Schema) : Prop where
  reference : left.keywords.reference = s.keywords.reference
  stays : ∀ place : Place, place.meetsUnion s = false →
    (left.node? place).map (·.keywords) = (s.node? place).map (·.keywords)
  there : ∀ place : Place, place.avoidsUnions → (left.node? place).isSome = (s.node? place).isSome

theorem Collapsed.refl (s : Schema) : Collapsed s s := ⟨rfl, fun _ _ => rfl, fun _ _ => rfl⟩

section
variable {graph other : Definitions} {p : Position} {s left : Schema}

theorem after_of_none (absent : s.children.anyOf = none) : after graph p s = .ok s := by
  rw [after, absent]

theorem kept_of_after (ended : after graph p s = .ok left) :
    left.keywords.reference = s.keywords.reference ∧
      left.children = { s.children with anyOf := none } := by
  cases held : s.children.anyOf with
  | none =>
    rw [after_of_none held] at ended
    cases ended
    exact ⟨rfl, by rw [← held]⟩
  | some members =>
    rw [after_of_members p held] at ended
    cases resolved : members.mapM (resolveMember graph p) with
    | error e =>
      rw [resolved] at ended
      cases ended
    | ok read =>
      rw [resolved] at ended
      cases ended
      dsimp only
      cases common? read <;> exact ⟨rfl, rfl⟩

theorem child?_of_after (ended : after graph p s = .ok left) {step : Step}
    (elsewhere : ∀ i, step ≠ .anyOf i) :
    left.children.child? step = s.children.child? step := by
  rw [(kept_of_after ended).2]
  cases step with
  | anyOf i => exact absurd rfl (elsewhere i)
  | property | items | not | additional | allOf | oneOf => rfl

variable {k : Keywords} {c walked : Children Schema}

theorem anyOf_eq_none_of_related {rel : Schema → Schema → Prop} (related : c.Related rel walked)
    (absent : c.anyOf = none) : walked.anyOf = none := by
  rw [← Option.isNone_iff_eq_none, ← Option.not_isSome, isSome_of_optionRel related.anyOf, absent]
  rfl

theorem skipped_of_related {rel : Schema → Schema → Prop} (related : c.Related rel walked)
    {step : Step} (skipped : step.isEntered = false) : walked.child? step = c.child? step := by
  cases step with
  | not => exact related.not
  | additional => exact congrArg (Option.bind · Additional.schema?) related.additional
  | property | items | allOf | oneOf | anyOf => cases skipped

/-- Below a step that goes into no union is what is left of the child there. -/
theorem exists_child_of_after (related : c.Related Collapsed walked)
    (ended : after graph p ⟨k, walked⟩ = .ok left) {step : Step}
    (elsewhere : ∀ i, step ≠ .anyOf i) :
    Option.Rel (fun a b => Collapsed a b ∧ (step.isEntered = false → b = a))
      (c.child? step) (left.children.child? step) := by
  rw [child?_of_after ended elsewhere]
  cases entered : step.isEntered with
  | true => exact (optionRel_imp (related.child? entered) fun a _ b collapsed =>
      ⟨collapsed, fun skipped => by cases skipped⟩)
  | false =>
    rw [skipped_of_related related entered]
    cases c.child? step with
    | none => exact .none
    | some child => exact .some ⟨.refl child, fun _ => rfl⟩

theorem elsewhere_of_avoidsUnions {step : Step} {rest : Place}
    (avoids : Place.avoidsUnions (step :: rest)) : ∀ i, step ≠ .anyOf i := by
  rintro i rfl
  exact avoids i List.mem_cons_self

/-- What is left of a node whose children have been collapsed. -/
theorem collapsed_of_after (related : c.Related Collapsed walked)
    (ended : after graph p ⟨k, walked⟩ = .ok left) : Collapsed ⟨k, c⟩ left where
  reference := (kept_of_after ended).1
  stays := by
    rintro (_ | ⟨step, rest⟩) apart
    · have absent : c.anyOf = none :=
        Option.isNone_iff_eq_none.mp (Option.isSome_eq_false_iff.mp apart)
      rw [after_of_none (anyOf_eq_none_of_related related absent)] at ended
      cases ended
      rfl
    · by_cases elsewhere : ∀ i, step ≠ .anyOf i
      · rw [Place.meetsUnion_cons elsewhere] at apart
        have below := exists_child_of_after related ended elsewhere
        change ((left.children.child? step).bind (Schema.node? rest)).map _ =
          ((c.child? step).bind (Schema.node? rest)).map _
        generalize left.children.child? step = o' at below
        generalize held : c.child? step = o at below
        cases below with
        | none => rfl
        | @some child _ both =>
          change (step.isEntered && (c.child? step).any (Place.meetsUnion rest)) = false at apart
          rw [held] at apart
          rcases Bool.and_eq_false_iff.mp apart with skipped | clear
          · rw [both.2 skipped]
          · exact both.1.stays rest clear
      · obtain ⟨i, rfl⟩ := not_forall_not.mp elsewhere
        have absent : c.anyOf = none :=
          Option.isNone_iff_eq_none.mp (Option.isSome_eq_false_iff.mp apart)
        change ((left.children.anyOf.bind (·[i]?)).bind _).map _ =
          ((c.anyOf.bind (·[i]?)).bind _).map _
        rw [(kept_of_after ended).2, absent]
  there := by
    rintro (_ | ⟨step, rest⟩) avoids
    · rfl
    · have below := exists_child_of_after related ended (elsewhere_of_avoidsUnions avoids)
      change ((left.children.child? step).bind (Schema.node? rest)).isSome =
        ((c.child? step).bind (Schema.node? rest)).isSome
      generalize left.children.child? step = o' at below
      generalize c.child? step = o at below
      cases below with
      | none => rfl
      | some both => exact both.1.there rest fun i inside => avoids i (List.mem_cons_of_mem _ inside)

end

/-- What a member that refers there is overlaid with, as far as unions look at it. -/
def shown (graph : Definitions) (r : Reference) : Option Keywords :=
  (graph.target? r).map (·.keywords)

/-- The references of the members of a node. -/
def memberReferences (s : Schema) : List Reference :=
  (s.children.anyOf.getD []).filterMap (·.keywords.reference)

section
variable {graph other : Definitions} {s left : Schema}

theorem mem_memberReferences {members : List Schema} {m : Schema} {r : Reference}
    (held : s.children.anyOf = some members) (listed : m ∈ members)
    (refers : m.keywords.reference = some r) : r ∈ memberReferences s := by
  rw [memberReferences, held]
  exact List.mem_filterMap.mpr ⟨m, listed, refers⟩

theorem map_resolveMember (p : Position) {m : Schema}
    (same : ∀ r, m.keywords.reference = some r → shown graph r = shown other r) :
    (resolveMember graph p m).map (·.keywords) = (resolveMember other p m).map (·.keywords) := by
  rw [resolveMember, resolveMember]
  cases refers : m.keywords.reference with
  | none => rfl
  | some r =>
    have alike := same r refers
    rw [shown, shown] at alike
    dsimp only
    rw [Definitions.resolve, Definitions.resolve]
    cases here : graph.target? r with
    | none =>
      rw [here, Option.map_none, eq_comm, Option.map_eq_none_iff] at alike
      rw [alike]
    | some target =>
      rw [here, Option.map_some, eq_comm] at alike
      obtain ⟨target', there, keywords⟩ := Option.map_eq_some_iff.mp alike
      rw [there]
      change Except.ok (target.keywords.onto _) = Except.ok (target'.keywords.onto _)
      rw [keywords]

theorem of_map_eq {α β : Type} {f : α → β} {x y : Except Error α} (same : x.map f = y.map f) :
    (∃ e, x = .error e ∧ y = .error e) ∨ ∃ a b, x = .ok a ∧ y = .ok b ∧ f a = f b := by
  cases x with
  | error e =>
    cases y with
    | error e' =>
      cases same
      exact Or.inl ⟨e, rfl, rfl⟩
    | ok b => cases same
  | ok a =>
    cases y with
    | error e' => cases same
    | ok b => exact Or.inr ⟨a, b, rfl, rfl, Except.ok.inj same⟩

theorem map_mapM_congr {f g : Schema → Except Error Schema} {l : List Schema}
    (same : ∀ m ∈ l, (f m).map (·.keywords) = (g m).map (·.keywords)) :
    (l.mapM f).map (List.map (·.keywords)) = (l.mapM g).map (List.map (·.keywords)) := by
  induction l with
  | nil => rfl
  | cons m rest ih =>
    obtain ⟨here, later⟩ := List.forall_mem_cons.mp same
    rw [List.mapM_cons, List.mapM_cons]
    rcases of_map_eq here with ⟨e, first, second⟩ | ⟨a, b, first, second, alike⟩
    · rw [first, second]
      rfl
    · rw [first, second]
      rcases of_map_eq (ih later) with ⟨e, left, right⟩ | ⟨as, bs, left, right, others⟩
      · change (rest.mapM f >>= _).map _ = (rest.mapM g >>= _).map _
        rw [left, right]
        rfl
      · change (rest.mapM f >>= _).map _ = (rest.mapM g >>= _).map _
        rw [left, right]
        exact congrArg Except.ok (congrArg₂ List.cons alike others)

/-- What the members have in common is read off their keywords. -/
theorem common?_congr {l l' : List Schema} (same : l.map (·.keywords) = l'.map (·.keywords)) :
    common? l = common? l' := by
  have read (l : List Schema) : common? l = match l.map (·.keywords) with
      | [] => none
      | first :: rest => some (rest.foldl Common.join (.ofMember first)) := by
    cases l with
    | nil => rfl
    | cons first rest => exact congrArg some (List.foldl_map).symm
  rw [read, read, same]

/-- Unions see of a graph only what is shown to their members. -/
theorem after_congr (p : Position)
    (same : ∀ r ∈ memberReferences s, shown graph r = shown other r) :
    after graph p s = after other p s := by
  cases held : s.children.anyOf with
  | none => rw [after_of_none held, after_of_none held]
  | some members =>
    have alike := map_mapM_congr (l := members) fun m listed => map_resolveMember p
      fun r refers => same r (mem_memberReferences held listed refers)
    rw [after_of_members p held, after_of_members p held]
    rcases of_map_eq alike with ⟨e, here, there⟩ | ⟨read, read', here, there, keywords⟩
    · rw [here, there]
    · rw [here, there]
      change Except.ok (((common? read).map _).getD _) = Except.ok (((common? read').map _).getD _)
      rw [common?_congr keywords]

/-- A node whose members, as they came in, are all shown something. -/
theorem exists_after (p : Position) (meant : ∀ r ∈ memberReferences s, (graph.target? r).isSome) :
    ∃ left, after graph p s = .ok left := by
  cases held : s.children.anyOf with
  | none => exact ⟨s, after_of_none held⟩
  | some members =>
    have resolved : ∃ read, members.mapM (resolveMember graph p) = .ok read := by
      refine exists_mapM_eq_ok fun m listed => ?_
      rw [resolveMember]
      cases refers : m.keywords.reference with
      | none => exact ⟨m, rfl⟩
      | some r =>
        obtain ⟨target, found⟩ :=
          Option.isSome_iff_exists.mp (meant r (mem_memberReferences held listed refers))
        dsimp only
        rw [Definitions.resolve, found]
        exact ⟨_, rfl⟩
    obtain ⟨read, resolved⟩ := resolved
    rw [after_of_members p held, resolved]
    exact ⟨_, rfl⟩

/-- The members that a walk leaves refer to what they referred to. -/
theorem memberReferences_of_related {k : Keywords} {c walked : Children Schema}
    (related : c.Related Collapsed walked) :
    memberReferences ⟨k, walked⟩ = memberReferences ⟨k, c⟩ := by
  have pairs := forall₂_getD_of_optionRel related.anyOf .nil
  change (walked.anyOf.getD []).filterMap _ = (c.anyOf.getD []).filterMap _
  generalize walked.anyOf.getD [] = l' at pairs
  generalize c.anyOf.getD [] = l at pairs
  induction pairs with
  | nil => rfl
  | cons first _ ih => rw [List.filterMap_cons, List.filterMap_cons, first.reference, ih]

end

section
variable {graph other : Definitions} {flavor : Flavor} {name : String} {root left : Schema}

/-- In the schema something holds of all references of members. -/
def EachMember (holds : Reference → Prop) (s : Schema) : Prop :=
  ∀ node ∈ s.met [], ∀ r ∈ memberReferences node.2, holds r

theorem eachMember_entered {holds : Reference → Prop} {k : Keywords} {c : Children Schema}
    (each : EachMember holds ⟨k, c⟩) :
    (∀ r ∈ memberReferences ⟨k, c⟩, holds r) ∧ c.entered.Each (EachMember holds) :=
  (Schema.forall_met_mk_iff (fun s => ∀ r ∈ memberReferences s, holds r) k c).mp each

theorem collapsed_of_walkedRoot (walked : walkedRoot after flavor graph name root = .ok left) :
    Collapsed root left := by
  have ends : Ends (fun _ => True) (Collapsed root) (walkedRoot after flavor graph name root) :=
    ends_walkedRoot _ (fun _ => True) Collapsed
      (fun _ _ _ => (Children.each_iff _ _).mpr fun _ _ => trivial)
      (fun p k c walked _ related => ?_) trivial
  · rw [walked] at ends
    exact ends
  · cases ended : after graph p ⟨k, walked⟩ with
    | error e => exact trivial
    | ok left => exact collapsed_of_after related ended

/-- A definition whose members are all shown something is walked. -/
theorem exists_walkedRoot (meant : EachMember (fun r => (graph.target? r).isSome) root) :
    ∃ left, walkedRoot after flavor graph name root = .ok left := by
  have ends : Ends (fun _ => False) (Collapsed root) (walkedRoot after flavor graph name root) :=
    ends_walkedRoot _ (EachMember fun r => (graph.target? r).isSome) Collapsed
      (fun _ _ within => (eachMember_entered within).2)
      (fun p k c walked within related => ?_) meant
  · cases walked : walkedRoot after flavor graph name root with
    | error e =>
      rw [walked] at ends
      exact ends.elim
    | ok left => exact ⟨left, rfl⟩
  · obtain ⟨left, ended⟩ := exists_after p (s := ⟨k, walked⟩) (by
      rw [memberReferences_of_related related]
      exact (eachMember_entered within).1)
    rw [ended]
    exact collapsed_of_after related ended

/-- In two graphs that show the members the same the definition becomes the same. -/
theorem walkedRoot_congr (same : EachMember (fun r => shown graph r = shown other r) root) :
    walkedRoot after flavor graph name root = walkedRoot after flavor other name root := by
  let visit (graph : Definitions) (p : Position) (s : Schema) : ExceptT Error Id Schema :=
    ExceptT.mk (pure (after graph p s))
  have alike : agreeing.throwing.Alike (Collapsed root)
      (root.walk (.ofAfter (visit graph)) root.levels { flavor, definition := name })
      (root.walk (.ofAfter (visit other)) root.levels { flavor, definition := name }) :=
    agreeing.throwing.walkRelated (fun _ _ within => (eachMember_entered within).2)
      (fun p k c walked within related => ?_) _ (Nat.le_refl root.levels) same
  · exact alike.2.symm
  · have kept : after graph p ⟨k, walked⟩ = after other p ⟨k, walked⟩ := after_congr p (by
      rw [memberReferences_of_related related]
      exact (eachMember_entered within).1)
    refine ⟨?_, kept.symm⟩
    change Ends _ _ (after graph p ⟨k, walked⟩)
    cases ended : after graph p ⟨k, walked⟩ with
    | error e => exact trivial
    | ok left => exact collapsed_of_after related ended

end

/-- A union in the definition has a member that is the reference. -/
def Reads (definitions : Definitions) (name : String) (r : Reference) : Prop :=
  ∃ root, (name, root) ∈ definitions ∧ ∃ node ∈ root.met [], r ∈ memberReferences node.2

/-- What the reference leads to is a union, or stands in one. -/
def Joins (definitions : Definitions) (r : Reference) : Prop :=
  ∃ root place, definitions.get? r.name = some root ∧ Place.ofSegments? r.tail = some place ∧
    place.meetsUnion root = true

theorem shown_eq (graph : Definitions) (r : Reference) : shown graph r =
    (Place.ofSegments? r.tail).bind fun place =>
      (graph.get? r.name).bind fun root => (root.node? place).map (·.keywords) := by
  rw [shown, Definitions.target?]
  cases graph.get? r.name with
  | none => cases Place.ofSegments? r.tail <;> rfl
  | some root =>
    rw [Option.bind_some, Schema.descend_eq_node?]
    cases Place.ofSegments? r.tail <;> rfl

section
variable {one graph : Definitions}

/-- What is not joined is shown as it came in. -/
theorem shown_of_not_joins {r : Reference}
    (pair : Option.Rel Collapsed (one.get? r.name) (graph.get? r.name)) (apart : ¬ Joins one r) :
    shown graph r = shown one r := by
  rw [shown_eq, shown_eq]
  cases stands : Place.ofSegments? r.tail with
  | none => rfl
  | some place =>
    rw [Option.bind_some, Option.bind_some]
    generalize held : one.get? r.name = o at pair
    generalize graph.get? r.name = o' at pair
    cases pair with
    | none => rfl
    | @some root left collapsed =>
      refine collapsed.stays place (Bool.eq_false_iff.mpr fun meets => apart ?_)
      exact ⟨root, place, held, stands, meets⟩

/-- What a place leads to that goes into no union is there. -/
theorem isSome_target? {r : Reference}
    (pair : Option.Rel Collapsed (one.get? r.name) (graph.get? r.name))
    (avoids : ∀ place, Place.ofSegments? r.tail = some place → place.avoidsUnions)
    (meant : (one.target? r).isSome) : (graph.target? r).isSome := by
  rw [Definitions.target?] at meant ⊢
  generalize one.get? r.name = o at pair meant
  generalize graph.get? r.name = o' at pair
  cases pair with
  | none => exact meant
  | @some root left collapsed =>
    rw [Option.bind_some, Schema.descend_eq_node?] at meant ⊢
    cases stands : Place.ofSegments? r.tail with
    | none =>
      rw [stands] at meant
      cases meant
    | some place =>
      rw [stands] at meant
      exact (collapsed.there place (avoids place stands)).trans meant

end

/-- The same definitions in another order, in which every definition stands on the same side of the
unions that it reads. -/
structure Reordered (one other : Definitions) : Prop where
  distinct : one.Distinct
  perm : List.Perm other one
  kept : ∀ name r, Reads one name r → Joins one r →
    (one.Precedes r.name name ↔ other.Precedes r.name name)

theorem Reads.of_perm {one other : Definitions} (perm : List.Perm other one) {name : String}
    {r : Reference} (reads : Reads other name r) : Reads one name r := by
  obtain ⟨root, listed, member⟩ := reads
  exact ⟨root, perm.mem_iff.mp listed, member⟩

namespace Reordered
variable {one other : Definitions} (reordered : Reordered one other)
include reordered

theorem symm : Reordered other one where
  distinct := (reordered.perm.map Prod.fst).nodup_iff.mpr reordered.distinct
  perm := reordered.perm.symm
  kept name r reads joins := by
    refine (reordered.kept name r (reads.of_perm reordered.perm) ?_).symm
    rwa [Joins, ← Table.get?_of_perm reordered.perm reordered.distinct]

/-- At every moment of the walks a definition is what it was or what is left of it. -/
theorem collapsed {flavor : Flavor} {final : String → Schema}
    (become : EachBecomes after flavor final one) {earlier later : Definitions}
    (split : other = earlier ++ later) (name : String) :
    Option.Rel Collapsed (one.get? name) (Table.get? (finishedAs final earlier ++ later) name) := by
  rw [get?_finishedAs_append split, Table.get?_of_perm reordered.perm reordered.distinct]
  split
  · rename_i member
    obtain ⟨root, inside⟩ := (Table.mem_keys_iff earlier name).mp member
    have listed : (name, root) ∈ one :=
      reordered.perm.mem_iff.mp (split ▸ List.mem_append_left _ inside)
    obtain ⟨before, next, parts⟩ := List.append_of_mem listed
    rw [Table.get?_of_mem reordered.distinct listed]
    exact .some (collapsed_of_walkedRoot (become before name root next parts))
  · cases one.get? name with
    | none => exact .none
    | some root => exact .some (.refl root)

/-- In the other order every definition is walked alike. -/
theorem walkedRoot_eq {flavor : Flavor} {final : String → Schema}
    (become : EachBecomes after flavor final one) {name : String} {root : Schema}
    {before next earlier later : Definitions} (splitOne : one = before ++ (name, root) :: next)
    (splitOther : other = earlier ++ (name, root) :: later) :
    walkedRoot after flavor (finishedAs final earlier ++ (name, root) :: later) name root =
      walkedRoot after flavor (finishedAs final before ++ (name, root) :: next) name root := by
  have listed : (name, root) ∈ one := splitOne ▸ List.mem_append_right _ List.mem_cons_self
  refine walkedRoot_congr fun node met r member => ?_
  dsimp only
  by_cases joins : Joins one r
  · -- The union is seen as it becomes exactly when it comes first, and that is kept.
    have first := Definitions.precedes_iff splitOne reordered.distinct r.name
    have second := Definitions.precedes_iff splitOther reordered.symm.distinct r.name
    have kept := reordered.kept name r ⟨root, listed, node, met, member⟩ joins
    rw [shown_eq, shown_eq, get?_finishedAs_append splitOne, get?_finishedAs_append splitOther,
      Table.get?_of_perm reordered.perm reordered.distinct,
      if_congr ((first.symm.trans kept).trans second) rfl rfl]
  · have itself : Reordered one one := ⟨reordered.distinct, .refl one, fun _ _ _ _ => Iff.rfl⟩
    rw [shown_of_not_joins (reordered.collapsed become splitOther r.name) joins,
      shown_of_not_joins (itself.collapsed become splitOne r.name) joins]

end Reordered

theorem forall₂_refl (definitions : Definitions) :
    List.Forall₂ (fun e e' : String × Schema => e'.1 = e.1 ∧ Collapsed e.2 e'.2)
      definitions definitions :=
  List.forall₂_same.mpr fun e _ => ⟨rfl, .refl e.2⟩

theorem refers_of_member {d : Document} {name : String} {root : Schema}
    (listed : (name, root) ∈ d.definitions) {node : List String × Schema} (met : node ∈ root.met [])
    {r : Reference} (member : r ∈ memberReferences node.2) : d.Refers r := by
  have every := Schema.every_of_mem_met (d.each_refers _ listed) met
  obtain ⟨m, inside, refers⟩ := List.mem_filterMap.mp member
  cases held : node.2.children.anyOf with
  | none =>
    rw [held] at inside
    cases inside
  | some members =>
    rw [held] at inside
    exact (every.below.anyOf members held m inside).own.reference r refers

/-- The pass over a closed document whose members refer to no place in a union. -/
theorem exists_run {d : Document} (closed : d.Closed) (avoids : ∀ name r,
      Reads d.definitions name r → ∀ place, Place.ofSegments? r.tail = some place →
        place.avoidsUnions) :
    ∃ left, run d = (left, .ok {}) := by
  have last : ∃ left, Reached after d left [] := Reached.exists_last .start ?_
  · obtain ⟨left, reached⟩ := last
    exact ⟨{ d with definitions := left }, walkPass_eq_ok_iff.mpr ⟨reached, rfl⟩⟩
  · intro finished name root later reached
    obtain ⟨earlier, split, pairs⟩ :=
      reached.forall₂ Collapsed fun _ _ _ _ _ _ => collapsed_of_walkedRoot
    have listed : (name, root) ∈ d.definitions :=
      split ▸ List.mem_append_right _ List.mem_cons_self
    refine exists_walkedRoot fun node met r member => ?_
    have stands := optionRel_get? (List.rel_append pairs (forall₂_refl ((name, root) :: later))) r.name
    beta_reduce at stands
    rw [← split] at stands
    refine isSome_target? stands (avoids name r ⟨root, listed, node, met, member⟩) ?_
    exact (Document.closed_iff d).mp closed r (refers_of_member listed met member)

/-- Definitions in another order become the same, or both runs fail, when every definition keeps its
side of the unions that it reads; and no run over a closed document fails whose members refer to no
place in a union. -/
theorem unions_of_reordered (d : Document) (distinct : d.definitions.Distinct) :
    (∀ order : Definitions, order.Perm d.definitions →
      (∀ name r, Reads d.definitions name r → Joins d.definitions r →
        (d.definitions.Precedes r.name name ↔ order.Precedes r.name name)) →
      ((∃ e, (run d).2 = .error e) ∧ ∃ e, (run { d with definitions := order }).2 = .error e) ∨
        ((run d).2 = .ok {} ∧ (run { d with definitions := order }).2 = .ok {} ∧
          ∀ name, (run d).1.definitions.get? name =
            (run { d with definitions := order }).1.definitions.get? name)) ∧
    (d.Closed → (∀ name r, Reads d.definitions name r → ∀ place,
        Place.ofSegments? r.tail = some place → place.avoidsUnions) →
      (run d).2 = .ok {}) := by
  constructor
  · intro order perm kept
    have reordered : Reordered d.definitions order := ⟨distinct, perm, kept⟩
    rcases walkPass_cases after d with ⟨left, e, failed⟩ | ⟨left, ran⟩
    · refine Or.inl ⟨⟨e, congrArg Prod.snd failed⟩, ?_⟩
      rcases walkPass_cases after { d with definitions := order } with ⟨_, e', fails⟩ | ⟨_, again⟩
      · exact ⟨e', congrArg Prod.snd fails⟩
      · -- What goes through in the one order goes through in the other.
        obtain ⟨_, through, _⟩ := walkPass_of_perm reordered.symm.distinct perm.symm
          (fun _ become _ _ _ _ _ _ => reordered.symm.walkedRoot_eq become) again
        cases failed.symm.trans through
    · obtain ⟨left', again, same⟩ := walkPass_of_perm distinct perm
        (fun _ become _ _ _ _ _ _ => reordered.walkedRoot_eq become) ran
      refine Or.inr ⟨congrArg Prod.snd ran, congrArg Prod.snd again, fun name => ?_⟩
      rw [run, run, ran, again]
      exact same name
  · intro closed avoids
    obtain ⟨left, ran⟩ := exists_run closed avoids
    exact congrArg Prod.snd ran

/-- A blend is a paint or a shade more, and a paint is one of the shades or one more. -/
def paints : Document where
  raw := [("definitions", .null)]
  flavor := .definitions
  hasSlot := true
  definitions :=
    let union (name : String) (more : Schema) : Schema :=
      { children := { anyOf := some [.ofReference (.toDefinition name .definitions), more] } }
    [("Shade", shade ["red", "blue"]), ("Paint", union "Shade" (shade ["green"])),
      ("Blend", union "Paint" (shade ["grey"]))]

theorem reads_paints {name : String} {r : Reference} (reads : Reads paints.definitions name r) :
    name = "Paint" ∧ r = .toDefinition "Shade" .definitions ∨
      name = "Blend" ∧ r = .toDefinition "Paint" .definitions := by
  obtain ⟨root, listed, node, met, member⟩ := reads
  have each : ∀ e ∈ paints.definitions, ∀ node ∈ e.2.met [], ∀ r ∈ memberReferences node.2,
      e.1 = "Paint" ∧ r = .toDefinition "Shade" .definitions ∨
        e.1 = "Blend" ∧ r = .toDefinition "Paint" .definitions := by decide
  exact each _ listed node met r member

/-- The shades last. -/
def shadesLast : Definitions := paints.definitions.drop 1 ++ paints.definitions.take 1

theorem unions_of_reordered_paints :
    paints.definitions.Distinct ∧ shadesLast.Perm paints.definitions ∧
    (∀ name r, Reads paints.definitions name r → Joins paints.definitions r →
      (paints.definitions.Precedes r.name name ↔ shadesLast.Precedes r.name name)) ∧
    (((∃ e, (run paints).2 = .error e) ∧
        ∃ e, (run { paints with definitions := shadesLast }).2 = .error e) ∨
      ((run paints).2 = .ok {} ∧ (run { paints with definitions := shadesLast }).2 = .ok {} ∧
        ∀ name, (run paints).1.definitions.get? name =
          (run { paints with definitions := shadesLast }).1.definitions.get? name)) ∧
    paints.Closed ∧ (∀ name r, Reads paints.definitions name r → ∀ place,
      Place.ofSegments? r.tail = some place → place.avoidsUnions) ∧
    (run paints).2 = .ok {} := by
  have perm : shadesLast.Perm paints.definitions :=
    List.perm_append_comm.trans (.of_eq (List.take_append_drop 1 _))
  have kept : ∀ name r, Reads paints.definitions name r → Joins paints.definitions r →
      (paints.definitions.Precedes r.name name ↔ shadesLast.Precedes r.name name) := by
    rintro name r reads ⟨root, place, found, stands, meets⟩
    rcases reads_paints reads with ⟨rfl, rfl⟩ | ⟨rfl, rfl⟩
    · cases found
      cases stands
      cases meets
    · decide
  have avoids : ∀ name r, Reads paints.definitions name r → ∀ place,
      Place.ofSegments? r.tail = some place → place.avoidsUnions := by
    intro name r reads place stands i
    rcases reads_paints reads with ⟨rfl, rfl⟩ | ⟨rfl, rfl⟩ <;>
    · cases stands
      exact List.not_mem_nil
  obtain ⟨reordered, goesThrough⟩ := unions_of_reordered paints (by decide)
  exact ⟨by decide, perm, kept, reordered shadesLast perm kept, by decide, avoids,
    goesThrough (by decide) avoids⟩

/-- Before the paints stands a blend, and is left with no enumeration. -/
theorem union_first_matters : ¬ ∀ (d : Document) (order : Definitions),
    d.definitions.Distinct → order.Perm d.definitions → d.Closed →
    Document.Closed { d with definitions := order } → ∀ name,
    (run d).1.definitions.get? name =
      (run { d with definitions := order }).1.definitions.get? name := by
  intro same
  have blend := same paints paints.definitions.reverse (by decide) paints.definitions.reverse_perm
    (by decide) (by decide) "Blend"
  exact absurd (congrArg (Option.map fun s => s.keywords.enum.isSome) blend) (by decide)

end AnyOf
end SchemaGraph
