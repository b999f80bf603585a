import Mathlib.Data.List.Forall2
import SchemaGraph.Pass.AnyOf
import SchemaGraph.Proofs.FoldedContent

/- What the members of an `anyOf` have in common. The collapse goes through them once and keeps what
   is common so far, or an unconstrained string from the first disagreement on. What it comes to can
   be said of all members at once, so their order does not matter. -/
namespace SchemaGraph.AnyOf

/-- The values of the list that equal none of the seen ones and none before them. -/
def newValues (seen : List Json) : List Json → List Json
  | [] => []
  | v :: rest =>
    if seen.any (v.equiv ·) then newValues seen rest else v :: newValues (seen ++ [v]) rest

theorem unionValues_eq (values more : List Json) :
    unionValues values more = values ++ newValues values more := by
  induction more generalizing values with
  | nil => simp [unionValues, newValues]
  | cons v rest ih =>
    rw [unionValues, List.foldl_cons, ← unionValues, newValues]
    split
    · exact ih values
    · rw [ih, List.append_assoc, List.singleton_append]

theorem newValues_append (seen l more : List Json) :
    newValues seen (l ++ more) = newValues seen l ++ newValues (seen ++ newValues seen l) more := by
  induction l generalizing seen with
  | nil => rw [newValues, List.nil_append, List.nil_append, List.append_nil]
  | cons v rest ih =>
    rw [List.cons_append, newValues, newValues]
    split
    · exact ih seen
    · rw [ih, List.cons_append, List.append_assoc, List.singleton_append]

theorem mem_of_mem_newValues {seen l : List Json} {v : Json} (listed : v ∈ newValues seen l) :
    v ∈ l := by
  induction l generalizing seen with
  | nil => cases listed
  | cons first rest ih =>
    rw [newValues] at listed
    split at listed
    · exact List.mem_cons_of_mem _ (ih listed)
    · rcases List.mem_cons.mp listed with rfl | later
      · exact List.mem_cons_self
      · exact List.mem_cons_of_mem _ (ih later)

/-- The list has the value, or one that equals it. -/
def Has (l : List Json) (v : Json) : Prop := ∃ w ∈ l, v = w ∨ v.equiv w = true

theorem has_of_mem {l : List Json} {v : Json} (listed : v ∈ l) : Has l v :=
  ⟨v, listed, Or.inl rfl⟩

theorem has_newValues {l : List Json} {v : Json} (seen : List Json) (listed : v ∈ l) :
    Has (seen ++ newValues seen l) v := by
  induction l generalizing seen with
  | nil => cases listed
  | cons first rest ih =>
    rw [newValues]
    rcases List.mem_cons.mp listed with rfl | later
    · split
      · rename_i known
        obtain ⟨w, inside, same⟩ := List.any_eq_true.mp known
        exact ⟨w, List.mem_append_left _ inside, Or.inr same⟩
      · exact has_of_mem (List.mem_append_right _ List.mem_cons_self)
    · split
      · exact ih seen later
      · have further := ih (seen ++ [first]) later
        rwa [List.append_assoc, List.singleton_append] at further

/-- Both lists have the same values. -/
def SameValues (l l' : List Json) : Prop := (∀ v ∈ l, Has l' v) ∧ ∀ v ∈ l', Has l v

/-- What one member and those after it have in common. -/
inductive IsCommon (first : Schema) (rest : List Schema) : Common → Prop where
  | agreed {c : Common}
      (same : ∀ m ∈ first :: rest, m.keywords.type = c.type ∧ m.keywords.format = c.format)
      (listed : ∀ values, first.keywords.enum = some values →
        (∀ m ∈ rest, m.keywords.enum.isSome) →
        c.enum = some (values ++ newValues values (rest.flatMap (·.keywords.enum.getD []))))
      (free : (∃ m ∈ first :: rest, m.keywords.enum = none) → c.enum = none) :
      IsCommon first rest c
  | torn (differ : ∃ m ∈ first :: rest, ∃ m' ∈ first :: rest,
        m.keywords.type ≠ m'.keywords.type ∨ m.keywords.format ≠ m'.keywords.format) :
      IsCommon first rest ⟨some "string", none, none⟩

section
variable {first m : Schema} {rest : List Schema} {c : Common}

theorem isCommon_ofMember (first : Schema) : IsCommon first [] (.ofMember first.keywords) := by
  refine .agreed (fun m listed => ?_) (fun values held _ => ?_) fun bare => ?_
  · cases List.mem_singleton.mp listed
    exact ⟨rfl, rfl⟩
  · change first.keywords.enum = _
    rw [held]
    simp [newValues]
  · obtain ⟨m, listed, none⟩ := bare
    cases List.mem_singleton.mp listed
    exact none

theorem Common.join_of_torn (k : Keywords) :
    Common.join ⟨some "string", none, none⟩ k = ⟨some "string", none, none⟩ := by
  rw [join]
  split <;> rfl

theorem Common.join_of_differ {k : Keywords} (differ : ¬ (c.type = k.type ∧ c.format = k.format)) :
    c.join k = ⟨some "string", none, none⟩ := by
  rw [join, if_neg differ]

theorem Common.join_of_same {k : Keywords} (same : c.type = k.type ∧ c.format = k.format) :
    c.join k = { c with enum := match c.enum, k.enum with
      | some values, some more => some (unionValues values more)
      | _, _ => none } :=
  congrArg (fun kept : Common => { kept with enum := match kept.enum, k.enum with
    | some values, some more => some (unionValues values more)
    | _, _ => none }) (if_pos same)

/-- One member more. -/
theorem IsCommon.join (common : IsCommon first rest c) (m : Schema) :
    IsCommon first (rest ++ [m]) (c.join m.keywords) := by
  cases common with
  | torn differ =>
    obtain ⟨one, inOne, other, inOther, differ⟩ := differ
    rw [Common.join_of_torn]
    exact .torn ⟨one, List.mem_append_left [m] inOne, other, List.mem_append_left [m] inOther, differ⟩
  | agreed same listed free =>
    by_cases agrees : c.type = m.keywords.type ∧ c.format = m.keywords.format
    · rw [Common.join_of_same agrees]
      refine .agreed ?_ ?_ ?_
      · refine List.forall_mem_append.mpr ⟨same, List.forall_mem_singleton.mpr ?_⟩
        exact ⟨agrees.1.symm, agrees.2.symm⟩
      · intro values held each
        obtain ⟨before, last⟩ := List.forall_mem_append.mp each
        obtain ⟨more, heldLast⟩ := Option.isSome_iff_exists.mp (last m (List.mem_singleton.mpr rfl))
        dsimp only
        rw [listed values held before, heldLast]
        dsimp only
        rw [unionValues_eq, List.append_assoc, List.flatMap_append, newValues_append,
          List.flatMap_singleton, heldLast, Option.getD_some]
      · rintro ⟨other, inside, none⟩
        rcases List.mem_append.mp (show other ∈ (first :: rest) ++ [m] from inside) with old | new
        · dsimp only
          rw [free ⟨other, old, none⟩]
        · cases List.mem_singleton.mp new
          dsimp only
          rw [none]
          cases c.enum <;> rfl
    · rw [Common.join_of_differ agrees]
      obtain ⟨type, format⟩ := same first List.mem_cons_self
      refine .torn ⟨first, List.mem_cons_self, m, List.mem_append_right (first :: rest)
        (List.mem_singleton.mpr rfl), ?_⟩
      rw [type, format, ← not_and_or]
      exact agrees

theorem isCommon_foldl (common : IsCommon first rest c) (more : List Schema) :
    IsCommon first (rest ++ more) (more.foldl (fun c m => c.join m.keywords) c) := by
  induction more generalizing rest c with
  | nil => rwa [List.append_nil]
  | cons m more ih =>
    rw [List.foldl_cons, List.append_cons]
    exact ih (common.join m)

theorem exists_common (first : Schema) (rest : List Schema) :
    ∃ c, common? (first :: rest) = some c ∧ IsCommon first rest c :=
  ⟨_, rfl, isCommon_foldl (isCommon_ofMember first) rest⟩

/-- The common values are those of the members. -/
theorem values_of_listed (rest : List Schema) {values : List Json}
    (held : first.keywords.enum = some values) :
    let all := values ++ newValues values (rest.flatMap (·.keywords.enum.getD []))
    (∀ v ∈ all, ∃ m ∈ first :: rest, v ∈ m.keywords.enum.getD []) ∧
      ∀ m ∈ first :: rest, ∀ v ∈ m.keywords.enum.getD [], Has all v := by
  constructor
  · intro v inside
    rcases List.mem_append.mp inside with own | new
    · exact ⟨first, List.mem_cons_self, by rwa [held]⟩
    · obtain ⟨m, later, listed⟩ := List.mem_flatMap.mp (mem_of_mem_newValues new)
      exact ⟨m, List.mem_cons_of_mem _ later, listed⟩
  · intro m listed v inside
    rcases List.mem_cons.mp listed with rfl | later
    · rw [held] at inside
      exact has_of_mem (List.mem_append_left _ inside)
    · exact has_newValues values (List.mem_flatMap.mpr ⟨m, later, inside⟩)

/-- Members in another order have the same in common. -/
theorem IsCommon.of_perm {first' : Schema} {rest' : List Schema} {c' : Common}
    (common : IsCommon first rest c) (common' : IsCommon first' rest' c')
    (perm : (first' :: rest').Perm (first :: rest)) :
    c'.type = c.type ∧ c'.format = c.format ∧ Option.Rel SameValues c.enum c'.enum := by
  cases common with
  | torn differ =>
    cases common' with
    | torn => exact ⟨rfl, rfl, .none⟩
    | agreed same _ _ =>
      obtain ⟨one, inOne, other, inOther, differ⟩ := differ
      have here := same one (perm.mem_iff.mpr inOne)
      have there := same other (perm.mem_iff.mpr inOther)
      rw [here.1, here.2, there.1, there.2] at differ
      simp at differ
  | agreed same listed free =>
    cases common' with
    | torn differ =>
      obtain ⟨one, inOne, other, inOther, differ⟩ := differ
      have here := same one (perm.mem_iff.mp inOne)
      have there := same other (perm.mem_iff.mp inOther)
      rw [here.1, here.2, there.1, there.2] at differ
      simp at differ
    | agreed same' listed' free' =>
      have here := same first List.mem_cons_self
      have there := same' first (perm.mem_iff.mpr List.mem_cons_self)
      refine ⟨there.1.symm.trans here.1, there.2.symm.trans here.2, ?_⟩
      by_cases bare : ∃ m ∈ first :: rest, m.keywords.enum = none
      · obtain ⟨m, inside, none⟩ := bare
        rw [free ⟨m, inside, none⟩, free' ⟨m, perm.mem_iff.mpr inside, none⟩]
        exact .none
      · have every (m : Schema) (inside : m ∈ first :: rest) : m.keywords.enum.isSome := by
          rw [Option.isSome_iff_ne_none]
          exact fun none => bare ⟨m, inside, none⟩
        obtain ⟨values, held⟩ := Option.isSome_iff_exists.mp (every first List.mem_cons_self)
        obtain ⟨values', held'⟩ := Option.isSome_iff_exists.mp
          (every first' (perm.mem_iff.mp List.mem_cons_self))
        rw [listed values held fun m later => every m (List.mem_cons_of_mem _ later),
          listed' values' held' fun m later =>
            every m (perm.mem_iff.mp (List.mem_cons_of_mem _ later))]
        obtain ⟨origin, covered⟩ := values_of_listed rest held
        obtain ⟨origin', covered'⟩ := values_of_listed rest' held'
        refine .some ⟨fun v inside => ?_, fun v inside => ?_⟩
        · obtain ⟨m, listed, said⟩ := origin v inside
          exact covered' m (perm.mem_iff.mpr listed) v said
        · obtain ⟨m, listed, said⟩ := origin' v inside
          exact covered m (perm.mem_iff.mp listed) v said

end

/-- A member as the collapse reads it: one that is a reference has its target laid over it. -/
inductive Overlaid (graph : Definitions) (member : Schema) : Schema → Prop where
  | inline (none : member.keywords.reference = none) : Overlaid graph member member
  | laid {r : Reference} {target : Schema} (refers : member.keywords.reference = some r)
      (leads : graph.target? r = some target) :
      Overlaid graph member (target.onto { member with keywords.reference := none })

theorem Overlaid.resolveMember {graph : Definitions} {member m : Schema} (p : Position)
    (overlaid : Overlaid graph member m) : resolveMember graph p member = .ok m := by
  rw [AnyOf.resolveMember]
  cases overlaid with
  | inline none => rw [none]
  | laid refers leads =>
    rw [refers]
    dsimp only
    rw [Definitions.resolve, leads]
    rfl

/-- What is left of a union when its members have been read. -/
theorem after_of_members {graph : Definitions} (p : Position) {s : Schema} {members : List Schema}
    (held : s.children.anyOf = some members) :
    after graph p s = (members.mapM (resolveMember graph p)).map fun read =>
      ((common? read).map (collapse { s with children.anyOf := none })).getD
        { s with children.anyOf := none } := by
  rw [after, held]
  dsimp only
  cases members.mapM (resolveMember graph p) with
  | error e => rfl
  | ok read =>
    change Except.ok _ = Except.ok (((common? read).map _).getD _)
    cases common? read <;> rfl

theorem after_of_overlaid {graph : Definitions} (p : Position) {s first : Schema}
    {members rest : List Schema} {c : Common} (held : s.children.anyOf = some members)
    (overlaid : List.Forall₂ (Overlaid graph) members (first :: rest))
    (common : common? (first :: rest) = some c) :
    after graph p s = .ok (collapse { s with children.anyOf := none } c) := by
  have resolved : members.mapM (resolveMember graph p) = .ok (first :: rest) :=
    mapM_eq_ok_iff.mpr (overlaid.imp fun _ _ laid => laid.resolveMember p)
  rw [after_of_members p held, resolved]
  change Except.ok (((common? (first :: rest)).map _).getD _) = _
  rw [common]
  rfl

/-- The members of a union leave what they have in common, and where they have nothing in common the
node keeps its own. Members in another order leave the same type, the same format and an enumeration
with the same values. -/
theorem collapses_to_common {graph : Definitions} (p : Position) {s first : Schema}
    {members rest : List Schema} (held : s.children.anyOf = some members)
    (overlaid : List.Forall₂ (Overlaid graph) members (first :: rest)) :
    ∃ c, IsCommon first rest c ∧
      after graph p s = .ok { s with
        children.anyOf := none
        keywords.type := c.type.or s.keywords.type
        keywords.format := c.format.or s.keywords.format
        keywords.enum := c.enum.or s.keywords.enum } ∧
      ∀ others : List Schema, others.Perm members → ∃ enum, Option.Rel SameValues c.enum enum ∧
        after graph p { s with children.anyOf := some others } = .ok { s with
          children.anyOf := none
          keywords.type := c.type.or s.keywords.type
          keywords.format := c.format.or s.keywords.format
          keywords.enum := enum.or s.keywords.enum } := by
  obtain ⟨c, found, common⟩ := exists_common first rest
  refine ⟨c, common, after_of_overlaid p held overlaid found, fun others perm => ?_⟩
  obtain ⟨read, overlaid', perm'⟩ := List.perm_comp_forall₂ perm overlaid
  cases read with
  | nil => cases perm'.nil_eq
  | cons first' rest' =>
    obtain ⟨c', found', common'⟩ := exists_common first' rest'
    obtain ⟨type, format, enum⟩ := common.of_perm common' perm'
    refine ⟨c'.enum, enum, ?_⟩
    rw [after_of_overlaid (s := { s with children.anyOf := some others }) p rfl overlaid' found',
      collapse, type, format]

def shade (names : List String) : Schema :=
  { keywords := { type := some "string", enum := some (names.map .str) } }

def shades : Definitions := [("Shade", shade ["red", "blue"])]

/-- One of the shades, or one of two colours more. -/
def colour : Schema :=
  let known : Schema := .ofReference (.toDefinition "Shade" .definitions)
  { children := { anyOf := some [known, shade ["blue", "green"]] } }

theorem collapses_to_common_colour :
    ∃ members first rest, colour.children.anyOf = some members ∧
      List.Forall₂ (Overlaid shades) members (first :: rest) ∧
      ∃ c, IsCommon first rest c ∧
        after shades { flavor := .definitions, definition := "Colour" } colour = .ok { colour with
          children.anyOf := none
          keywords.type := c.type.or colour.keywords.type
          keywords.format := c.format.or colour.keywords.format
          keywords.enum := c.enum.or colour.keywords.enum } ∧
        ∀ others : List Schema, others.Perm members → ∃ enum, Option.Rel SameValues c.enum enum ∧
          after shades { flavor := .definitions, definition := "Colour" }
              { colour with children.anyOf := some others } = .ok { colour with
            children.anyOf := none
            keywords.type := c.type.or colour.keywords.type
            keywords.format := c.format.or colour.keywords.format
            keywords.enum := enum.or colour.keywords.enum } := by
  have known : Overlaid shades (.ofReference (.toDefinition "Shade" .definitions)) _ :=
    .laid rfl rfl
  have new : Overlaid shades (shade ["blue", "green"]) _ := .inline rfl
  have overlaid := List.Forall₂.cons known (.cons new .nil)
  exact ⟨_, _, _, rfl, overlaid, collapses_to_common _ rfl overlaid⟩

/-- The shades come first, and of the two colours only the new one follows. -/
example : (after shades { flavor := .definitions, definition := "Colour" } colour).toOption.bind
    (·.keywords.enum) = some [.str "red", .str "blue", .str "green"] := rfl

end SchemaGraph.AnyOf
