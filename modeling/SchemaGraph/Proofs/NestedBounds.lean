import SchemaGraph.Proofs.ContentPasses
import SchemaGraph.Proofs.MultipliedBounds
import SchemaGraph.Proofs.OptionalBranches
import SchemaGraph.Proofs.RepeatingGroups

/- Groups directly inside groups around one object. The pass folds them away from the innermost
   outwards, wherever the outermost of them stands in a definition, and every bound of a property of
   the object becomes the product of all. -/
namespace SchemaGraph.Repetition

/-- A group that repeats a sequence of one member: what it says itself and what its items say. -/
structure Layer where
  group : Keywords
  items : Keywords
  anonymous : group.reference = none
  many : group.type = some "array"
  inline : items.reference = none
  single : items.type ≠ some "array"
  least : group.minItems.getD 0 ≤ maxBound
  most : ∀ m, group.maxItems = some m → m ≤ maxBound

namespace Layer
variable (l : Layer)

/-- How often the group occurs. -/
def bounds : Bounds := ⟨l.group.minItems.getD 0, nonzero l.group.maxItems⟩

/-- The sequence that the group repeats. -/
def sequence (s : Schema) : Schema := ⟨l.items, { allOf := some [s] }⟩

def around (s : Schema) : Schema := ⟨l.group, { items := some (l.sequence s) }⟩

theorem proper : l.bounds.Proper where
  min := l.least
  max := by
    intro m bounded
    obtain ⟨held, positive⟩ := Option.filter_eq_some_iff.mp bounded
    exact ⟨Nat.pos_of_ne_zero (by simpa using positive), l.most m held⟩

theorem isRepeatingGroup_around (s : Schema) : (l.around s).isRepeatingGroup = true := by
  have many : (l.around s).isArray = true := beq_iff_eq.mpr l.many
  rw [Schema.isRepeatingGroup, many]
  rfl

theorem isArray_sequence (s : Schema) : (l.sequence s).isArray = false :=
  beq_eq_false_iff_ne.mpr l.single

end Layer

/-- The groups around an object, the outermost first. -/
def grouped (layers : List Layer) (o : Schema) : Schema := layers.foldr Layer.around o

/-- The sequences that are left of the groups. -/
def ungrouped (layers : List Layer) (o : Schema) : Schema := layers.foldr Layer.sequence o

theorem reference_ungrouped (layers : List Layer) {o : Schema}
    (inline : o.keywords.reference = none) : (ungrouped layers o).keywords.reference = none := by
  cases layers with
  | nil => exact inline
  | cons l layers => exact l.inline

/-- A fold goes through what is left of other groups. -/
theorem fold_ungrouped (g : Setting) (hops : Nat) (b : Bounds) (layers : List Layer) {o : Schema}
    (inline : o.keywords.reference = none) :
    fold g (hops + 1) (ungrouped layers o) b =
      (fold g (hops + 1) o b).map (ungrouped layers) := by
  induction layers with
  | nil =>
    change fold g (hops + 1) o b = (fold g (hops + 1) o b).map id
    rw [Except.map_id, id]
  | cons l layers ih =>
    have child : foldChild g hops b (ungrouped layers o) =
        (fold g (hops + 1) o b).map (ungrouped layers) := by
      rw [foldChild, reference_ungrouped layers inline]
      exact ih
    have members : foldMembers g hops b (ungrouped (l :: layers) o) =
        (fold g (hops + 1) o b).map (ungrouped (l :: layers)) := by
      change (do return { l.sequence (ungrouped layers o) with
        children.allOf := some (← [ungrouped layers o].mapM (foldChild g hops b)) }) = _
      rw [List.mapM_cons, child]
      cases fold g (hops + 1) o b <;> rfl
    rw [fold_succ, members]
    cases fold g (hops + 1) o b with
    | error e => rfl
    | ok left =>
      change foldContent g hops b none (l.sequence (ungrouped layers left)) = _
      unfold foldContent
      rw [l.isArray_sequence, if_neg (by simp)]
      rfl

/-- Groups around one object, whose references are such. -/
def IsNest (leads : Reference → Prop) (slot : Schema) : Prop :=
  ∃ layers o t, slot = grouped layers o ∧ PlainObject o t ∧ Idle o ∧
    ∀ e ∈ t, ∀ r, e.2.keywords.reference = some r → leads r

/-- All groups that the pass folds in the schema are nests. -/
def NestsOnly (leads : Reference → Prop) (s : Schema) : Prop :=
  ∀ node ∈ s.met [], ∀ slot ∈ examined node.2, slot.isRepeatingGroup = true → IsNest leads slot

theorem nestsOnly_iff (leads : Reference → Prop) (s : Schema) : NestsOnly leads s ↔
    (∀ slot ∈ examined s, slot.isRepeatingGroup = true → IsNest leads slot) ∧
      ∀ child ∈ s.children.entered.toList, NestsOnly leads child := by
  obtain ⟨k, c⟩ := s
  rw [← Children.each_iff]
  exact Schema.forall_met_mk_iff (fun s =>
    ∀ slot ∈ examined s, slot.isRepeatingGroup = true → IsNest leads slot) k c

theorem Idle.nestsOnly {leads : Reference → Prop} {s : Schema} (idle : Idle s) :
    NestsOnly leads s := by
  intro node met slot looked group
  rw [idle node met slot looked] at group
  cases group

theorem nestsOnly_grouped {leads : Reference → Prop} (layers : List Layer) {o : Schema}
    {t : Table Schema} (plain : PlainObject o t) (idle : Idle o)
    (references : ∀ e ∈ t, ∀ r, e.2.keywords.reference = some r → leads r) :
    NestsOnly leads (grouped layers o) := by
  induction layers with
  | nil => exact idle.nestsOnly
  | cons l layers ih =>
    refine (nestsOnly_iff _ _).mpr ⟨fun slot looked => (nomatch looked), fun items listed => ?_⟩
    cases List.mem_singleton.mp listed
    refine (nestsOnly_iff _ _).mpr ⟨fun slot looked _ => ?_, fun member listed => ?_⟩
    · cases List.mem_singleton.mp looked
      exact ⟨layers, o, t, rfl, plain, idle, references⟩
    · cases List.mem_singleton.mp listed
      exact ih

/-- The children at the step are those that the pass looks at. -/
def looksAt (s : Schema) : Step → Bool
  | .allOf _ => true
  | .oneOf _ => s.children.allOf.isNone
  | _ => false

/-- The place is one that a walk enters, and no step of it leads to a group that the pass folds. -/
def OutsideGroups : Place → Schema → Prop
  | [], _ => True
  | step :: rest, s => step.isEntered = true ∧ ∀ child, s.children.child? step = some child →
      (looksAt s step = true → child.isRepeatingGroup = false) ∧ OutsideGroups rest child

section
variable {graph : Definitions} {p : Position}

theorem unfoldGroup_of_single {slot : Schema} (single : slot.isRepeatingGroup = false) :
    unfoldGroup graph p slot = .ok slot := by
  rw [unfoldGroup, single]

theorem unfoldGroup_around (l : Layer) (s : Schema) : unfoldGroup graph p (l.around s) =
    fold ⟨graph, l.group.group, p.location⟩ (nodes graph + 1) (l.sequence s) l.bounds := by
  have inline : (l.sequence s).keywords.reference = none := l.inline
  have held : (l.around s).children.items = some (l.sequence s) := rfl
  rw [unfoldGroup, l.isRepeatingGroup_around, held]
  dsimp only
  rw [Definitions.deref, inline]
  rfl

theorem mapM_unfoldGroup_of_single {l : List Schema}
    (single : ∀ slot ∈ l, slot.isRepeatingGroup = false) :
    l.mapM (unfoldGroup graph p) = .ok l :=
  mapM_eq_ok_iff.mpr (List.forall₂_same.mpr fun slot listed =>
    unfoldGroup_of_single (single slot listed))

theorem after_of_single {s : Schema}
    (single : ∀ slot ∈ examined s, slot.isRepeatingGroup = false) : after graph p s = .ok s := by
  obtain ⟨k, c⟩ := s
  rw [after]
  split
  · rename_i l held
    dsimp only at held
    rw [mapM_unfoldGroup_of_single fun slot listed => single slot (by simpa [examined, held])]
    change Except.ok (⟨k, { c with allOf := some l }⟩ : Schema) = _
    rw [← held]
  · rename_i l none held
    dsimp only at none held
    rw [mapM_unfoldGroup_of_single fun slot listed => single slot (by simpa [examined, none, held])]
    change Except.ok (⟨k, { c with oneOf := some l }⟩ : Schema) = _
    rw [← held]
  · rfl

theorem exists_after {s : Schema}
    (each : ∀ slot ∈ examined s, ∃ left, unfoldGroup graph p slot = .ok left) :
    ∃ left, after graph p s = .ok left := by
  rw [after]
  split
  · rename_i l held
    obtain ⟨l', unfolded⟩ :=
      exists_mapM_eq_ok fun slot listed => each slot (by simpa [examined, held])
    exact ⟨_, by rw [unfolded]; rfl⟩
  · rename_i l none held
    obtain ⟨l', unfolded⟩ :=
      exists_mapM_eq_ok fun slot listed => each slot (by simpa [examined, none, held])
    exact ⟨_, by rw [unfolded]; rfl⟩
  · exact ⟨_, rfl⟩

section
variable {k : Keywords} {c : Children Schema} {left : Schema}
  (made : after graph p ⟨k, c⟩ = .ok left)
include made

theorem shaped_of_after : Shaped ⟨k, c⟩ left ∧ left.children.items = c.items := by
  obtain ⟨l, l', held, _, rfl⟩ | ⟨_, l, l', held, _, rfl⟩ | ⟨_, _, rfl⟩ := after_cases made
  · exact ⟨⟨rfl, rfl, by simp [held], rfl⟩, rfl⟩
  · exact ⟨⟨rfl, rfl, rfl, by simp [held]⟩, rfl⟩
  · exact ⟨⟨rfl, rfl, rfl, rfl⟩, rfl⟩

/-- What becomes of a child that the pass looks at. -/
theorem exists_child?_after {step : Step} (looked : looksAt ⟨k, c⟩ step = true) {child : Schema}
    (found : c.child? step = some child) :
    ∃ changed, unfoldGroup graph p child = .ok changed ∧ left.children.child? step = some changed := by
  have member {l l' : List Schema} {i : Nat} (unfolded : l.mapM (unfoldGroup graph p) = .ok l')
      (inside : l[i]? = some child) :
      ∃ changed, unfoldGroup graph p child = .ok changed ∧ l'[i]? = some changed := by
    have pair := optionRel_getElem? (mapM_eq_ok_iff.mp unfolded) i
    rw [inside] at pair
    generalize l'[i]? = o at pair
    cases pair with
    | some same => exact ⟨_, same, rfl⟩
  cases step with
  | allOf i =>
    obtain ⟨l, held, inside⟩ := Option.bind_eq_some_iff.mp found
    obtain ⟨_, l', held', unfolded, rfl⟩ | ⟨none, _⟩ | ⟨none, _⟩ := after_cases made
    · cases held.symm.trans held'
      exact member unfolded inside
    · cases held.symm.trans none
    · cases held.symm.trans none
  | oneOf i =>
    obtain ⟨l, held, inside⟩ := Option.bind_eq_some_iff.mp found
    have noSequence : c.allOf = none := Option.isNone_iff_eq_none.mp looked
    obtain ⟨_, l', held', _⟩ | ⟨_, _, l', held', unfolded, rfl⟩ | ⟨_, none, _⟩ := after_cases made
    · cases noSequence.symm.trans held'
    · cases held.symm.trans held'
      exact member unfolded inside
    · cases held.symm.trans none
  | property | items | not | additional | anyOf => cases looked

theorem child?_after_of_not_looked {step : Step} (other : looksAt ⟨k, c⟩ step = false) :
    left.children.child? step = c.child? step := by
  obtain ⟨l, l', held, _, rfl⟩ | ⟨noSequence, _, _, _, _, rfl⟩ | ⟨_, _, rfl⟩ := after_cases made
  · cases step with
    | allOf => cases other
    | property | items | not | additional | oneOf | anyOf => rfl
  · cases step with
    | oneOf => exact absurd other (by simp [looksAt, noSequence])
    | property | items | not | additional | allOf | anyOf => rfl
  · rfl

theorem child?_after_of_single {step : Step} {child : Schema} (found : c.child? step = some child)
    (single : looksAt ⟨k, c⟩ step = true → child.isRepeatingGroup = false) :
    left.children.child? step = some child := by
  cases looked : looksAt ⟨k, c⟩ step with
  | false => rw [child?_after_of_not_looked made looked, found]
  | true =>
    obtain ⟨changed, unfolded, found'⟩ := exists_child?_after made looked found
    rw [unfoldGroup_of_single (single looked)] at unfolded
    cases unfolded
    exact found'

end

/-- The groups around objects among the members of the holder are folded away. -/
def Unfolded (graph : Definitions) (holder left : Schema) : Prop :=
  ∀ i layers o t, PlainObject o t → Idle o →
    holder.children.child? (.allOf i) = some (grouped layers o) →
    ∃ o', FoldedBy graph (layers.map Layer.bounds) o o' ∧
      left.children.child? (.allOf i) = some (ungrouped layers o')

/-- What a walk makes of a node before the pass is at the node above. -/
structure Followed (graph : Definitions) (s left : Schema) : Prop extends Shaped s left where
  items : Option.Rel Shaped s.children.items left.children.items
  idle : Idle s → left = s
  sequence : ∀ l layers o t, PlainObject o t → Idle o → s = Layer.sequence l (grouped layers o) →
    ∃ o', FoldedBy graph (layers.map Layer.bounds) o o' ∧ left = l.sequence (ungrouped layers o')
  group : ∀ l layers o t, PlainObject o t → Idle o → s = Layer.around l (grouped layers o) →
    ∃ o', FoldedBy graph (layers.map Layer.bounds) o o' ∧ left = l.around (ungrouped layers o')
  placed : ∀ place holder, OutsideGroups place s → s.node? place = some holder →
    ∃ holder', left.node? place = some holder' ∧ Unfolded graph holder holder'

theorem PlainObject.isRepeatingGroup {o : Schema} {t : Table Schema} (plain : PlainObject o t) :
    o.isRepeatingGroup = false := by
  rw [Schema.isRepeatingGroup, plain.single]
  rfl

section
variable {slot walked : Schema} (followed : Followed graph slot walked)
include followed

theorem Followed.isRepeatingGroup : walked.isRepeatingGroup = slot.isRepeatingGroup :=
  isRepeatingGroup_of_items followed.type followed.items

variable {layers : List Layer} {o : Schema} {t : Table Schema} (plain : PlainObject o t)
  (idle : Idle o)
include plain idle

/-- The inner groups are gone before the pass is at an outer one, so it folds that into the
object. -/
theorem Followed.unfoldGroup_eq {l : Layer} (nest : slot = grouped (l :: layers) o) :
    ∃ o', FoldedBy graph (layers.map Layer.bounds) o o' ∧ unfoldGroup graph p walked =
      (fold ⟨graph, l.group.group, p.location⟩ (nodes graph + 1) o' l.bounds).map
        (ungrouped (l :: layers)) := by
  obtain ⟨o', folded, rfl⟩ := followed.group l layers o t plain idle nest
  obtain ⟨t', plain', _⟩ := folded.plain plain
  refine ⟨o', folded, ?_⟩
  rw [unfoldGroup_around]
  exact fold_ungrouped _ (nodes graph) l.bounds (l :: layers) plain'.reference

theorem Followed.unfoldGroup_object (nest : slot = o) : unfoldGroup graph p walked = .ok o := by
  subst nest
  rw [followed.idle idle]
  exact unfoldGroup_of_single plain.isRepeatingGroup

variable (nest : slot = grouped layers o)
include nest

theorem Followed.unfolded {left : Schema} (made : unfoldGroup graph p walked = .ok left) :
    ∃ o', FoldedBy graph (layers.map Layer.bounds) o o' ∧ left = ungrouped layers o' := by
  cases layers with
  | nil =>
    rw [followed.unfoldGroup_object plain idle nest] at made
    cases made
    exact ⟨_, .nil _, rfl⟩
  | cons l layers =>
    obtain ⟨o', folded, same⟩ := followed.unfoldGroup_eq plain idle nest
    rw [same] at made
    generalize object : fold _ _ o' l.bounds = out at made
    cases out with
    | error e => cases made
    | ok left =>
      cases made
      exact ⟨left, folded.cons rfl object, rfl⟩

theorem Followed.exists_unfolded
    (leads : ∀ e ∈ t, ∀ r, e.2.keywords.reference = some r → (graph.target? r).isSome) :
    ∃ left, unfoldGroup graph p walked = .ok left := by
  cases layers with
  | nil => exact ⟨o, followed.unfoldGroup_object plain idle nest⟩
  | cons l layers =>
    obtain ⟨o', folded, same⟩ := followed.unfoldGroup_eq (p := p) plain idle nest
    obtain ⟨t', plain', references⟩ := folded.plain plain
    let g : Setting := ⟨graph, l.group.group, p.location⟩
    obtain ⟨left, object⟩ : ∃ left, fold g (nodes graph + 1) o' l.bounds = .ok left := by
      refine plain'.exists_fold fun e' listed r refers => ?_
      obtain ⟨e, inside, refers⟩ := references e' listed r refers
      exact leads e inside r refers
    exact ⟨_, by rw [same, object]; rfl⟩

end

section
variable {k : Keywords} {c walked : Children Schema} {left : Schema}
  (related : c.Related (Followed graph) walked) (made : after graph p ⟨k, walked⟩ = .ok left)
include related

theorem looksAt_related (step : Step) : looksAt ⟨k, walked⟩ step = looksAt ⟨k, c⟩ step := by
  cases step with
  | oneOf =>
    have same := isSome_of_optionRel related.allOf
    rw [looksAt, looksAt, ← Option.not_isSome, same, Option.not_isSome]
  | property | items | not | additional | allOf | anyOf => rfl

/-- A member before the pass is at the node. -/
theorem exists_of_child? {step : Step} (entered : step.isEntered = true) {child : Schema}
    (found : c.child? step = some child) :
    ∃ child', walked.child? step = some child' ∧ Followed graph child child' := by
  have pair := related.child? entered
  rw [found] at pair
  generalize walked.child? step = o at pair
  cases pair with
  | some followed => exact ⟨_, rfl, followed⟩

include made

theorem unfolded_of_after : Unfolded graph ⟨k, c⟩ left := by
  intro i layers o t plain idle found
  obtain ⟨child, found', followed⟩ := exists_of_child? related rfl found
  obtain ⟨changed, made', last⟩ := exists_child?_after made rfl found'
  obtain ⟨o', folded, rfl⟩ := followed.unfolded plain idle rfl made'
  exact ⟨o', folded, last⟩

theorem placed_of_after (place : Place) (holder : Schema) (outside : OutsideGroups place ⟨k, c⟩)
    (found : Schema.node? place ⟨k, c⟩ = some holder) :
    ∃ holder', left.node? place = some holder' ∧ Unfolded graph holder holder' := by
  cases place with
  | nil =>
    cases found
    exact ⟨left, rfl, unfolded_of_after related made⟩
  | cons step rest =>
    obtain ⟨entered, each⟩ := outside
    obtain ⟨child, here, found⟩ := Option.bind_eq_some_iff.mp found
    obtain ⟨single, outside⟩ := each child here
    obtain ⟨child', there, followed⟩ := exists_of_child? related entered here
    obtain ⟨holder', found', unfolded⟩ := followed.placed rest holder outside found
    have stays := child?_after_of_single made there fun looked => by
      rw [looksAt_related related] at looked
      rw [followed.isRepeatingGroup, single looked]
    exact ⟨holder', by rw [Schema.node?, stays]; exact found', unfolded⟩

theorem eq_of_idle (idle : Idle ⟨k, c⟩) : left = ⟨k, c⟩ := by
  obtain ⟨single, below⟩ := (idle_iff ⟨k, c⟩).mp idle
  have same : walked = c := related.eq ((Children.each_iff _ _).mpr fun child listed _ followed =>
    followed.idle (below child listed))
  subst same
  rw [after_of_single single] at made
  exact (Except.ok.inj made).symm

section
variable {l : Layer} {layers : List Layer} {o : Schema} {t : Table Schema} (plain : PlainObject o t)
  (idle : Idle o)
include plain idle

theorem sequence_of_after (nest : (⟨k, c⟩ : Schema) = l.sequence (grouped layers o)) :
    ∃ o', FoldedBy graph (layers.map Layer.bounds) o o' ∧ left = l.sequence (ungrouped layers o') := by
  cases nest
  obtain ⟨member, followed, rfl⟩ := related.of_member
  obtain ⟨changed, unfolded, rfl⟩ : ∃ changed, unfoldGroup graph p member = .ok changed ∧
      left = l.sequence changed := by
    obtain ⟨_, _, held, unfolded, rfl⟩ | ⟨none, _⟩ | ⟨none, _⟩ := after_cases made
    · cases held
      cases mapM_eq_ok_iff.mp unfolded with
      | cons first later =>
        cases later
        exact ⟨_, first, rfl⟩
    · cases none
    · cases none
  obtain ⟨o', folded, rfl⟩ := followed.unfolded plain idle rfl unfolded
  exact ⟨o', folded, rfl⟩

theorem group_of_after (nest : (⟨k, c⟩ : Schema) = l.around (grouped layers o)) :
    ∃ o', FoldedBy graph (layers.map Layer.bounds) o o' ∧ left = l.around (ungrouped layers o') := by
  cases nest
  obtain ⟨items, followed, rfl⟩ := related.of_items
  have stays : after graph p ⟨l.group, { items := some items }⟩ = .ok _ :=
    after_of_single fun slot listed => nomatch listed
  cases made.symm.trans stays
  obtain ⟨o', folded, rfl⟩ := followed.sequence l layers o t plain idle rfl
  exact ⟨o', folded, rfl⟩

end

/-- What the pass at a node makes of it when the children have been followed. -/
theorem followed_of_after : Followed graph ⟨k, c⟩ left := by
  obtain ⟨shaped, same⟩ := shaped_of_after made
  exact {
    reference := shaped.reference
    type := shaped.type
    allOf := shaped.allOf.trans (isSome_of_optionRel related.allOf)
    oneOf := shaped.oneOf.trans (isSome_of_optionRel related.oneOf)
    items := same ▸ optionRel_imp related.items fun _ _ _ followed => followed.toShaped
    idle := eq_of_idle related made
    sequence := fun _ _ _ _ plain idle nest => sequence_of_after related made plain idle nest
    group := fun _ _ _ _ plain idle nest => group_of_after related made plain idle nest
    placed := placed_of_after related made }

omit made in
/-- Where all groups are folded around objects whose references lead somewhere, the pass at a node
does not fail. -/
theorem exists_after_of_nests
    (nests : NestsOnly (fun r => (graph.target? r).isSome) ⟨k, c⟩) :
    ∃ left, after graph p ⟨k, walked⟩ = .ok left := by
  have looked : List.Forall₂ (Followed graph) (examined ⟨k, c⟩) (examined ⟨k, walked⟩) :=
    forall₂_getD_of_optionRel related.allOf (forall₂_getD_of_optionRel related.oneOf .nil)
  refine exists_after fun slot' listed => ?_
  obtain ⟨slot, inside, followed⟩ := exists_of_mem_right looked listed
  cases group : slot.isRepeatingGroup with
  | false => exact ⟨slot', unfoldGroup_of_single (by rw [followed.isRepeatingGroup, group])⟩
  | true =>
    obtain ⟨layers, o, t, nest, plain, idle, leads⟩ :=
      ((nestsOnly_iff _ ⟨k, c⟩).mp nests).1 slot inside group
    exact followed.exists_unfolded plain idle nest leads

end

section
variable {flavor : Flavor} {name : String} {root : Schema}

/-- What a walk makes of a definition. It can only fail where a group is not folded around an object
whose references lead somewhere. -/
theorem ends_followed (p : Prop)
    (nests : p → NestsOnly (fun r => (graph.target? r).isSome) root) :
    Ends (fun _ => ¬ p) (Followed graph root) (walkedRoot after flavor graph name root) := by
  refine ends_walkedRoot _ (fun s => p → NestsOnly (fun r => (graph.target? r).isSome) s) _ ?_ ?_ nests
  · intro k c nests
    exact (Children.each_iff _ _).mpr fun child listed holds =>
      ((nestsOnly_iff _ ⟨k, c⟩).mp (nests holds)).2 child listed
  · intro position k c walked nests related
    cases made : after graph position ⟨k, walked⟩ with
    | error e =>
      intro holds
      obtain ⟨left, made'⟩ := exists_after_of_nests (p := position) related (nests holds)
      cases made.symm.trans made'
    | ok left => exact followed_of_after related made

theorem followed_of_walkedRoot {left : Schema}
    (walked : walkedRoot after flavor graph name root = .ok left) : Followed graph root left := by
  have ends : Ends (fun _ => ¬ False) (Followed graph root)
    (walkedRoot after flavor graph name root) := ends_followed False fun none => none.elim
  rwa [walked] at ends

theorem exists_walkedRoot (nests : NestsOnly (fun r => (graph.target? r).isSome) root) :
    ∃ left, walkedRoot after flavor graph name root = .ok left := by
  have ends : Ends (fun _ => ¬ True) (Followed graph root)
    (walkedRoot after flavor graph name root) := ends_followed True fun _ => nests
  cases walked : walkedRoot after flavor graph name root with
  | ok left => exact ⟨left, rfl⟩
  | error e =>
    rw [walked] at ends
    exact absurd trivial ends

end

end

/-- What a nest holds, the schema holds. -/
theorem each_of_grouped {p : Reference → Prop} {layers : List Layer} {o : Schema} {t : Table Schema}
    (each : (grouped layers o).Each p) (plain : PlainObject o t) : ∀ e ∈ t, e.2.Each p := by
  induction layers with
  | nil => exact each.below.properties t plain.properties
  | cons l layers ih =>
    have items : (l.sequence (grouped layers o)).Each p := each.below.items _ rfl
    exact ih (items.below.allOf _ rfl _ List.mem_cons_self)

theorem mem_toList_of_examined {s slot : Schema} (looked : slot ∈ examined s) :
    slot ∈ s.children.toList := by
  simp only [Children.toList, List.mem_append]
  rw [examined] at looked
  cases held : s.children.allOf with
  | none =>
    rw [held, Option.getD_none] at looked
    tauto
  | some l =>
    rw [held, Option.getD_some] at looked
    simp only [Option.getD_some]
    tauto

theorem NestsOnly.imp {p leads other : Reference → Prop} (weaker : ∀ r, p r → leads r → other r)
    {s : Schema} (each : s.Each p) (nests : NestsOnly leads s) : NestsOnly other s := by
  induction s using Schema.children_induction with
  | step k c ih =>
    obtain ⟨own, below⟩ := (nestsOnly_iff leads ⟨k, c⟩).mp nests
    have inside := (Children.each_iff _ _).mp each.below
    refine (nestsOnly_iff other ⟨k, c⟩).mpr ⟨fun slot looked group => ?_, fun child listed => ?_⟩
    · obtain ⟨layers, o, t, rfl, plain, idle, references⟩ := own slot looked group
      have properties := each_of_grouped (inside _ (mem_toList_of_examined looked)) plain
      exact ⟨layers, o, t, rfl, plain, idle, fun e member r refers =>
        weaker r ((properties e member).own.reference r refers) (references e member r refers)⟩
    · have member := (c.mem_toList_iff child).mpr (Or.inl listed)
      exact ih child member (inside child member) (below child listed)

/-- The pass does not fail on a document of which nothing dangles when it folds no groups but those
around objects whose properties refer to whole definitions. -/
theorem exists_run {d : Document} (closed : d.Closed)
    (nests : ∀ e ∈ d.definitions, NestsOnly Reference.IsPlain e.2) :
    ∃ left, run d = (left, .ok {}) := by
  have first : Reached after d [] d.definitions := .start
  obtain ⟨left, reached⟩ := first.exists_last fun finished name root later reached => by
    obtain ⟨earlier, split, _⟩ := reached.forall₂ (fun _ _ => True) fun _ _ _ _ _ _ _ => trivial
    have listed : (name, root) ∈ d.definitions := by simp [split]
    refine exists_walkedRoot ((nests _ listed).imp (fun r known plain => ?_)
      (d.each_of_closed closed _ listed))
    rwa [Definitions.target?_of_isPlain plain, ← Table.has, Table.has_iff_mem_keys, reached.keys]
  exact ⟨{ d with definitions := left }, walkPass_eq_ok_iff.mpr ⟨reached, rfl⟩⟩

/-- References to whole definitions with these names, and no error but that of a chain of references
which is too long. -/
def chainsOnly (names : List String) : Rule where
  reference := Reference.Among names
  value _ := True
  extra _ _ := True
  allowed e := ∃ location max, e = .depthExceeded location max
  names := names
  value_of_ne _ _ := trivial
  extra_nil _ := trivial
  extra_overSorted _ _ _ _ _ := trivial
  extra_filter _ _ _ _ := trivial
  depthExceeded location max := ⟨location, max, rfl⟩
  meant := Or.inl fun _ among => among

/-- Where all references are to whole definitions and none dangles, the pass can only fail because the
content of a group does not end. -/
theorem run_of_plain {d : Document} (closed : d.Closed) (plain : d.Plain) :
    (∃ left, run d = (left, .ok {})) ∨
      ∃ location max, (run d).2 = .error (.depthExceeded location max) := by
  have sound := (Document.sound_of_closed closed plain).graph
  have grounded : d.definitions.Grounded (chainsOnly d.definitions.keys) :=
    ⟨sound.defines, fun e listed => Schema.obeys_of_every (fun _ => trivial) fun node inside =>
      Keywords.obeys_of_each (fun _ => trivial) (fun _ _ => trivial) (sound.each e listed node inside)
        trivial⟩
  have ended := (Document.rewritten_walkPass grounded fun _ grounded position _ =>
    after_ends grounded position).ended
  rw [run]
  rw [Document.walkPass] at ended ⊢
  generalize d.walkAfter after = out at ended
  obtain ⟨left, e | ⟨⟩⟩ := out
  · obtain ⟨location, max, rfl⟩ := ended
    exact Or.inr ⟨location, max, rfl⟩
  · exact Or.inl ⟨left, rfl⟩

/-- The groups around objects among the members of the holder are gone, and every bound of a property
is multiplied by theirs. -/
def NestsMultiplied (holder left : Schema) : Prop :=
  ∀ i layers o t, layers ≠ [] → PlainObject o t → Idle o →
    holder.children.child? (.allOf i) = some (grouped layers o) →
    ∃ o' t', left.children.child? (.allOf i) = some (ungrouped layers o') ∧
      ObjectMultiplied (layers.map Layer.bounds) o t o' t'

theorem Unfolded.multiplied {graph : Definitions} {holder left : Schema}
    (unfolded : Unfolded graph holder left) : NestsMultiplied holder left := by
  intro i layers o t some plain idle found
  obtain ⟨o', folded, found'⟩ := unfolded i layers o t plain idle found
  obtain ⟨t', _, multiplied⟩ := folded.multiplied plain
    (List.forall_mem_map.mpr fun l _ => l.proper) (by simpa using some)
  exact ⟨o', t', found', multiplied⟩

/-- When the pass ends well, the groups around an object are gone wherever the outermost stands, and the
bounds of every property are multiplied. Where no group has a minimum above its maximum, that is the
product of all minima for the properties that become arrays, too. The pass ends well where nothing
dangles and no other groups are folded; with other groups, references into definitions and content
without end are all that can stop it. -/
theorem nested_groups_multiply (d : Document) :
    (∀ left, run d = (left, .ok {}) → List.Forall₂ (fun e e' : String × Schema => e'.1 = e.1 ∧
      ∀ place holder, OutsideGroups place e.2 → e.2.node? place = some holder →
        ∃ holder', e'.2.node? place = some holder' ∧ NestsMultiplied holder holder')
      d.definitions left.definitions) ∧
    (∀ required bs, (∀ b ∈ bs, ∀ m, b.max = some m → b.min ≤ m) → wrappedMin required bs =
      if required && lowest bs != 0 then some (clamp (lowest bs)) else none) ∧
    (d.Closed → (∀ e ∈ d.definitions, NestsOnly Reference.IsPlain e.2) →
      ∃ left, run d = (left, .ok {})) ∧
    (d.Closed → d.Plain → (∃ left, run d = (left, .ok {})) ∨
      ∃ location max, (run d).2 = .error (.depthExceeded location max)) := by
  refine ⟨fun left ran => ?_, fun required bs => wrappedMin_of_ordered required, exists_run,
    run_of_plain⟩
  obtain ⟨reached, _⟩ := walkPass_eq_ok_iff.mp ran
  obtain ⟨earlier, split, pairs⟩ := reached.forall₂
    (fun root left => ∀ place holder, OutsideGroups place root → root.node? place = some holder →
      ∃ holder', left.node? place = some holder' ∧ NestsMultiplied holder holder')
    fun _ _ _ _ _ _ walked place holder outside found => by
      obtain ⟨holder', found', unfolded⟩ :=
        (followed_of_walkedRoot walked).placed place holder outside found
      exact ⟨holder', found', unfolded.multiplied⟩
  rw [List.append_nil] at split
  rw [split]
  exact pairs

section

private def stack (min max : Nat) (least : min ≤ maxBound) (most : max ≤ maxBound) : Layer where
  group := { type := some "array", minItems := some min, maxItems := some max }
  items := {}
  anonymous := rfl
  many := rfl
  inline := rfl
  single := by simp
  least := least
  most := by
    rintro _ ⟨⟩
    exact most

private def boxed : Table Schema :=
  [("label", { keywords := { type := some "string" } }),
    ("parts", { keywords := { type := some "array", minItems := some 3, maxItems := some 4 } })]

private def box : Schema where
  keywords := { type := some "object", required := some ["label", "parts"] }
  children := { properties := some boxed }

private theorem box_plain : PlainObject box boxed where
  reference := rfl
  single := by decide
  allOf := rfl
  oneOf := rfl
  properties := rfl
  arrays := by
    intro e listed _
    rcases List.mem_cons.mp listed with rfl | listed
    · exact ⟨rfl, rfl, rfl⟩
    · cases List.mem_singleton.mp listed
      exact ⟨rfl, rfl, rfl⟩

private def stacked (name : String) (layers : List Layer) : String × Schema :=
  (name, { children := { allOf := some [grouped layers box] } })

private def stored (definitions : Definitions) : Document :=
  ⟨[("definitions", .null)], .definitions, true, definitions⟩

/-- Two or three piles of one or two boxes. -/
private def piles : List Layer :=
  [stack 2 3 (by decide) (by decide), stack 1 2 (by decide) (by decide)]

def crates : Document := stored [stacked "Crate" piles]

theorem nested_groups_multiply_crates : crates.Closed ∧
    (∀ e ∈ crates.definitions, NestsOnly Reference.IsPlain e.2) ∧
    ∃ left root o t, run crates = (left, .ok {}) ∧ left.definitions = [("Crate", root)] ∧
      root.children.child? (.allOf 0) = some (ungrouped piles o) ∧
      ObjectMultiplied (piles.map Layer.bounds) box boxed o t ∧
      wrappedMin true (piles.map Layer.bounds) = some 2 ∧
      multipliedMax (piles.map Layer.bounds) (some 4) = some 24 := by
  have closed : crates.Closed := by decide
  have idle : Idle box := by decide
  have nests : ∀ e ∈ crates.definitions, NestsOnly Reference.IsPlain e.2 := by
    intro e listed
    cases List.mem_singleton.mp listed
    have inside : NestsOnly Reference.IsPlain (grouped piles box) :=
      nestsOnly_grouped piles box_plain idle (by decide)
    refine (nestsOnly_iff _ _).mpr ⟨fun slot looked _ => ?_, fun member listed => ?_⟩
    · cases List.mem_singleton.mp looked
      exact ⟨piles, box, boxed, rfl, box_plain, idle, by decide⟩
    · cases List.mem_singleton.mp listed
      exact inside
  obtain ⟨left, ran⟩ := (nested_groups_multiply crates).2.2.1 closed nests
  have pairs := (nested_groups_multiply crates).1 left ran
  generalize definitions : left.definitions = changed at pairs
  cases pairs with
  | @cons _ e _ _ first later =>
    cases later
    obtain ⟨name, root⟩ := e
    obtain ⟨rfl, each⟩ := first
    obtain ⟨_, ⟨⟩, multiplied⟩ := each [] _ trivial rfl
    obtain ⟨o, t, found, object⟩ := multiplied 0 piles box boxed (by simp [piles]) box_plain idle rfl
    exact ⟨closed, nests, left, root, o, t, ran, definitions, found, object, by decide, by decide⟩

/-- Three stacks, of which the bounds allow two, of two boxes, of which they allow one. -/
private def overfull : List Layer :=
  [stack 3 2 (by decide) (by decide), stack 2 1 (by decide) (by decide)]

def overfullCrates : Document := stored [stacked "Crate" overfull]

/-- A loan refers to a box by its place in a group. -/
def loans : Document :=
  let place : Reference := .ofParts .definitions "Crate" ["allOf", "0", "items", "allOf", "0"]
  let entry : Schema := {
    keywords := { type := some "object" }
    children := { properties := some [("box", .ofReference place)] } }
  stored [stacked "Crate" [stack 2 3 (by decide) (by decide)],
    ("Loan", { children := { allOf := some [grouped [stack 1 2 (by decide) (by decide)] entry] } })]

/-- The least number of a property is not the product where a group that occurs at most once inside
all others has to occur twice, and the pass fails where a group is gone that a property refers to. -/
theorem minimum_not_product : (overfullCrates.Closed ∧ PlainObject box boxed ∧ Idle box ∧
      ∃ left, run overfullCrates = (left, .ok {}) ∧
        ((left.definitions.get? "Crate").bind (Schema.at?
          [.allOf 0, .allOf 0, .allOf 0, .property "label"])).bind (·.minItems) = some 3 ∧
        "label" ∈ box.keywords.required.getD [] ∧ lowest (overfull.map Layer.bounds) = 6) ∧
    loans.Closed ∧ (run loans).2.isOk = false :=
  ⟨⟨by decide, box_plain, by decide, (run overfullCrates).1, by rfl, by rfl, by decide, by decide⟩,
    by decide, by decide +kernel⟩

end

end SchemaGraph.Repetition
