import SchemaGraph.Error
import SchemaGraph.Proofs.Each
import SchemaGraph.Proofs.Guarantee

/- Rules for schemas: what is asked of the references, the free values and the other keys of every
   node, and of the children that no walk enters. A rule also says which definitions have to be there,
   and with which errors a pass may end that works on nodes which obey the rule. -/
namespace SchemaGraph

structure Rule where
  reference : Reference → Prop
  /-- Asked of the keywords that take any value. -/
  value : Json → Prop
  /-- Asked of the keys that stand beside the named ones. -/
  extra : List String → Table Json → Prop
  /-- Asked of whether a node has the shape of another one, and whether it is used in a message. -/
  indirect : Bool → Bool → Prop := fun _ _ => True
  /-- Asked of the children that no walk enters. -/
  skipped : Schema → Prop := fun _ => True
  allowed : Error → Prop
  /-- The definitions that have to be there. -/
  names : List String
  value_of_ne : ∀ v, v ≠ .null → value v
  extra_nil : ∀ named, extra named []
  extra_overSorted : ∀ named top base, extra named top → extra named base →
    extra named (Table.overSorted top base)
  extra_filter : ∀ named t (keep : String × Json → Bool), extra named t →
    extra named (t.filter keep)
  indirect_neither : indirect false false := by exact trivial
  indirect_or : ∀ shape part shape' part', indirect shape part → indirect shape' part' →
    indirect (shape || shape') (part || part') := by exact fun _ _ _ _ _ _ => trivial
  depthExceeded : ∀ location max, allowed (.depthExceeded location max)
  /-- A reference means one of the definitions, or may mean nothing. -/
  meant : (∀ r, reference r → r.IsPlain ∧ r.name ∈ names) ∨
    ∀ raw location, allowed (.unresolvedReference raw location)

theorem forall_or_eq_some {α : Type} {p : α → Prop} {a b : Option α} (first : ∀ v, a = some v → p v)
    (second : ∀ v, b = some v → p v) : ∀ v, a.or b = some v → p v :=
  fun v found => (Option.or_eq_some_iff.mp found).elim (first v) fun h => second v h.2

/-- The keys of a node that are keywords or hold schemas. -/
def Schema.names : List String :=
  ["not", "$ref", "xml", "description", "type", "format", "default", "enum", "minimum", "maximum",
    "exclusiveMinimum", "exclusiveMaximum", "minItems", "maxItems", "pattern", "minLength",
    "maxLength", "items", "properties", "allOf", "oneOf", "anyOf", "additionalProperties",
    "required", "nullable", "x-nullable", "x-ibm-whiteSpace", "x-ibm-fractionDigits",
    "x-ibm-totalDigits", "discriminator", "x-ibm-discriminator", "x-xsi-type", "x-xsi-type-xml",
    "x-xsi-type-abstract", "x-xsi-type-uniquename", "x-ibm-group", "x-anyType",
    "x-ibm-complex-restriction", "x-ibm-schema", "x-ibm-messages", "example", "typeOf", "forPart",
    "x-anc-ref", "x-desc-ref"]

def Discriminator.names : List String := ["propertyName", "mapping"]

namespace Keywords

/-- The node itself obeys the rule. -/
structure Obeys (R : Rule) (k : Keywords) : Prop extends Keywords.Each R.reference k where
  xml : ∀ x, k.xml = some x → R.extra Xml.names x.extra
  xsiTypeXml : ∀ x, k.xsiTypeXml = some x → R.extra Xml.names x.extra
  discriminator : ∀ d, k.discriminator = some d → R.extra Discriminator.names d.extra
  default : ∀ v, k.default = some v → R.value v
  minimum : ∀ v, k.minimum = some v → R.value v
  maximum : ∀ v, k.maximum = some v → R.value v
  exclusiveMinimum : ∀ v, k.exclusiveMinimum = some v → R.value v
  exclusiveMaximum : ∀ v, k.exclusiveMaximum = some v → R.value v
  whiteSpace : ∀ v, k.whiteSpace = some v → R.value v
  fractionDigits : ∀ v, k.fractionDigits = some v → R.value v
  totalDigits : ∀ v, k.totalDigits = some v → R.value v
  polymorphic : ∀ v, k.polymorphic = some v → R.value v
  xsiTypeAbstract : ∀ v, k.xsiTypeAbstract = some v → R.value v
  group : ∀ v, k.group = some v → R.value v
  anyType : ∀ v, k.anyType = some v → R.value v
  complexRestriction : ∀ v, k.complexRestriction = some v → R.value v
  schemaNote : ∀ v, k.schemaNote = some v → R.value v
  messages : ∀ v, k.messages = some v → R.value v
  sample : ∀ v, k.sample = some v → R.value v
  forPart : ∀ v, k.forPart = some v → R.value v
  indirect : R.indirect k.typeOf.isSome k.forPart.isSome
  extra : R.extra Schema.names k.extra

theorem obeys_empty (R : Rule) : Obeys R {} where
  toEach := each_empty R.reference
  xml _ h := nomatch h
  xsiTypeXml _ h := nomatch h
  discriminator _ h := nomatch h
  default _ h := nomatch h
  minimum _ h := nomatch h
  maximum _ h := nomatch h
  exclusiveMinimum _ h := nomatch h
  exclusiveMaximum _ h := nomatch h
  whiteSpace _ h := nomatch h
  fractionDigits _ h := nomatch h
  totalDigits _ h := nomatch h
  polymorphic _ h := nomatch h
  xsiTypeAbstract _ h := nomatch h
  group _ h := nomatch h
  anyType _ h := nomatch h
  complexRestriction _ h := nomatch h
  schemaNote _ h := nomatch h
  messages _ h := nomatch h
  sample _ h := nomatch h
  forPart _ h := nomatch h
  indirect := R.indirect_neither
  extra := R.extra_nil _

/-- A rule that asks nothing of values and other keys. -/
theorem obeys_of_each {R : Rule} (value : ∀ v, R.value v) (extra : ∀ named t, R.extra named t)
    {k : Keywords} (each : k.Each R.reference)
    (indirect : R.indirect k.typeOf.isSome k.forPart.isSome) : k.Obeys R where
  toEach := each
  xml _ _ := extra _ _
  xsiTypeXml _ _ := extra _ _
  discriminator _ _ := extra _ _
  default _ _ := value _
  minimum _ _ := value _
  maximum _ _ := value _
  exclusiveMinimum _ _ := value _
  exclusiveMaximum _ _ := value _
  whiteSpace _ _ := value _
  fractionDigits _ _ := value _
  totalDigits _ _ := value _
  polymorphic _ _ := value _
  xsiTypeAbstract _ _ := value _
  group _ _ := value _
  anyType _ _ := value _
  complexRestriction _ _ := value _
  schemaNote _ _ := value _
  messages _ _ := value _
  sample _ _ := value _
  forPart _ _ := value _
  indirect := indirect
  extra := extra _ _

theorem Obeys.onto {R : Rule} {top base : Keywords} (onTop : top.Obeys R) (below : base.Obeys R) :
    (top.onto base).Obeys R where
  toEach := onTop.toEach.onto below.toEach
  xml := forall_or_eq_some onTop.xml below.xml
  xsiTypeXml := forall_or_eq_some onTop.xsiTypeXml below.xsiTypeXml
  discriminator := forall_or_eq_some onTop.discriminator below.discriminator
  default := forall_or_eq_some onTop.default below.default
  minimum := forall_or_eq_some onTop.minimum below.minimum
  maximum := forall_or_eq_some onTop.maximum below.maximum
  exclusiveMinimum := forall_or_eq_some onTop.exclusiveMinimum below.exclusiveMinimum
  exclusiveMaximum := forall_or_eq_some onTop.exclusiveMaximum below.exclusiveMaximum
  whiteSpace := forall_or_eq_some onTop.whiteSpace below.whiteSpace
  fractionDigits := forall_or_eq_some onTop.fractionDigits below.fractionDigits
  totalDigits := forall_or_eq_some onTop.totalDigits below.totalDigits
  polymorphic := forall_or_eq_some onTop.polymorphic below.polymorphic
  xsiTypeAbstract := forall_or_eq_some onTop.xsiTypeAbstract below.xsiTypeAbstract
  group := forall_or_eq_some onTop.group below.group
  anyType := forall_or_eq_some onTop.anyType below.anyType
  complexRestriction := forall_or_eq_some onTop.complexRestriction below.complexRestriction
  schemaNote := forall_or_eq_some onTop.schemaNote below.schemaNote
  messages := forall_or_eq_some onTop.messages below.messages
  sample := forall_or_eq_some onTop.sample below.sample
  forPart := forall_or_eq_some onTop.forPart below.forPart
  indirect := by
    simpa only [Keywords.onto, Option.isSome_or] using R.indirect_or _ _ _ _ onTop.indirect below.indirect
  extra := R.extra_overSorted _ _ _ onTop.extra below.extra

end Keywords

/-- The children obey the rule. -/
structure Children.Obeys (R : Rule) (obeys : Schema → Prop) (c : Children Schema) : Prop
    extends c.Each obeys where
  skipped : ∀ s ∈ c.skipped, R.skipped s

namespace Children
variable {R : Rule} {obeys : Schema → Prop}

theorem obeys_empty : Obeys R obeys {} := ⟨each_empty obeys, by simp [Children.skipped]⟩

theorem Obeys.onto {top base : Children Schema} (onTop : top.Obeys R obeys)
    (below : base.Obeys R obeys) : (top.onto base).Obeys R obeys := by
  refine ⟨onTop.toEach.onto below.toEach, fun s listed => ?_⟩
  have top := onTop.skipped
  have base := below.skipped
  simp only [Children.skipped, List.mem_append, Option.mem_toList] at listed top base
  rcases listed with not | additional
  · rcases Option.or_eq_some_iff.mp not with own | ⟨_, own⟩
    · exact top s (Or.inl own)
    · exact base s (Or.inl own)
  · obtain ⟨_, held, schema⟩ := Option.bind_eq_some_iff.mp additional
    rcases Option.or_eq_some_iff.mp held with own | ⟨_, own⟩
    · exact top s (Or.inr (Option.bind_eq_some_iff.mpr ⟨_, own, schema⟩))
    · exact base s (Or.inr (Option.bind_eq_some_iff.mpr ⟨_, own, schema⟩))

end Children

namespace Schema

/-- Every node of the schema obeys the rule, and so do the children that no walk enters. -/
def Obeys (R : Rule) : Schema → Prop := para fun k (c : Children (Schema × Prop)) =>
  k.Obeys R ∧ (c.map Prod.snd).Each id ∧ ∀ s ∈ c.skipped, R.skipped s.1

variable {R : Rule}

theorem obeys_mk_iff (R : Rule) (k : Keywords) (c : Children Schema) :
    Obeys R ⟨k, c⟩ ↔ k.Obeys R ∧ c.Obeys R (Obeys R) := by
  have skipped : (c.map fun child => (child, child.para fun k (c : Children (Schema × Prop)) =>
      k.Obeys R ∧ (c.map Prod.snd).Each id ∧ ∀ s ∈ c.skipped, R.skipped s.1)).skipped.map Prod.fst =
        c.skipped := by
    rw [Children.skipped_map, List.map_map]
    exact List.map_id _
  rw [Obeys, para_mk, Children.map_map, Children.each_map_iff, ← List.forall_mem_map, skipped]
  exact ⟨fun ⟨own, each, skipped⟩ => ⟨own, each, skipped⟩,
    fun ⟨own, each, skipped⟩ => ⟨own, each, skipped⟩⟩

theorem Obeys.mk {k : Keywords} {c : Children Schema} (own : k.Obeys R)
    (below : c.Obeys R (Obeys R)) : Obeys R ⟨k, c⟩ := (obeys_mk_iff R k c).mpr ⟨own, below⟩

theorem Obeys.own {s : Schema} (h : s.Obeys R) : s.keywords.Obeys R := by
  obtain ⟨k, c⟩ := s
  exact ((obeys_mk_iff R k c).mp h).1

theorem Obeys.below {s : Schema} (h : s.Obeys R) : s.children.Obeys R (Obeys R) := by
  obtain ⟨k, c⟩ := s
  exact ((obeys_mk_iff R k c).mp h).2

theorem Obeys.every {s : Schema} (h : s.Obeys R) : s.Every (Keywords.Obeys R) := by
  induction s using children_induction with
  | step k c ih =>
    have below := (Children.each_iff _ c).mp h.below.toEach
    exact .mk h.own ((Children.each_iff _ c).mpr fun child member => ih child member (below child member))

/-- Where nothing more is asked of the children that no walk enters. -/
theorem obeys_of_every (free : ∀ s, R.skipped s) {s : Schema} (h : s.Every (Keywords.Obeys R)) :
    s.Obeys R := by
  induction s using children_induction with
  | step k c ih =>
    have below := (Children.each_iff _ c).mp h.below
    exact .mk h.own ⟨(Children.each_iff _ c).mpr fun child member =>
      ih child member (below child member), fun s _ => free s⟩

theorem hereditary_obeys (R : Rule) : Hereditary (Obeys R) where
  below k c h := ((Children.each_iff_entered _ c).mp h.below.toEach).1
  walked k c walked h entered same := by
    have skipped := ((Children.each_iff_entered _ c).mp h.below.toEach).2
    exact .mk h.own ⟨(Children.each_iff_entered _ walked).mpr ⟨entered, same ▸ skipped⟩,
      same ▸ h.below.skipped⟩

/-- The algebra of a `para` is given the node itself, whose children have what was made of them
beside them. -/
theorem Obeys.para {β : Type} {motive : β → Prop} {f : Keywords → Children (Schema × β) → β}
    (step : ∀ k c, Obeys R ⟨k, c.map Prod.fst⟩ →
      c.Each (fun child => child.1.Obeys R ∧ motive child.2) → motive (f k c))
    {s : Schema} (h : s.Obeys R) : motive (s.para f) := by
  induction s using children_induction with
  | step k c ih =>
    rw [para_mk]
    have below := (Children.each_iff _ c).mp h.below.toEach
    refine step k _ ?_ ((Children.each_map_iff _ _ c).mpr ((Children.each_iff _ c).mpr ?_))
    · rw [Children.map_map, Children.map_eq_self ((Children.each_iff _ c).mpr fun _ _ => rfl)]
      exact h
    · exact fun child member => ⟨below child member, ih child member (below child member)⟩

theorem Obeys.each {s : Schema} (h : s.Obeys R) : s.Each R.reference :=
  fun node inside => (h.every node inside).toEach

theorem Obeys.onto {top base : Schema} (onTop : top.Obeys R) (below : base.Obeys R) :
    (top.onto base).Obeys R :=
  .mk (onTop.own.onto below.own) (onTop.below.onto below.below)

theorem Obeys.withoutReference {s : Schema} (h : s.Obeys R) :
    Obeys R { s with keywords.reference := none } :=
  .mk { h.own with reference := by simp } h.below

theorem Obeys.mapBase {f : Reference → Reference} {s : Schema} (h : s.Obeys R)
    (turns : ∀ r, s.base? = some r → R.reference (f r)) : (s.mapBase f).Obeys R := by
  rw [Schema.mapBase]
  split
  · rename_i first rest members
    obtain ⟨base, others⟩ := List.forall_mem_cons.mp (h.below.allOf _ members)
    have turned : Keywords.Obeys R { first.keywords with
        reference := first.keywords.reference.map f } := by
      refine { base.own with reference := ?_ }
      simp only [Option.map_eq_some_iff]
      rintro _ ⟨r, refers, rfl⟩
      exact turns r (by simpa [base?, members] using refers)
    refine .mk h.own { h.below with allOf := forall_eq_some ?_ }
    exact List.forall_mem_cons.mpr ⟨.mk turned base.below, others⟩
  · exact h

theorem obeys_ofReference {r : Reference} (h : R.reference r) : (ofReference r).Obeys R :=
  .mk { Keywords.obeys_empty R with reference := forall_eq_some h } Children.obeys_empty

end Schema

/-- The rule that asks nothing. -/
def Rule.any : Rule where
  reference _ := True
  value _ := True
  extra _ _ := True
  allowed _ := True
  names := []
  value_of_ne _ _ := trivial
  extra_nil _ := trivial
  extra_overSorted _ _ _ _ _ := trivial
  extra_filter _ _ _ _ := trivial
  depthExceeded _ _ := trivial
  meant := Or.inr fun _ _ => trivial

theorem Schema.obeys_any (s : Schema) : s.Obeys .any :=
  obeys_of_every (fun _ => trivial) fun node _ => Keywords.obeys_of_each (fun _ => trivial)
    (fun _ _ => trivial) ((Keywords.each_iff _ node).mpr fun _ _ => trivial) trivial

end SchemaGraph
