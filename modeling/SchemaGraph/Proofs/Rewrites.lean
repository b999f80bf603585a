import SchemaGraph.Pass.Canonical
import SchemaGraph.Pass.Choice
import SchemaGraph.Pass.Defaults
import SchemaGraph.Pass.Restriction
import SchemaGraph.Pass.XmlHints
import SchemaGraph.Proofs.Rule

/- The rewrites that look at nothing but the schema before them. They move, join and drop parts of
   it, and none of them writes a reference that was not there: references that satisfy a predicate
   satisfy it afterwards. -/
namespace SchemaGraph

variable {R : Rule}

namespace Squash

theorem obeys_splice {member : Schema} (h : member.Obeys R) : ∀ s ∈ splice member, s.Obeys R := by
  have itself : ∀ s ∈ [member], s.Obeys R := by simpa using h
  rw [splice]
  split
  · exact itself
  · split
    · simp
    · split
      · rename_i inner members
        dsimp only
        split
        · exact h.below.allOf inner members
        · exact itself
      · exact itself

theorem obeys_mergeProperties {parent more : Option (Table Schema)}
    (own : ∀ t, parent = some t → ∀ e ∈ t, e.2.Obeys R)
    (added : ∀ t, more = some t → ∀ e ∈ t, e.2.Obeys R) :
    ∀ t, mergeProperties parent more = some t → ∀ e ∈ t, e.2.Obeys R := by
  cases more with
  | none => exact own
  | some properties =>
    rintro _ ⟨⟩
    refine List.foldlRecOn (motive := fun (t : Table Schema) => ∀ e ∈ t, e.2.Obeys R) properties _ ?_
      fun t joined entry member => ?_
    · cases parent with
      | none => simp
      | some t => exact own t rfl
    · intro e found
      rcases Table.mem_of_mem_putNew found with earlier | rfl
      · exact joined e earlier
      · exact added properties rfl entry member

theorem obeys_mergeMember {parent member : Schema} (own : parent.Obeys R) (added : member.Obeys R) :
    (mergeMember parent member).Obeys R := by
  have joined := obeys_mergeProperties own.below.properties added.below.properties
  refine Schema.Obeys.onto (.mk { own.own with } { own.below with properties := joined }) ?_
  exact .mk { added.own with } { added.below with properties := by simp }

theorem obeys_squashNode (merge : Bool) {s : Schema} (h : s.Obeys R) :
    (squashNode merge s).Obeys R := by
  rw [squashNode]
  cases members : s.children.allOf with
  | none => exact h
  | some list =>
    have parent : Schema.Obeys R { s with children.allOf := none } :=
      .mk h.own { h.below with allOf := by simp }
    have flat : ∀ member ∈ list.flatMap splice, member.Obeys R := by
      intro member found
      obtain ⟨wrapper, listed, spliced⟩ := List.mem_flatMap.mp found
      exact obeys_splice (h.below.allOf list members wrapper listed) member spliced
    dsimp only
    split
    · exact parent
    · split
      · exact List.foldlRecOn _ _ parent fun _ merged member found =>
          obeys_mergeMember merged (flat member found)
      · exact .mk parent.own { parent.below with allOf := forall_eq_some flat }

end Squash

namespace Choice

theorem obeys_relax {s : Schema} (h : s.Obeys R) : (relax s).Obeys R := by
  refine Schema.Obeys.para (motive := Schema.Obeys R) (fun k c node below => ?_) h
  have members : ∀ l, c.allOf.map (List.map Prod.snd) = some l → ∀ s ∈ l, s.Obeys R := by
    simp only [Option.map_eq_some_iff]
    rintro _ ⟨list, found, rfl⟩ s member
    obtain ⟨child, listed, rfl⟩ := List.mem_map.mp member
    exact (below.allOf list found child listed).2
  have relaxed : Schema.Obeys R { (⟨k, c.map Prod.fst⟩ : Schema) with
      children.allOf := c.allOf.map (List.map Prod.snd) } :=
    .mk node.own { node.below with allOf := members }
  dsimp only
  split
  · rename_i properties found
    refine .mk { relaxed.own with } { relaxed.below with properties := ?_ }
    rintro _ ⟨⟩ e member
    obtain ⟨entry, listed, rfl⟩ := List.mem_map.mp member
    have property := relaxed.below.properties properties found entry listed
    exact .mk { property.own with } property.below
  · exact relaxed

theorem obeys_after (position : Position) {s : Schema} (h : s.Obeys R) :
    (after position s).Obeys R := by
  rw [after]
  split
  · exact h
  · split
    · exact h
    · rename_i branches found
      refine .mk h.own { h.below with oneOf := by simp, allOf := ?_ }
      rintro _ ⟨⟩ member joined
      rcases List.mem_append.mp joined with own | relaxed
      · exact h.below.members member own
      · obtain ⟨branch, listed, rfl⟩ := List.mem_map.mp relaxed
        exact obeys_relax (h.below.oneOf branches found branch listed)

end Choice

namespace Lexical

theorem primitive_ne_null (text : String) : primitive text ≠ .null := by
  unfold primitive
  dsimp only
  split
  · simp
  · split
    · simp
    · split <;> simp

theorem eq_null_of_convert {type : String} {v : Json} (converted : convert type v = .null) :
    v = .null := by
  unfold convert at converted
  split at converted
  · unfold boolean at converted
    dsimp only at converted
    split at converted
    · split at converted
      · cases converted
      · split at converted <;> cases converted
    · cases v with
      | str text => exact absurd converted (primitive_ne_null text)
      | _ => exact converted
  · split at converted
    · unfold numeric at converted
      split at converted
      · split at converted <;> cases converted
      · exact converted
    · exact converted

end Lexical

theorem Rule.value_convert (R : Rule) (type : String) {v : Json} (h : R.value v) :
    R.value (Lexical.convert type v) := by
  by_cases converted : Lexical.convert type v = .null
  · rw [converted, ← Lexical.eq_null_of_convert converted]
    exact h
  · exact R.value_of_ne _ converted

namespace Defaults

theorem obeys_place {default : Option Json} (given : ∀ v, default = some v → R.value v)
    (enum : Option (List Json)) {s : Schema} (h : s.Obeys R) : (place default enum s).Obeys R := by
  refine .mk { h.own with default := forall_or_eq_some ?_ h.own.default } h.below
  simp only [Option.map_eq_some_iff]
  rintro _ ⟨v, there, rfl⟩
  exact R.value_convert _ (given v there)

/-- A list beside updates that keep the predicate. -/
theorem obeys_updateMember {list : List (Schema × Option Schema)}
    (good : ∀ child ∈ list, child.1.Obeys R ∧ ∀ s, child.2 = some s → s.Obeys R) :
    ∀ l, updateMember list = some l → ∀ s ∈ l, s.Obeys R := by
  induction list with
  | nil => simp [updateMember]
  | cons first rest ih =>
    obtain ⟨⟨own, updated⟩, later⟩ := List.forall_mem_cons.mp good
    obtain ⟨s, _ | changed⟩ := first
    · simp only [updateMember, Option.map_eq_some_iff]
      rintro _ ⟨l, found, rfl⟩
      exact List.forall_mem_cons.mpr ⟨own, ih later l found⟩
    · simp only [updateMember, Option.some.injEq]
      rintro _ rfl
      refine List.forall_mem_cons.mpr ⟨updated changed rfl, ?_⟩
      exact List.forall_mem_map.mpr fun child member => (later child member).1

theorem obeys_updatePrimitive? {f : Schema → Schema} (keeps : ∀ s, Schema.Obeys R s → (f s).Obeys R)
    {s : Schema} (h : s.Obeys R) :
    ∀ changed, updatePrimitive? f s = some changed → changed.Obeys R := by
  refine Schema.Obeys.para (motive := fun o => ∀ changed, o = some changed → Schema.Obeys R changed)
    (fun k c node below => ?_) h
  dsimp only
  split
  · simp only [Option.map_eq_some_iff, Option.bind_eq_some_iff]
    rintro _ ⟨changed, ⟨child, found, updated⟩, rfl⟩
    have items := (below.items child found).2 changed updated
    exact .mk node.own { node.below with items := by simpa using items }
  · simp
  · rintro _ ⟨⟩
    exact keeps _ node
  · split
    · rename_i list found
      simp only [Option.map_eq_some_iff]
      rintro _ ⟨l, updated, rfl⟩
      have members := obeys_updateMember (below.anyOf list found) l updated
      exact .mk node.own { node.below with anyOf := forall_eq_some members }
    · rename_i list _ found
      simp only [Option.map_eq_some_iff]
      rintro _ ⟨l, updated, rfl⟩
      have members := obeys_updateMember (below.oneOf list found) l updated
      exact .mk node.own { node.below with oneOf := forall_eq_some members }
    · rename_i list _ _ found
      simp only [Option.map_eq_some_iff]
      rintro _ ⟨l, updated, rfl⟩
      have members := obeys_updateMember (below.allOf list found) l updated
      exact .mk node.own { node.below with allOf := forall_eq_some members }
    · simp

end Defaults

namespace XmlHints

theorem obeys_withXml {s : Schema} (h : s.Obeys R) {xml : Option Xml}
    (given : ∀ x, xml = some x → R.extra Xml.names x.extra) :
    Schema.Obeys R { s with keywords.xml := xml } := .mk { h.own with xml := given } h.below

/-- An inherited annotation has no other keys. -/
theorem extra_hint (enclosing : List (Option Xml)) {s : Schema} (h : s.Obeys R) :
    ∀ x, hint enclosing s = some x → R.extra Xml.names x.extra := by
  unfold hint
  split
  · rename_i x own
    rintro _ ⟨⟩
    exact h.own.xml x own
  · split
    · simp only [Option.map_eq_some_iff]
      rintro _ ⟨x, _, rfl⟩
      exact R.extra_nil _
    · simp

theorem obeys_dropEmptyQualifier (position : Position) {s : Schema} (h : s.Obeys R) :
    (dropEmptyQualifier position s).Obeys R := by
  rw [dropEmptyQualifier]
  dsimp only
  split
  · apply obeys_withXml h
    simp only [Option.map_eq_some_iff]
    rintro _ ⟨x, own, rfl⟩
    split <;> exact h.own.xml x own
  · exact h

end XmlHints

namespace Canonical

theorem obeys_chooseNullable (v3 : Option Bool) {k : Keywords} (h : k.Obeys R) :
    (chooseNullable v3 k).Obeys R := by
  rcases v3 with _ | _ | _
  · exact h
  · exact { h with }
  · exact { h with }

theorem extra_cleanXml {named : List String} {xml : Option Xml}
    (given : ∀ x, xml = some x → R.extra named x.extra) :
    ∀ x, xml.map cleanXml = some x → R.extra named x.extra := by
  simp only [Option.map_eq_some_iff]
  rintro _ ⟨x, own, rfl⟩
  exact R.extra_filter _ _ _ (given x own)

theorem obeys_after (v3 : Option Bool) (position : Position) {s : Schema} (h : s.Obeys R) :
    (after v3 position s).Obeys R := by
  have clean : Keywords.Obeys R { s.keywords with
      extra := cleanExtra s.keywords.extra
      xml := s.keywords.xml.map cleanXml
      xsiTypeXml := s.keywords.xsiTypeXml.map cleanXml } :=
    { h.own with
      extra := R.extra_filter _ _ _ h.own.extra
      xml := extra_cleanXml h.own.xml
      xsiTypeXml := extra_cleanXml h.own.xsiTypeXml }
  rw [after]
  dsimp only
  split
  · exact .mk (obeys_chooseNullable v3 clean) { h.below with properties := by simp }
  · exact .mk (obeys_chooseNullable v3 clean) h.below

end Canonical

namespace Restriction

theorem obeys_collect (restricted : Table Schema) {attributes properties : Table Schema}
    (found : ∀ e ∈ attributes, e.2.Obeys R) (added : ∀ e ∈ properties, e.2.Obeys R) :
    ∀ e ∈ collect restricted attributes properties, e.2.Obeys R := by
  refine List.foldlRecOn (motive := fun (t : Table Schema) => ∀ e ∈ t, e.2.Obeys R) properties _
    found fun t collected entry member => ?_
  dsimp only
  split
  · intro e joined
    rcases Table.mem_of_mem_put joined with earlier | rfl
    · exact collected e earlier
    · exact added entry member
  · exact collected

theorem obeys_collectBase (restricted : Table Schema) {attributes : Table Schema} {base : Schema}
    (found : ∀ e ∈ attributes, e.2.Obeys R) (h : base.Obeys R) :
    ∀ e ∈ collectBase restricted attributes base, e.2.Obeys R := by
  refine List.foldlRecOn (motive := fun (t : Table Schema) => ∀ e ∈ t, e.2.Obeys R)
    (base.children.allOf.getD []) _ ?_ fun t collected member listed => ?_
  · split
    · rename_i properties own
      exact obeys_collect restricted found (h.below.properties properties own)
    · exact found
  · have inline := h.below.members member listed
    split
    · rename_i properties _ own
      exact obeys_collect restricted collected (inline.below.properties properties own)
    · exact collected

theorem obeys_restrictContent {content : Schema} (h : content.Obeys R) :
    (restrictContent content).Obeys R := by
  refine .mk h.own { h.below with properties := ?_ }
  simp only [Option.map_eq_some_iff]
  rintro _ ⟨properties, own, rfl⟩ e member
  exact h.below.properties properties own e (List.mem_filter.mp member).1

theorem obeys_inherited {content : Schema} (h : content.Obeys R) {attributes : Table Schema}
    (found : ∀ e ∈ attributes, e.2.Obeys R) : (inherited content attributes).Obeys R :=
  .mk { Keywords.obeys_empty R with xml := h.own.xml }
    { Children.obeys_empty with properties := forall_eq_some found }

end Restriction

end SchemaGraph
