import Mathlib.Data.List.Chain
import Mathlib.Data.List.Nodup
import SchemaGraph.Proofs.Extensions

/- The list of extensions as what a search has found when nothing is left to look into, which comes to
   be on every graph. A definition has only one base and each base is looked into once, so nothing is
   listed twice; and listed is exactly what stands at the lower end of a chain up to the base. -/
namespace SchemaGraph.Definitions

/-- The search until nothing waits: what extends the first of those that wait is listed, and what of it
is marked and was not seen before waits in front of the others. -/
inductive Searches (definitions : Definitions) : List String → List String → List String → Prop
  | done (seen : List String) : Searches definitions [] seen []
  | look {current : String} {pending seen later : List String}
      (goesOn : Searches definitions
        ((Table.keys (fresh definitions current seen)).reverse ++ pending)
        (Table.keys (fresh definitions current seen) ++ seen) later) :
      Searches definitions (current :: pending) seen
        (Table.keys (definitions.filter fun e => extendsBase e.2 current) ++ later)

theorem searches_extensionsFrom (definitions : Definitions) {fuel : Nat} {pending seen : List String}
    (enough : pending.length + unseen definitions seen ≤ fuel) :
    definitions.Searches pending seen (definitions.extensionsFrom fuel pending seen) := by
  induction fuel generalizing pending seen with
  | zero =>
    have nothing : pending = [] := List.eq_nil_of_length_eq_zero (by omega)
    subst nothing
    exact .done seen
  | succ fuel ih =>
    cases pending with
    | nil => exact .done seen
    | cons current pending =>
      have shrinks := unseen_fresh definitions current seen
      rw [extensionsFrom_cons]
      refine .look (ih ?_)
      simp only [List.length_append, List.length_reverse, List.length_cons] at enough ⊢
      omega

theorem searches_extensions (definitions : Definitions) (base : String) :
    definitions.Searches [base] [base] (definitions.extensions base) := by
  have budget : unseen definitions [base] ≤ definitions.length := List.countP_le_length
  exact searches_extensionsFrom definitions (by rw [List.length_singleton]; omega)

theorem Extends.unique {s : Schema} {base other : String} (extended : Extends s base)
    (again : Extends s other) : base = other := by
  obtain ⟨r, found, rfl, _⟩ := extended
  obtain ⟨r', found', rfl, _⟩ := again
  rw [Option.some.inj (found.symm.trans found')]

namespace Searches
variable {definitions : Definitions} {pending seen listed : List String}

/-- What is listed extends something that waits, or that was not seen yet. -/
theorem base_of_mem (searches : definitions.Searches pending seen listed) :
    ∀ name ∈ listed, ∃ s base, (name, s) ∈ definitions ∧ Extends s base ∧
      (base ∈ pending ∨ base ∉ seen) := by
  induction searches with
  | done seen =>
    intro name member
    cases member
  | @look current pending seen later goesOn ih =>
    intro name member
    rcases List.mem_append.mp member with direct | further
    · obtain ⟨s, stood, extended⟩ := (mem_direct_iff _ _ _).mp direct
      exact ⟨s, current, stood, extended, .inl List.mem_cons_self⟩
    · obtain ⟨s, base, stood, extended, origin⟩ := ih name further
      refine ⟨s, base, stood, extended, ?_⟩
      simp only [List.mem_append, List.mem_reverse, mem_fresh_iff, List.mem_cons] at origin ⊢
      tauto

/-- What waits is seen and waits once, so no base is looked into a second time. -/
theorem nodup (searches : definitions.Searches pending seen listed)
    (distinct : definitions.Distinct) (once : pending.Nodup) (known : pending ⊆ seen) :
    listed.Nodup := by
  induction searches with
  | done seen => exact List.nodup_nil
  | @look current pending seen later goesOn ih =>
    obtain ⟨gone, once⟩ := List.nodup_cons.mp once
    obtain ⟨looked, known⟩ := List.cons_subset.mp known
    have filtered (keep : String × Schema → Bool) : (Table.keys (definitions.filter keep)).Nodup :=
      distinct.sublist (List.Sublist.map _ List.filter_sublist)
    have isNew : ∀ n ∈ Table.keys (fresh definitions current seen), n ∉ seen := by
      intro n found
      obtain ⟨_, _, _, _, new⟩ := (mem_fresh_iff _ _ _ _).mp found
      exact new
    have freshOnce : (Table.keys (fresh definitions current seen)).Nodup := by
      rw [fresh, List.filter_filter]
      exact filtered _
    refine List.nodup_append.mpr ⟨filtered _, ih ?_ ?_, ?_⟩
    · refine List.nodup_append.mpr ⟨List.nodup_reverse.mpr freshOnce, once, ?_⟩
      rintro n new _ waits rfl
      exact isNew n (List.mem_reverse.mp new) (known waits)
    · intro n waits
      rcases List.mem_append.mp waits with new | old
      · exact List.mem_append_left _ (List.mem_reverse.mp new)
      · exact List.mem_append_right _ (known old)
    · -- A name that is listed again would have a second base.
      rintro name direct _ again rfl
      obtain ⟨s, stood, extended⟩ := (mem_direct_iff _ _ _).mp direct
      obtain ⟨s', base, stood', extended', origin⟩ := goesOn.base_of_mem name again
      cases (Table.get?_of_mem distinct stood).symm.trans (Table.get?_of_mem distinct stood')
      cases extended.unique extended'
      rcases origin with waits | unknown
      · rcases List.mem_append.mp waits with new | old
        · exact isNew _ (List.mem_reverse.mp new) looked
        · exact gone old
      · exact unknown (List.mem_append_right _ looked)

end Searches

section
variable (definitions : Definitions)

/-- The definition extends exactly the other one, which need not be there. -/
def ExtendsDirectly (name base : String) : Prop := ∃ s, (name, s) ∈ definitions ∧ Extends s base

/-- The definition is marked as one whose extensions stand for it. -/
def Marked (name : String) : Prop :=
  ∃ s, (name, s) ∈ definitions ∧ s.keywords.polymorphic.isSome

/-- Each definition extends the next one, the last of them the base, and those between are marked. -/
structure ExtensionChain (name : String) (between : List String) (base : String) : Prop where
  links : (name :: (between ++ [base])).IsChain definitions.ExtendsDirectly
  marked : ∀ middle ∈ between, definitions.Marked middle

end

variable {definitions : Definitions}

theorem exists_extensionChain_iff (distinct : definitions.Distinct) (name base : String) :
    (∃ between, definitions.ExtensionChain name between base) ↔
      ∃ s, ExtensionOf definitions base name s := by
  constructor
  · rintro ⟨between, links, marked⟩
    induction between generalizing name with
    | nil =>
      rw [List.nil_append, List.isChain_pair] at links
      obtain ⟨s, stood, extended⟩ := links
      exact ⟨s, .direct stood extended⟩
    | cons middle between ih =>
      obtain ⟨⟨s, stood, extended⟩, links⟩ := List.isChain_cons_cons.mp links
      obtain ⟨⟨m, stoodMiddle, mark⟩, marked⟩ := List.forall_mem_cons.mp marked
      obtain ⟨m', way⟩ := ih middle links marked
      cases (Table.get?_of_mem distinct way.mem).symm.trans (Table.get?_of_mem distinct stoodMiddle)
      exact ⟨s, .through way mark stood extended⟩
  · rintro ⟨s, extension⟩
    induction extension with
    | direct stood extended =>
      exact ⟨[], List.isChain_pair.mpr ⟨_, stood, extended⟩, by simp⟩
    | @through middle m name s way mark stood extended ih =>
      obtain ⟨between, links, marked⟩ := ih
      exact ⟨middle :: between, List.isChain_cons_cons.mpr ⟨⟨s, stood, extended⟩, links⟩,
        List.forall_mem_cons.mpr ⟨⟨m, way.mem, mark⟩, marked⟩⟩

/-- On every graph of definitions, cyclic or not, the search ends with nothing waiting; it lists no
definition twice, and lists exactly those from which a chain leads up to the base. -/
theorem extensions_exact (distinct : definitions.Distinct) (base : String) :
    definitions.Searches [base] [base] (definitions.extensions base) ∧
    (definitions.extensions base).Nodup ∧
    ∀ name, name ∈ definitions.extensions base ↔
      ∃ between, definitions.ExtensionChain name between base := by
  have searches := searches_extensions definitions base
  refine ⟨searches, ?_, fun name => ?_⟩
  · exact searches.nodup distinct (List.nodup_singleton base) (List.Subset.refl _)
  · rw [mem_extensions_iff, exists_extensionChain_iff distinct]

/-- The base extends one of its extensions, and an extension without a mark is extended, too. -/
def circle : Definitions :=
  let extending (base : String) (mark : Option Json) : Schema :=
    { keywords := { polymorphic := mark },
      children := { allOf := some [.ofReference (.toDefinition base .definitions)] } }
  [("Base", extending "Middle" none), ("Middle", extending "Base" (some (.bool false))),
    ("Leaf", extending "Middle" none), ("Below", extending "Leaf" none)]

theorem extensions_exact_circle : circle.Distinct ∧
    circle.Searches ["Base"] ["Base"] ["Middle", "Base", "Leaf"] ∧
    (∃ between, circle.ExtensionChain "Base" between "Base") ∧
    ¬ ∃ between, circle.ExtensionChain "Below" between "Base" := by
  have distinct : circle.Distinct := by decide
  have listed : circle.extensions "Base" = ["Middle", "Base", "Leaf"] := by decide
  obtain ⟨searches, _, exactly⟩ := extensions_exact distinct "Base"
  rw [listed] at searches exactly
  exact ⟨distinct, searches, (exactly "Base").mp (by decide), mt (exactly "Below").mpr (by decide)⟩

end SchemaGraph.Definitions
