import SchemaGraph.Proofs.Keyed
import SchemaGraph.Proofs.Renaming
import SchemaGraph.Proofs.Rule

/- Readable schemas: those that can be written and read again. References name a definition, no
   value is null, since a null stands for an absent one, and the keys that are no keywords are in
   order. What is read from JSON is readable. -/
namespace SchemaGraph

namespace Table
variable {α : Type}

/-- The keys stand in ascending order, each of them once. -/
def Ascending (t : Table α) : Prop := t.keys.Pairwise (· < ·)

theorem mem_keys_putSorted_iff (t : Table α) (k : String) (v : α) (key : String) :
    key ∈ (t.putSorted k v).keys ↔ key ∈ t.keys ∨ key = k := by
  induction t with
  | nil => simp [putSorted, keys]
  | cons entry rest ih =>
    obtain ⟨k₁, v₁⟩ := entry
    simp only [keys] at ih
    unfold putSorted
    split
    · rename_i same
      simp only [keys, List.map_cons, List.mem_cons, same]
      tauto
    · split
      · simp only [keys, List.map_cons, List.mem_cons]
        tauto
      · simp only [keys, List.map_cons, List.mem_cons, ih]
        tauto

theorem ascending_putSorted {t : Table α} (h : t.Ascending) (k : String) (v : α) :
    (t.putSorted k v).Ascending := by
  induction t with
  | nil => exact List.pairwise_singleton _ _
  | cons entry rest ih =>
    obtain ⟨k₁, v₁⟩ := entry
    obtain ⟨first, later⟩ := List.pairwise_cons.mp h
    unfold putSorted
    split
    · rename_i same
      exact List.pairwise_cons.mpr ⟨same ▸ first, later⟩
    · split
      · rename_i differs before
        refine List.pairwise_cons.mpr ⟨fun key listed => ?_, h⟩
        rcases List.mem_cons.mp listed with rfl | listed
        · exact before
        · exact String.lt_trans before (first key listed)
      · rename_i differs after
        have before : k₁ < k :=
          String.not_le.mp fun le => differs (String.le_antisymm (String.not_lt.mp after) le)
        refine List.pairwise_cons.mpr ⟨fun key listed => ?_, ih later⟩
        rcases (mem_keys_putSorted_iff rest k v key).mp listed with listed | rfl
        · exact first key listed
        · exact before

/-- The entries stand beside the named ones. -/
structure Beside (named : List String) (t : Table α) : Prop where
  ascending : t.Ascending
  other : ∀ key ∈ t.keys, key ∉ named

variable {named : List String}

theorem beside_nil (named : List String) : Beside named ([] : Table α) :=
  ⟨List.Pairwise.nil, by simp [keys]⟩

theorem Beside.putSorted {t : Table α} (h : t.Beside named) {k : String} (other : k ∉ named)
    (v : α) : (t.putSorted k v).Beside named := by
  refine ⟨ascending_putSorted h.ascending k v, fun key listed => ?_⟩
  rcases (mem_keys_putSorted_iff t k v key).mp listed with earlier | rfl
  · exact h.other key earlier
  · exact other

theorem Beside.overSorted {top base : Table Json} (onTop : top.Beside named)
    (below : base.Beside named) : (top.overSorted base).Beside named :=
  List.foldlRecOn (motive := Beside named) top _ below fun _ merged entry member =>
    merged.putSorted (onTop.other entry.1 (List.mem_map_of_mem member)) entry.2

theorem Beside.filter {t : Table α} (h : t.Beside named) (keep : String × α → Bool) :
    Beside named (t.filter keep) where
  ascending := h.ascending.sublist (List.filter_sublist.map Prod.fst)
  other key listed := h.other key ((List.filter_sublist.map Prod.fst).subset listed)

theorem beside_others (entries : Table Json) (named : List String) :
    (Json.others entries named).Beside named := by
  refine List.foldlRecOn (motive := Beside named) entries _ (beside_nil named)
    fun t merged entry _ => ?_
  dsimp only
  split
  · exact merged
  · rename_i other
    exact merged.putSorted (by simpa using other) entry.2

end Table

def Rule.readable : Rule where
  reference r := r.name ≠ ""
  value v := v ≠ .null
  extra named t := t.Beside named
  allowed _ := True
  names := []
  value_of_ne _ h := h
  extra_nil := Table.beside_nil
  extra_overSorted _ _ _ onTop below := onTop.overSorted below
  extra_filter _ _ keep h := h.filter keep
  depthExceeded _ _ := trivial
  meant := Or.inr fun _ _ => trivial

namespace Json
variable {α : Type} {read : Json → Except Fault α} {value : Json} {v : Option α}

/-- A value that is read is there and is no null. -/
theorem of_readOption (given : readOption read value = .ok v) :
    ∀ a, v = some a → value ≠ .null ∧ read value = .ok a := by
  rintro a rfl
  cases value with
  | null => cases given
  | _ =>
    obtain ⟨b, done, same⟩ := of_map_eq_ok given
    cases same
    exact ⟨by simp, done⟩

theorem ne_null_of_read {v : Option Json} (given : readOption readAny value = .ok v) :
    ∀ a, v = some a → a ≠ .null := by
  intro a found
  obtain ⟨there, done⟩ := of_readOption given a found
  cases done
  exact there

theorem named_of_readReference {r : Reference} (done : readReference value = .ok r) :
    r.name ≠ "" := by
  unfold readReference at done
  split at done
  · split at done
    · rename_i parsed
      cases done
      exact Reference.name_ne_of_parse? parsed
    · cases done
  · cases done

theorem named_of_readReferenceRecord {r : Reference} (done : readReferenceRecord value = .ok r) :
    r.name ≠ "" := by
  unfold readReferenceRecord at done
  split at done
  · split at done
    · exact named_of_readReference done
    · cases done
  · obtain ⟨first, read, done⟩ := of_bind_eq_ok done
    split at done
    · cases done
      exact named_of_readReference read
    · cases done
  · cases done

theorem forall_of_mapM {β : Type} {p : β → Prop} {f : α → Except Fault β}
    (each : ∀ a b, f a = .ok b → p b) {items : List α} {list : List β}
    (done : items.mapM f = .ok list) : ∀ b ∈ list, p b := by
  induction items generalizing list with
  | nil =>
    rw [List.mapM_nil] at done
    cases done
    simp
  | cons a rest ih =>
    rw [List.mapM_cons] at done
    obtain ⟨b, first, done⟩ := of_bind_eq_ok done
    obtain ⟨others, later, done⟩ := of_bind_eq_ok done
    cases done
    exact List.forall_mem_cons.mpr ⟨each a b first, ih later⟩

end Json

namespace Keywords
open Json

theorem of_read {α : Type} {x : Except Fault α} {f : α → Keywords} {k : Keywords}
    (read : (do return some (f (← x))) = Except.ok (some k)) : ∃ v, x = .ok v ∧ f v = k := by
  obtain ⟨v, given, same⟩ := of_bind_eq_ok read
  cases same
  exact ⟨v, given, rfl⟩

theorem named_of_read {value : Json} {v : Option Reference}
    (given : readOption readReference value = .ok v) : ∀ r, v = some r → r.name ≠ "" :=
  fun r found => named_of_readReference (of_readOption given r found).2

theorem named_of_readRecord {value : Json} {v : Option Reference}
    (given : readOption readReferenceRecord value = .ok v) : ∀ r, v = some r → r.name ≠ "" :=
  fun r found => named_of_readReferenceRecord (of_readOption given r found).2

theorem named_of_readRecords {value : Json} {v : Option (List Reference)}
    (given : readOption (readList readReferenceRecord) value = .ok v) :
    ∀ l, v = some l → ∀ r ∈ l, r.name ≠ "" := by
  intro l found
  obtain ⟨_, done⟩ := of_readOption given l found
  unfold readList at done
  split at done
  · exact forall_of_mapM (fun _ _ => named_of_readReferenceRecord) done
  · cases done

/-- Text that reads as a reference names a definition. -/
theorem named_of_parsed {d : Option Discriminator} : ∀ a, d = some a → ∀ t, a.mapping = some t →
    ∀ raw ∈ Table.values t, ∀ r, Reference.parse? raw = some r → r.name ≠ "" :=
  fun _ _ _ _ _ _ _ => Reference.name_ne_of_parse?

theorem beside_of_readXml {value : Json} {v : Option Xml}
    (given : readOption Xml.ofJson value = .ok v) : ∀ x, v = some x → x.extra.Beside Xml.names := by
  intro x found
  obtain ⟨_, done⟩ := of_readOption given x found
  unfold Xml.ofJson at done
  split at done
  · obtain ⟨uri, _, done⟩ := of_bind_eq_ok done
    obtain ⟨qualifier, _, done⟩ := of_bind_eq_ok done
    obtain ⟨name, _, done⟩ := of_bind_eq_ok done
    obtain ⟨attr, _, done⟩ := of_bind_eq_ok done
    cases done
    exact Table.beside_others _ _
  · cases done

theorem beside_of_readDiscriminator {value : Json} {v : Option Discriminator}
    (given : readOption Discriminator.ofJson value = .ok v) :
    ∀ d, v = some d → d.extra.Beside Discriminator.names := by
  intro d found
  obtain ⟨_, done⟩ := of_readOption given d found
  unfold Discriminator.ofJson at done
  split at done
  · obtain ⟨propertyName, _, done⟩ := of_bind_eq_ok done
    obtain ⟨mapping, _, done⟩ := of_bind_eq_ok done
    cases done
    exact Table.beside_others _ _
  · cases done

/-- A keyword that is read obeys, and the others are as they were. -/
theorem Obeys.read {k k' : Keywords} (h : k.Obeys .readable) {key : String} {value : Json}
    (read : k.read key value = .ok (some k')) : k'.Obeys .readable := by
  unfold Keywords.read at read
  split at read
  · obtain ⟨v, given, rfl⟩ := of_read read
    exact { h with reference := named_of_read given }
  · obtain ⟨v, given, rfl⟩ := of_read read
    exact { h with xml := beside_of_readXml given }
  · obtain ⟨v, given, rfl⟩ := of_read read
    exact { h with }
  · obtain ⟨v, given, rfl⟩ := of_read read
    exact { h with }
  · obtain ⟨v, given, rfl⟩ := of_read read
    exact { h with }
  · obtain ⟨v, given, rfl⟩ := of_read read
    exact { h with default := ne_null_of_read given }
  · obtain ⟨v, given, rfl⟩ := of_read read
    exact { h with }
  · obtain ⟨v, given, rfl⟩ := of_read read
    exact { h with minimum := ne_null_of_read given }
  · obtain ⟨v, given, rfl⟩ := of_read read
    exact { h with maximum := ne_null_of_read given }
  · obtain ⟨v, given, rfl⟩ := of_read read
    exact { h with exclusiveMinimum := ne_null_of_read given }
  · obtain ⟨v, given, rfl⟩ := of_read read
    exact { h with exclusiveMaximum := ne_null_of_read given }
  · obtain ⟨v, given, rfl⟩ := of_read read
    exact { h with }
  · obtain ⟨v, given, rfl⟩ := of_read read
    exact { h with }
  · obtain ⟨v, given, rfl⟩ := of_read read
    exact { h with }
  · obtain ⟨v, given, rfl⟩ := of_read read
    exact { h with }
  · obtain ⟨v, given, rfl⟩ := of_read read
    exact { h with }
  · obtain ⟨v, given, rfl⟩ := of_read read
    exact { h with }
  · obtain ⟨v, given, rfl⟩ := of_read read
    exact { h with }
  · obtain ⟨v, given, rfl⟩ := of_read read
    exact { h with }
  · obtain ⟨v, given, rfl⟩ := of_read read
    exact { h with whiteSpace := ne_null_of_read given }
  · obtain ⟨v, given, rfl⟩ := of_read read
    exact { h with fractionDigits := ne_null_of_read given }
  · obtain ⟨v, given, rfl⟩ := of_read read
    exact { h with totalDigits := ne_null_of_read given }
  · obtain ⟨v, given, rfl⟩ := of_read read
    exact { h with mapping := named_of_parsed, discriminator := beside_of_readDiscriminator given }
  · obtain ⟨v, given, rfl⟩ := of_read read
    exact { h with polymorphic := ne_null_of_read given }
  · obtain ⟨v, given, rfl⟩ := of_read read
    exact { h with }
  · obtain ⟨v, given, rfl⟩ := of_read read
    exact { h with xsiTypeXml := beside_of_readXml given }
  · obtain ⟨v, given, rfl⟩ := of_read read
    exact { h with xsiTypeAbstract := ne_null_of_read given }
  · obtain ⟨v, given, rfl⟩ := of_read read
    exact { h with }
  · obtain ⟨v, given, rfl⟩ := of_read read
    exact { h with group := ne_null_of_read given }
  · obtain ⟨v, given, rfl⟩ := of_read read
    exact { h with anyType := ne_null_of_read given }
  · obtain ⟨v, given, rfl⟩ := of_read read
    exact { h with complexRestriction := ne_null_of_read given }
  · obtain ⟨v, given, rfl⟩ := of_read read
    exact { h with schemaNote := ne_null_of_read given }
  · obtain ⟨v, given, rfl⟩ := of_read read
    exact { h with messages := ne_null_of_read given }
  · obtain ⟨v, given, rfl⟩ := of_read read
    exact { h with sample := ne_null_of_read given }
  · obtain ⟨v, given, rfl⟩ := of_read read
    exact { h with typeOf := named_of_readRecord given }
  · obtain ⟨v, given, rfl⟩ := of_read read
    exact { h with forPart := ne_null_of_read given }
  · obtain ⟨v, given, rfl⟩ := of_read read
    exact { h with ancestor := named_of_readRecord given }
  · obtain ⟨v, given, rfl⟩ := of_read read
    exact { h with descendants := named_of_readRecords given }
  · cases read

end Keywords
namespace Schema
open Keywords (Obeys)

end Schema
end SchemaGraph
