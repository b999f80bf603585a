/- Tables keep their entries in the order in which the keys first came. A table is well formed
   when no key occurs twice; every operation here keeps it so. -/
namespace SchemaGraph

abbrev Table (α : Type) := List (String × α)

namespace Table
variable {α β : Type}

def keys (t : Table α) : List String := t.map Prod.fst

def values (t : Table α) : List α := t.map Prod.snd

def Distinct (t : Table α) : Prop := t.keys.Nodup

instance (t : Table α) : Decidable t.Distinct := inferInstanceAs (Decidable (List.Nodup _))

def get? : Table α → String → Option α
  | [], _ => none
  | (k, v) :: rest, key => if k = key then some v else get? rest key

def has (t : Table α) (key : String) : Bool := (t.get? key).isSome

/-- A known key keeps its place and takes the new value; a new key goes last. -/
def put : Table α → String → α → Table α
  | [], key, value => [(key, value)]
  | (k, v) :: rest, key, value =>
    if k = key then (k, value) :: rest else (k, v) :: put rest key value

/-- A known key keeps its place and its value; a new key goes last. -/
def putNew (t : Table α) (key : String) (value : α) : Table α :=
  if t.has key then t else t.put key value

/-- Inserts before the first larger key; on a table sorted by key the result is sorted. -/
def putSorted : Table α → String → α → Table α
  | [], key, value => [(key, value)]
  | (k, v) :: rest, key, value =>
    if k = key then (k, value) :: rest
    else if key < k then (key, value) :: (k, v) :: rest
    else (k, v) :: putSorted rest key value

def modify (t : Table α) (key : String) (f : α → α) : Table α :=
  t.map fun (k, v) => if k = key then (k, f v) else (k, v)

def erase (t : Table α) (key : String) : Table α := t.filter fun entry => entry.1 ≠ key

def mapValues (f : α → β) (t : Table α) : Table β := t.map fun (k, v) => (k, f v)

/-- Of two entries with one key the later value stands at the earlier place. -/
def ofList (entries : List (String × α)) : Table α :=
  entries.foldl (fun t (k, v) => t.put k v) []

def sortByKey (t : Table α) : Table α := t.mergeSort fun a b => decide (a.1 ≤ b.1)

theorem get?_eq_none_iff (t : Table α) (key : String) : t.get? key = none ↔ key ∉ t.keys := by
  induction t with
  | nil => simp [get?, keys]
  | cons entry rest ih =>
    obtain ⟨k, v⟩ := entry
    by_cases same : k = key
    · simp [get?, keys, same]
    · simpa [get?, keys, same, Ne.symm same] using ih

theorem has_iff_mem_keys (t : Table α) (key : String) : t.has key = true ↔ key ∈ t.keys := by
  rw [has, Option.isSome_iff_ne_none, ne_eq, get?_eq_none_iff, Decidable.not_not]

theorem exists_get?_iff (t : Table α) (key : String) :
    (∃ value, t.get? key = some value) ↔ key ∈ t.keys := by
  rw [← has_iff_mem_keys, has, Option.isSome_iff_exists]

theorem get?_put (t : Table α) (k : String) (v : α) (key : String) :
    (t.put k v).get? key = if k = key then some v else t.get? key := by
  induction t with
  | nil => simp [put, get?]
  | cons entry rest ih =>
    obtain ⟨k₁, v₁⟩ := entry
    by_cases known : k₁ = k
    · subst known
      by_cases same : k₁ = key <;> simp [put, get?, same]
    · by_cases same : k₁ = key
      · subst same
        simp [put, get?, known, Ne.symm known]
      · simp [put, get?, known, same, ih]

theorem keys_put (t : Table α) (k : String) (v : α) :
    (t.put k v).keys = if k ∈ t.keys then t.keys else t.keys ++ [k] := by
  induction t with
  | nil => simp [put, keys]
  | cons entry rest ih =>
    obtain ⟨k₁, v₁⟩ := entry
    by_cases known : k₁ = k
    · simp [put, keys, known]
    · simp only [keys, put, known, if_false, List.map_cons, List.mem_cons] at ih ⊢
      rw [ih]
      by_cases later : k ∈ rest.map Prod.fst <;> simp [later, Ne.symm known]

theorem distinct_put {t : Table α} (h : t.Distinct) (k : String) (v : α) :
    (t.put k v).Distinct := by
  unfold Distinct at h ⊢
  rw [keys_put]
  split
  · exact h
  · rename_i fresh
    refine List.nodup_append.mpr ⟨h, by simp, fun a member b last => ?_⟩
    rw [List.mem_singleton.mp last]
    exact fun same => fresh (same ▸ member)

theorem keys_mapValues (f : α → β) (t : Table α) : (t.mapValues f).keys = t.keys := by
  simp [keys, mapValues]

theorem mapValues_mapValues {γ : Type} (g : β → γ) (f : α → β) (t : Table α) :
    (t.mapValues f).mapValues g = t.mapValues fun value => g (f value) := by
  simp [mapValues]

theorem get?_mapValues (f : α → β) (t : Table α) (key : String) :
    (t.mapValues f).get? key = (t.get? key).map f := by
  induction t with
  | nil => rfl
  | cons entry rest ih =>
    by_cases same : entry.1 = key
    · simp [mapValues, get?, same]
    · simpa [mapValues, get?, same] using ih

theorem mem_of_get? {t : Table α} {key : String} {value : α} (h : t.get? key = some value) :
    (key, value) ∈ t := by
  induction t with
  | nil => simp [get?] at h
  | cons entry rest ih =>
    obtain ⟨k, v⟩ := entry
    by_cases same : k = key
    · simp only [get?, same, if_true, Option.some.injEq] at h
      simp [same, h]
    · simp only [get?, same, if_false] at h
      exact List.mem_cons_of_mem _ (ih h)

theorem get?_of_mem {t : Table α} (distinct : t.Distinct) {key : String} {value : α}
    (member : (key, value) ∈ t) : t.get? key = some value := by
  induction t with
  | nil => simp at member
  | cons entry rest ih =>
    obtain ⟨k, v⟩ := entry
    obtain ⟨fresh, distinctRest⟩ := List.nodup_cons.mp distinct
    rcases List.mem_cons.mp member with same | later
    · simp_all [get?]
    · have known : key ∈ Table.keys rest := List.mem_map.mpr ⟨_, later, rfl⟩
      have differs : k ≠ key := fun same => fresh (same ▸ known)
      simpa [get?, differs] using ih distinctRest later

theorem mem_keys_iff (t : Table α) (key : String) : key ∈ t.keys ↔ ∃ value, (key, value) ∈ t := by
  simp [keys]

theorem mem_keys_put_iff (t : Table α) (k : String) (v : α) (key : String) :
    key ∈ (t.put k v).keys ↔ key ∈ t.keys ∨ key = k := by
  rw [keys_put]
  split
  · rename_i known
    exact ⟨Or.inl, fun h => h.elim id fun same => same ▸ known⟩
  · rw [List.mem_append, List.mem_singleton]

theorem mem_of_mem_put {t : Table α} {k : String} {v : α} {entry : String × α}
    (member : entry ∈ t.put k v) : entry ∈ t ∨ entry = (k, v) := by
  induction t with
  | nil => exact Or.inr (List.mem_singleton.mp member)
  | cons first rest ih =>
    obtain ⟨k₁, v₁⟩ := first
    by_cases known : k₁ = k
    · rw [put, if_pos known, known] at member
      rcases List.mem_cons.mp member with here | later
      · exact Or.inr here
      · exact Or.inl (List.mem_cons_of_mem _ later)
    · rw [put, if_neg known] at member
      rcases List.mem_cons.mp member with here | later
      · exact Or.inl (here ▸ List.mem_cons_self)
      · exact (ih later).imp_left (List.mem_cons_of_mem _)

theorem mem_of_mem_putNew {t : Table α} {k : String} {v : α} {entry : String × α}
    (member : entry ∈ t.putNew k v) : entry ∈ t ∨ entry = (k, v) := by
  rw [putNew] at member
  split at member
  · exact Or.inl member
  · exact mem_of_mem_put member

theorem get?_filter (keep : String → Bool) (t : Table α) (key : String) :
    get? (t.filter fun entry => keep entry.1) key = if keep key then t.get? key else none := by
  induction t with
  | nil => simp [get?]
  | cons entry rest ih =>
    obtain ⟨k, v⟩ := entry
    by_cases kept : keep k <;> by_cases same : k = key
    · subst same
      simp [get?, kept]
    · simp [get?, kept, same, ih]
    · subst same
      simp [kept, ih]
    · simp [get?, kept, same, ih]

theorem get?_append (t u : Table α) (key : String) :
    get? (t ++ u) key = (t.get? key).or (u.get? key) := by
  induction t with
  | nil => rfl
  | cons entry rest ih =>
    rw [List.cons_append, get?, get?]
    split
    · rfl
    · exact ih

theorem keys_append (t u : Table α) : keys (t ++ u) = t.keys ++ u.keys := List.map_append

theorem keys_modify (t : Table α) (key : String) (f : α → α) : (t.modify key f).keys = t.keys := by
  rw [keys, modify, List.map_map]
  refine List.map_congr_left fun entry _ => ?_
  dsimp only [Function.comp]
  split <;> rfl

theorem mem_of_mem_modify {t : Table α} {key : String} {f : α → α} {entry : String × α}
    (member : entry ∈ t.modify key f) :
    entry ∈ t ∨ ∃ value, (key, value) ∈ t ∧ entry = (key, f value) := by
  obtain ⟨⟨k, v⟩, listed, rfl⟩ := List.mem_map.mp member
  dsimp only
  split
  · rename_i same
    exact Or.inr ⟨v, same ▸ listed, by rw [same]⟩
  · exact Or.inl listed

theorem mem_foldl_erase_iff (names : List String) (t : Table α) (entry : String × α) :
    entry ∈ names.foldl erase t ↔ entry ∈ t ∧ entry.1 ∉ names := by
  induction names generalizing t with
  | nil => simp
  | cons name rest ih =>
    rw [List.foldl_cons, ih, erase, List.mem_filter]
    simp [and_assoc]

theorem distinct_foldl_erase {t : Table α} (h : t.Distinct) (names : List String) :
    (names.foldl erase t).Distinct := by
  induction names generalizing t with
  | nil => exact h
  | cons name rest ih => exact ih (h.sublist (List.Sublist.map _ List.filter_sublist))

end Table
end SchemaGraph
