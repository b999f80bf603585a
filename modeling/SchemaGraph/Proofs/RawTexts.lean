import SchemaGraph.Proofs.Renaming

/- The texts of a raw value with their places, and what a redirection does to each of them: it turns
   those under `$ref` and those among the values of a discriminator's mapping, but none that stand
   below such a value. -/
namespace SchemaGraph.Json

/-- From a raw value to one that it holds. -/
inductive Step where
  | key (name : String)
  | index (i : Nat)
  deriving DecidableEq, Repr

mutual
/-- Changes the texts of a raw value, each by the way back from its place to the root. Everything
else stays as it is: the kinds of the values, the keys and their order, the lengths of the lists. -/
def mapTexts (g : List Step → String → String) (trail : List Step) : Json → Json
  | str raw => str (g trail raw)
  | obj entries => obj (mapTextsInEntries g trail entries)
  | arr items => arr (mapTextsInItems g trail 0 items)
  | value => value

def mapTextsInEntries (g : List Step → String → String) (trail : List Step) :
    List (String × Json) → List (String × Json)
  | [] => []
  | (key, value) :: rest =>
    (key, mapTexts g (.key key :: trail) value) :: mapTextsInEntries g trail rest

def mapTextsInItems (g : List Step → String → String) (trail : List Step) (index : Nat) :
    List Json → List Json
  | [] => []
  | value :: rest =>
    mapTexts g (.index index :: trail) value :: mapTextsInItems g trail (index + 1) rest
end

section
variable (g h : List Step → String → String)

mutual
theorem mapTexts_mapTexts (trail : List Step) : ∀ value : Json,
    mapTexts g trail (mapTexts h trail value) =
      mapTexts (fun trail raw => g trail (h trail raw)) trail value
  | obj entries => congrArg obj (mapTextsInEntries_mapTextsInEntries trail entries)
  | arr items => congrArg arr (mapTextsInItems_mapTextsInItems trail 0 items)
  | str _ => rfl
  | null => rfl
  | bool _ => rfl
  | num _ => rfl

theorem mapTextsInEntries_mapTextsInEntries (trail : List Step) : ∀ entries : List (String × Json),
    mapTextsInEntries g trail (mapTextsInEntries h trail entries) =
      mapTextsInEntries (fun trail raw => g trail (h trail raw)) trail entries
  | [] => rfl
  | (key, value) :: rest => by
    simp only [mapTextsInEntries]
    rw [mapTexts_mapTexts (.key key :: trail) value, mapTextsInEntries_mapTextsInEntries trail rest]

theorem mapTextsInItems_mapTextsInItems (trail : List Step) (index : Nat) : ∀ items : List Json,
    mapTextsInItems g trail index (mapTextsInItems h trail index items) =
      mapTextsInItems (fun trail raw => g trail (h trail raw)) trail index items
  | [] => rfl
  | value :: rest => by
    simp only [mapTextsInItems]
    rw [mapTexts_mapTexts (.index index :: trail) value,
      mapTextsInItems_mapTextsInItems trail (index + 1) rest]
end

end

/-! Places, each given by the way back to the root. -/

def isDiscriminator : List Step → Bool
  | .key name :: _ => name == "discriminator"
  | _ => false

def isMapping : List Step → Bool
  | .key name :: trail => name == "mapping" && isDiscriminator trail
  | _ => false

/-- A value of a discriminator's mapping. -/
def isMapped : List Step → Bool
  | .key _ :: trail => isMapping trail
  | _ => false

/-- A value of a discriminator's mapping, or a place below one. -/
def inMapped : List Step → Bool
  | [] => false
  | step :: trail => isMapped (step :: trail) || inMapped trail

/-- The places of the texts that a redirection turns. -/
def isTarget (trail : List Step) : Bool :=
  (trail.head? == some (.key "$ref") || isMapped trail) && !inMapped trail.tail

theorem place_of_isTarget {trail : List Step} (target : isTarget trail) :
    trail.head? = some (.key "$ref") ∨ isMapped trail := by
  rw [isTarget, Bool.and_eq_true, Bool.or_eq_true, beq_iff_eq] at target
  exact target.1

theorem inMapped_of_tail {trail : List Step} (inside : inMapped trail.tail) : inMapped trail := by
  cases trail with
  | nil => exact inside
  | cons step trail =>
    rw [inMapped, Bool.or_eq_true]
    exact Or.inr inside

/-- What a redirection makes of a text. -/
def redirectAt (f : Reference → Option Reference) (trail : List Step) (raw : String) : String :=
  if isTarget trail then Keywords.redirectText f raw else raw

section
variable (f : Reference → Option Reference)

mutual
/-- Below a value of a discriminator's mapping nothing is turned. -/
theorem mapTexts_below (trail : List Step) (below : inMapped trail.tail) : ∀ value : Json,
    mapTexts (redirectAt f) trail value = value
  | obj entries => congrArg obj (mapTextsInEntries_below trail (inMapped_of_tail below) entries)
  | arr items => congrArg arr (mapTextsInItems_below trail (inMapped_of_tail below) 0 items)
  | str _ => by simp [mapTexts, redirectAt, isTarget, below]
  | null => rfl
  | bool _ => rfl
  | num _ => rfl

theorem mapTextsInEntries_below (trail : List Step) (inside : inMapped trail) :
    ∀ entries : List (String × Json), mapTextsInEntries (redirectAt f) trail entries = entries
  | [] => rfl
  | (key, value) :: rest => by
    rw [mapTextsInEntries, mapTexts_below (.key key :: trail) inside value,
      mapTextsInEntries_below trail inside rest]

theorem mapTextsInItems_below (trail : List Step) (inside : inMapped trail) (index : Nat) :
    ∀ items : List Json, mapTextsInItems (redirectAt f) trail index items = items
  | [] => rfl
  | value :: rest => by
    rw [mapTextsInItems, mapTexts_below (.index index :: trail) inside value,
      mapTextsInItems_below trail inside (index + 1) rest]
end

/-- The texts among the values of a mapping are turned, whatever their keys are. -/
theorem redirectMappingValue_eq (key : String) {trail : List Step} (mapping : isMapping trail)
    (outside : inMapped trail = false) (value : Json) :
    redirectMappingValue f value = mapTexts (redirectAt f) (.key key :: trail) value := by
  have mapped : isMapped (.key key :: trail) := mapping
  have inside : inMapped (.key key :: trail) := by rw [inMapped, mapped, Bool.true_or]
  cases value with
  | str raw => simp [redirectMappingValue, mapTexts, redirectAt, isTarget, mapped, outside]
  | obj entries => exact congrArg obj (mapTextsInEntries_below f _ inside entries).symm
  | arr items => exact congrArg arr (mapTextsInItems_below f _ inside 0 items).symm
  | _ => rfl

theorem mapValues_redirectMappingValue {trail : List Step} (mapping : isMapping trail)
    (outside : inMapped trail = false) (entries : Table Json) :
    entries.mapValues (redirectMappingValue f) = mapTextsInEntries (redirectAt f) trail entries := by
  induction entries with
  | nil => rfl
  | cons entry rest ih =>
    obtain ⟨key, value⟩ := entry
    rw [mapTextsInEntries, ← ih, ← redirectMappingValue_eq f key mapping outside]
    rfl

mutual
theorem redirectEntries_eq (trail : List Step) (outside : inMapped trail = false)
    (apart : isMapping trail = false) : ∀ entries : List (String × Json),
    redirectEntries f (isDiscriminator trail) entries =
      mapTextsInEntries (redirectAt f) trail entries
  | [] => rfl
  | (key, value) :: rest => by
    have unmapped : isMapped (.key key :: trail) = false := apart
    have free : inMapped (.key key :: trail) = false := by
      rw [inMapped, unmapped, outside, Bool.or_false]
    have under : redirectUnder f (isDiscriminator trail) key value =
        mapTexts (redirectAt f) (.key key :: trail) value := by
      cases value with
      | obj entries =>
        rw [redirectUnder, mapTexts]
        split
        · rename_i asMapping
          have mapping : isMapping (.key key :: trail) := by simp [isMapping, asMapping]
          exact congrArg obj (mapValues_redirectMappingValue f mapping free entries)
        · rename_i other
          have below : isMapping (.key key :: trail) = false := by
            rw [isMapping, Bool.eq_false_iff]
            simpa using other
          exact congrArg obj (redirectEntries_eq (.key key :: trail) free below entries)
      | arr items => exact congrArg arr (redirectItems_eq (.key key :: trail) free 0 items)
      | str raw =>
        have own : isTarget (.key key :: trail) = (key == "$ref") := by
          rw [isTarget, unmapped, Bool.or_false, List.tail_cons, outside]
          simp [beq_eq_decide]
        rw [redirectUnder, mapTexts, redirectAt, own]
        by_cases same : key = "$ref" <;> simp [same]
      | _ => rfl
    rw [redirectEntries_cons, mapTextsInEntries, under, redirectEntries_eq trail outside apart rest]

theorem redirectItems_eq (trail : List Step) (outside : inMapped trail = false) (index : Nat) :
    ∀ items : List Json, redirectItems f items =
      mapTextsInItems (redirectAt f) trail index items
  | [] => rfl
  | value :: rest => by
    have free : inMapped (.index index :: trail) = false := outside
    have item : redirect f false value = mapTexts (redirectAt f) (.index index :: trail) value := by
      cases value with
      | obj entries =>
        exact congrArg obj (redirectEntries_eq (.index index :: trail) free rfl entries)
      | arr items => exact congrArg arr (redirectItems_eq (.index index :: trail) free 0 items)
      | _ => rfl
    rw [redirectItems, mapTextsInItems, item, redirectItems_eq trail outside (index + 1) rest]
end

/-- A redirection changes texts only, each by its place. -/
theorem redirect_eq (value : Json) :
    redirect f false value = mapTexts (redirectAt f) [] value := by
  cases value with
  | obj entries => exact congrArg obj (redirectEntries_eq f [] rfl rfl entries)
  | arr items => exact congrArg arr (redirectItems_eq f [] rfl 0 items)
  | _ => rfl

end
end SchemaGraph.Json
