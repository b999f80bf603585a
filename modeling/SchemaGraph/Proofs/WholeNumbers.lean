import Mathlib.Data.List.TakeWhile
import SchemaGraph.Lexical
import SchemaGraph.Proofs.NearestFloats

/- Whole numbers in texts. One that 64 bits with a sign can hold becomes that number. Any other one
   becomes the nearest float, however far that is from it, and one beyond all floats stays a text. -/
namespace SchemaGraph.Lexical

/-- Decimal digits with a sign or without one, and the whole number that they denote. -/
inductive Spells : List Char → Int → Prop
  | plain {digits : List Char} (nonempty : digits ≠ []) (all : ∀ c ∈ digits, c.isDigit) :
    Spells digits (Nat.ofDigitChars 10 digits 0)
  | plus {digits : List Char} (nonempty : digits ≠ []) (all : ∀ c ∈ digits, c.isDigit) :
    Spells ('+' :: digits) (Nat.ofDigitChars 10 digits 0)
  | minus {digits : List Char} (nonempty : digits ≠ []) (all : ∀ c ∈ digits, c.isDigit) :
    Spells ('-' :: digits) (-Nat.ofDigitChars 10 digits 0)

variable {cs digits : List Char} {value : Int}

theorem bounds_of_isDigit {c : Char} (digit : c.isDigit) : 48 ≤ c.toNat ∧ c.toNat ≤ 57 := by
  simpa [Char.isDigit, UInt32.le_iff_toNat_le] using digit

theorem isBlank_of_isDigit {c : Char} (digit : c.isDigit) : isBlank c = false := by
  obtain ⟨low, high⟩ := bounds_of_isDigit digit
  simp [isBlank]
  omega

theorem signed_of_isDigit (all : ∀ c ∈ digits, c.isDigit) : signed digits = (false, digits) := by
  rw [signed.eq_def]
  split
  · exact absurd (all '+' (by simp)) (by decide)
  · exact absurd (all '-' (by simp)) (by decide)
  · rfl

/-- A sign is told from the digits. -/
theorem Spells.signed_eq (spells : Spells cs value) : ∃ digits, digits ≠ [] ∧
    (∀ c ∈ digits, c.isDigit) ∧ ∃ negative, signed cs = (negative, digits) ∧
      value = if negative then -(Number.natOfDigits digits : Int) else Number.natOfDigits digits := by
  cases spells with
  | plain nonempty all => exact ⟨_, nonempty, all, false, signed_of_isDigit all, rfl⟩
  | plus nonempty all => exact ⟨_, nonempty, all, false, rfl, rfl⟩
  | minus nonempty all => exact ⟨_, nonempty, all, true, rfl, rfl⟩

theorem Spells.trim_eq (spells : Spells cs value) : trim cs = cs := by
  have solid : ∀ c ∈ cs, isBlank c = false := by
    cases spells with
    | plain _ all => exact fun c member => isBlank_of_isDigit (all c member)
    | plus _ all | minus _ all =>
      intro c member
      rcases List.mem_cons.mp member with rfl | member
      · decide
      · exact isBlank_of_isDigit (all c member)
  have stays (l : List Char) (solid : ∀ c ∈ l, isBlank c = false) : l.dropWhile isBlank = l := by
    cases l with
    | nil => rfl
    | cons c rest => exact List.dropWhile_cons_of_neg (by simp [solid c])
  rw [trim, stays cs solid, stays _ fun c member => solid c (List.mem_reverse.mp member),
    List.reverse_reverse]

theorem isDigit_of_isDigit {c : Char} (digit : c.isDigit) : Number.isDigit c := by
  obtain ⟨low, high⟩ := bounds_of_isDigit digit
  simp only [Number.isDigit, Bool.and_eq_true, decide_eq_true_eq, Char.le_def, UInt32.le_iff_toNat_le]
  exact ⟨low, high⟩

theorem Spells.integer?_eq (spells : Spells cs value) : integer? cs =
    if Number.minInt ≤ value ∧ value < -Number.minInt then some value else none := by
  obtain ⟨digits, nonempty, all, negative, signed, rfl⟩ := spells.signed_eq
  have digitsOnly : ¬ (digits = [] ∨ !digits.all Number.isDigit) := by
    simpa [nonempty] using fun c member => isDigit_of_isDigit (all c member)
  rw [integer?, signed]
  exact if_neg digitsOnly

theorem Spells.float?_eq (spells : Spells cs value) : ∃ negative,
    (value : ℚ) = Binary64.sign negative * value.natAbs ∧
      float? cs = Binary64.nearest negative value.natAbs 1 := by
  obtain ⟨digits, nonempty, all, negative, signed, rfl⟩ := spells.signed_eq
  have whole : digits.takeWhile Number.isDigit = digits :=
    List.takeWhile_eq_self_iff.mpr fun c member => isDigit_of_isDigit (all c member)
  have rest : digits.dropWhile Number.isDigit = [] :=
    List.dropWhile_eq_nil_iff.mpr fun c member => isDigit_of_isDigit (all c member)
  have magnitude : (if negative then -(Number.natOfDigits digits : Int)
      else Number.natOfDigits digits).natAbs = Number.natOfDigits digits := by
    cases negative <;> simp
  refine ⟨negative, ?_, ?_⟩
  · rw [magnitude]
    cases negative <;> simp [Binary64.sign]
  · rw [float?, signed, magnitude, ← Binary64.ofDecimal_whole]
    simp only [whole, rest, nonempty, List.append_nil, false_and, if_false]
    rfl

theorem Spells.number?_eq (spells : Spells cs value) : number? cs =
    if Number.minInt ≤ value ∧ value < -Number.minInt then some (.int value)
    else (float? cs).map .float := by
  rw [number?, spells.trim_eq, spells.integer?_eq]
  by_cases fits : Number.minInt ≤ value ∧ value < -Number.minInt
  · rw [if_pos fits, if_pos fits]
  · rw [if_neg fits, if_neg fits]

theorem convert_of_numeric {type : String} (numeric : type = "integer" ∨ type = "number")
    (text : String) : convert type (.str text) =
      (number? text.toList).elim (.str text) .num := by
  have other : type ≠ "boolean" := by
    rcases numeric with rfl | rfl <;> decide
  rw [convert, if_neg other, if_pos numeric.symm, Lexical.numeric]
  cases number? text.toList <;> rfl

theorem Spells.convert_eq {type text : String} (spells : Spells text.toList value)
    (numeric : type = "integer" ∨ type = "number") : ∃ negative,
    (value : ℚ) = Binary64.sign negative * value.natAbs ∧
      convert type (.str text) =
        if -2 ^ 63 ≤ value ∧ value < 2 ^ 63 then .num (.int value)
        else (Binary64.nearest negative value.natAbs 1).elim (.str text) (.num ∘ .float) := by
  obtain ⟨negative, signed, rounded⟩ := spells.float?_eq
  refine ⟨negative, signed, ?_⟩
  have least : Number.minInt = -2 ^ 63 := rfl
  rw [convert_of_numeric numeric, spells.number?_eq, least, neg_neg, rounded]
  split
  · rfl
  · cases Binary64.nearest negative value.natAbs 1 <;> rfl

/-- A whole number that stands as text becomes the same number exactly where 64 bits with a sign can
hold it and stays a text exactly where no float comes near it; any other one is rounded. -/
theorem convert_whole {type text : String} {value : Int} (spells : Spells text.toList value)
    (numeric : type = "integer" ∨ type = "number") :
    (convert type (.str text) = .num (.int value) ↔ -2 ^ 63 ≤ value ∧ value < 2 ^ 63) ∧
    (convert type (.str text) = .str text ↔ Binary64.overflow ≤ value.natAbs) ∧
    (¬ (-2 ^ 63 ≤ value ∧ value < 2 ^ 63) → value.natAbs < Binary64.overflow →
      ∃ x : Binary64, convert type (.str text) = .num (.float x) ∧ x.IsNearest value) := by
  obtain ⟨negative, signed, converted⟩ := spells.convert_eq numeric
  by_cases fits : -2 ^ 63 ≤ value ∧ value < 2 ^ 63
  · have within : value.natAbs < Binary64.overflow := by
      have := Binary64.two_pow_lt_overflow
      omega
    rw [converted, if_pos fits]
    exact ⟨iff_of_true rfl fits, iff_of_false nofun (not_le.mpr within), fun off => absurd fits off⟩
  · rw [converted, if_neg fits]
    cases found : Binary64.nearest negative value.natAbs 1 with
    | none =>
      have beyond := Binary64.nearest_whole_eq_none_iff.mp found
      exact ⟨iff_of_false nofun fits, iff_of_true rfl beyond, fun _ within => by omega⟩
    | some x =>
      have within : ¬ Binary64.overflow ≤ value.natAbs := by
        rw [← Binary64.nearest_whole_eq_none_iff, found]
        nofun
      have nearest := Binary64.isNearest_of_nearest_whole found
      rw [← signed] at nearest
      exact ⟨iff_of_false nofun fits, iff_of_false nofun within, fun _ _ => ⟨x, rfl, nearest⟩⟩

theorem convert_whole_least : Spells "-9223372036854775808".toList (-2 ^ 63) ∧
    convert "number" (.str "-9223372036854775808") = .num (.int (-2 ^ 63)) := by
  have value : (-2 ^ 63 : Int) =
      -(Nat.ofDigitChars 10 "9223372036854775808".toList 0 : Nat) := by decide +kernel
  have digits : "9223372036854775808".toList.all Char.isDigit := by decide +kernel
  have spells : Spells "-9223372036854775808".toList (-2 ^ 63) :=
    value ▸ .minus (by decide +kernel) (List.all_eq_true.mp digits)
  exact ⟨spells, (convert_whole spells (Or.inr rfl)).1.mpr (by decide)⟩

def unsignedMaximum : String := "18446744073709551615"

/-- The greatest number of 64 bits without sign gets neither: it is rounded to the next power of
two. -/
theorem unsigned_maximum_rounded :
    Spells unsignedMaximum.toList (2 ^ 64 - 1) ∧
      (∃ x : Binary64, convert "integer" (.str unsignedMaximum) = .num (.float x) ∧
        x.value = 2 ^ 64) ∧
      ¬ (convert "integer" (.str unsignedMaximum) = .num (.int (2 ^ 64 - 1)) ∨
        convert "integer" (.str unsignedMaximum) = .str unsignedMaximum) := by
  have value : (2 ^ 64 - 1 : Int) = (Nat.ofDigitChars 10 unsignedMaximum.toList 0 : Nat) := by
    decide +kernel
  have read : number? unsignedMaximum.toList = some (.float ⟨false, 2 ^ 52, 12⟩) := by
    decide +kernel
  have rounded : convert "integer" (.str unsignedMaximum) =
      .num (.float ⟨false, 2 ^ 52, 12⟩) := by
    rw [convert_of_numeric (Or.inl rfl), read]
    rfl
  have digits : unsignedMaximum.toList.all Char.isDigit := by decide +kernel
  refine ⟨value ▸ .plain (by decide +kernel) (List.all_eq_true.mp digits), ⟨_, rounded, ?_⟩, ?_⟩
  · norm_num [Binary64.value, Binary64.sign]
  · rw [rounded]
    rintro (whole | text)
    · cases whole
    · cases text

end SchemaGraph.Lexical
