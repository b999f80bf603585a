import Mathlib.Algebra.Order.Field.Power
import Mathlib.Data.Nat.Digits.Defs
import Mathlib.Tactic.Linarith
import Mathlib.Tactic.NormNum
import Mathlib.Tactic.Positivity
import Mathlib.Tactic.Ring
import SchemaGraph.Decimal.Binary64

/- The float nearest to a ratio. Its exponent leaves 53 bits of the ratio before the point, all floats
   with that exponent or a greater one lie on the grid of its multiples, and those with a smaller one
   lie below the ratio and below a point of the grid. So the nearest float is the nearest point of the
   grid, and there is none from half a step above the largest float on. -/
namespace SchemaGraph.Binary64

def sign (negative : Bool) : ℚ := if negative then -1 else 1

/-- The number that a float stands for. -/
def value (x : Binary64) : ℚ := sign x.negative * (x.significand * 2 ^ x.exponent)

structure IsFinite (x : Binary64) : Prop where
  significand : x.significand < 2 ^ 53
  least : minExponent ≤ x.exponent
  greatest : x.exponent ≤ maxExponent
  normal : 2 ^ 52 ≤ x.significand ∨ x.exponent = minExponent

/-- No float is nearer, and where another one is as near, this one is even. -/
structure IsNearest (x : Binary64) (v : ℚ) : Prop where
  finite : x.IsFinite
  nearest : ∀ y : Binary64, y.IsFinite → |x.value - v| ≤ |y.value - v|
  even : ∀ y : Binary64, y.IsFinite → y.value ≠ x.value → |y.value - v| = |x.value - v| →
    Even x.significand

/-- Half a step above the largest float. -/
def overflow : ℕ := (2 ^ 54 - 1) * 2 ^ 970

theorem two_pow_lt_overflow : 2 ^ 63 < overflow := by
  have further (k : ℕ) (tenth : 10 ≤ k) : 2 ^ 63 < (2 ^ 54 - 1) * 2 ^ k :=
    calc 2 ^ 63 < (2 ^ 54 - 1) * 2 ^ 10 := by norm_num
      _ ≤ (2 ^ 54 - 1) * 2 ^ k := Nat.mul_le_mul_left _ (Nat.pow_le_pow_right two_pos tenth)
  exact further 970 (by norm_num)

section Quotients
variable {num den : ℕ} {e : ℤ}

theorem scale_pos (positive : 0 < den) : 0 < (scale num den e).2 := by
  rw [scale]
  split
  · exact Nat.mul_pos positive (Nat.pow_pos two_pos)
  · exact positive

theorem scale_eq : ((scale num den e).1 : ℚ) / (scale num den e).2 = num / den / 2 ^ e := by
  rw [scale]
  split <;> rename_i upward
  · have power : ((Nat.pow 2 e.toNat : ℕ) : ℚ) = 2 ^ e := by
      rw [Nat.pow_eq, Nat.cast_pow, ← zpow_natCast, Int.toNat_of_nonneg upward]
      rfl
    rw [Nat.cast_mul, power, div_div]
  · have power : ((Nat.pow 2 (-e).toNat : ℕ) : ℚ) = (2 ^ e)⁻¹ := by
      rw [Nat.pow_eq, Nat.cast_pow, ← zpow_natCast, Int.toNat_of_nonneg (by omega), zpow_neg]
      rfl
    rw [Nat.cast_mul, power]
    ring

/-- The nearest whole number, and of two the even one. -/
structure IsRounded (s : ℕ) (q : ℚ) : Prop where
  near : |s - q| ≤ 1 / 2
  even : |s - q| = 1 / 2 → Even s

theorem div_eq_add_fraction (num : ℕ) (positive : 0 < den) :
    (num : ℚ) / den = (num / den : ℕ) + (num % den : ℕ) / den := by
  have size : (den : ℚ) ≠ 0 := Nat.cast_ne_zero.mpr positive.ne'
  have divided : (num : ℚ) = den * (num / den : ℕ) + (num % den : ℕ) := by
    exact_mod_cast (Nat.div_add_mod num den).symm
  rw [div_eq_iff size, add_mul, div_mul_cancel₀ _ size, mul_comm, ← divided]

theorem isRounded_roundDiv (positive : 0 < den) : IsRounded (roundDiv num den) (num / den) := by
  have size : (0 : ℚ) < den := Nat.cast_pos.mpr positive
  have sum := div_eq_add_fraction num positive
  have nonneg : (0 : ℚ) ≤ (num % den : ℕ) / den := by positivity
  have below : ((num % den : ℕ) / den : ℚ) < 1 :=
    (div_lt_one size).mpr (Nat.cast_lt.mpr (Nat.mod_lt num positive))
  have atLeast : (1 / 2 : ℚ) ≤ (num % den : ℕ) / den ↔ den ≤ 2 * (num % den) := by
    rw [le_div_iff₀ size, ← Nat.cast_le (α := ℚ), Nat.cast_mul, Nat.cast_ofNat]
    constructor <;> intro <;> linarith
  have atMost : ((num % den : ℕ) / den : ℚ) ≤ 1 / 2 ↔ 2 * (num % den) ≤ den := by
    rw [div_le_iff₀ size, ← Nat.cast_le (α := ℚ), Nat.cast_mul, Nat.cast_ofNat]
    constructor <;> intro <;> linarith
  generalize ((num % den : ℕ) / den : ℚ) = fraction at *
  rw [roundDiv]
  split <;> rename_i up
  · have half := atLeast.mpr (by omega)
    have distance : |((num / den + 1 : ℕ) : ℚ) - num / den| = 1 - fraction := by
      rw [sum, Nat.cast_add_one, add_sub_add_left_eq_sub, abs_of_pos (by linarith)]
    refine ⟨by linarith, fun tie => Nat.even_iff.mpr ?_⟩
    have := atMost.mp (by linarith)
    omega
  · have half := atMost.mpr (by omega)
    have distance : |((num / den : ℕ) : ℚ) - num / den| = fraction := by
      rw [sum, sub_add_cancel_left, abs_neg, abs_of_nonneg nonneg]
    refine ⟨by linarith, fun tie => Nat.even_iff.mpr ?_⟩
    have := atLeast.mp (by linarith)
    omega

/-- At this exponent the ratio has 53 bits before the point, or fewer at the least exponent. -/
structure Fits (q : ℚ) (e : ℤ) : Prop where
  least : minExponent ≤ e
  below : q < 2 ^ 53 * 2 ^ e
  normal : 2 ^ 52 * 2 ^ e ≤ q ∨ e = minExponent

theorem log2_bounds (positive : 0 < num) :
    (2 : ℚ) ^ (num.log2 : ℤ) ≤ num ∧ (num : ℚ) < 2 ^ (num.log2 + 1 : ℤ) := by
  constructor
  · rw [zpow_natCast]
    exact_mod_cast Nat.log2_self_le positive.ne'
  · rw [← Nat.cast_add_one, zpow_natCast]
    exact_mod_cast Nat.lt_log2_self

/-- The logarithms tell the ratio up to a factor of two either way. -/
theorem ratio_bounds (positive : 0 < num) (divides : 0 < den) :
    (2 : ℚ) ^ (num.log2 - den.log2 - 1 : ℤ) ≤ num / den ∧
      (num : ℚ) / den < 2 ^ (num.log2 - den.log2 + 1 : ℤ) := by
  obtain ⟨atLeast, below⟩ := log2_bounds positive
  obtain ⟨atLeast', below'⟩ := log2_bounds divides
  have size : (0 : ℚ) < den := Nat.cast_pos.mpr divides
  constructor
  · rw [le_div_iff₀ size]
    calc (2 : ℚ) ^ (num.log2 - den.log2 - 1 : ℤ) * den
        ≤ 2 ^ (num.log2 - den.log2 - 1 : ℤ) * 2 ^ (den.log2 + 1 : ℤ) := by gcongr
      _ = 2 ^ (num.log2 : ℤ) := by
        rw [← zpow_add₀ two_ne_zero]
        congr 1
        omega
      _ ≤ num := atLeast
  · rw [div_lt_iff₀ size]
    calc (num : ℚ) < 2 ^ (num.log2 + 1 : ℤ) := below
      _ = 2 ^ (num.log2 - den.log2 + 1 : ℤ) * 2 ^ (den.log2 : ℤ) := by
        rw [← zpow_add₀ two_ne_zero]
        congr 1
        omega
      _ ≤ 2 ^ (num.log2 - den.log2 + 1 : ℤ) * den := by gcongr

theorem two_pow_mul (k : ℕ) (e : ℤ) : (2 : ℚ) ^ k * 2 ^ e = 2 ^ (k + e) := by
  rw [zpow_add₀ two_ne_zero, zpow_natCast]

theorem fits_of_bounds {q : ℚ} (atLeast : 2 ^ 52 * 2 ^ e ≤ q) (below : q < 2 ^ 53 * 2 ^ e) :
    Fits q (max minExponent e) where
  least := le_max_left _ _
  below := below.trans_le (by gcongr <;> norm_num)
  normal := by
    rcases le_total minExponent e with higher | lower
    · rw [max_eq_right higher]
      exact Or.inl atLeast
    · exact Or.inr (max_eq_left lower)

theorem fits_exponentFor (positive : 0 < num) (divides : 0 < den) :
    Fits (num / den) (exponentFor num den) := by
  obtain ⟨atLeast, below⟩ := ratio_bounds positive divides
  obtain ⟨guess, guessed⟩ : ∃ guess : ℤ, guess = num.log2 - den.log2 - 52 := ⟨_, rfl⟩
  have less : (scale num den guess).1 < (scale num den guess).2 * Nat.pow 2 52 ↔
      (num : ℚ) / den < 2 ^ 52 * 2 ^ guess := by
    have size : (0 : ℚ) < (scale num den guess).2 := Nat.cast_pos.mpr (scale_pos divides)
    rw [← Nat.cast_lt (α := ℚ), Nat.cast_mul, Nat.pow_eq, Nat.cast_pow, Nat.cast_ofNat, mul_comm,
      ← div_lt_iff₀ size, scale_eq, div_lt_iff₀ (by positivity)]
  have exponent : exponentFor num den = max minExponent
      (if (scale num den guess).1 < (scale num den guess).2 * Nat.pow 2 52 then guess - 1
      else guess) := guessed ▸ rfl
  rw [exponent]
  split <;> rename_i small <;> rw [less] at small
  · refine fits_of_bounds (le_of_eq_of_le ?_ atLeast) (small.trans_eq ?_)
    · rw [two_pow_mul]
      congr 1
      omega
    · rw [two_pow_mul, two_pow_mul]
      congr 1
      omega
  · refine fits_of_bounds (not_lt.mp small) (below.trans_eq ?_)
    rw [two_pow_mul]
    congr 1
    omega

end Quotients

section Grid
variable {q w : ℚ} {s : ℕ} {e : ℤ}

theorem IsRounded.nearest (rounded : IsRounded s q) (k : ℤ) :
    |s - q| ≤ |k - q| ∧ (k ≠ s → |k - q| = |s - q| → Even s) := by
  by_cases same : k = s
  · exact ⟨by rw [same, Int.cast_natCast], fun other => absurd same other⟩
  · have apart : (1 : ℚ) ≤ |(k : ℚ) - s| := by
      exact_mod_cast Int.one_le_abs (sub_ne_zero.mpr same)
    have detour := abs_sub_le (k : ℚ) q s
    rw [abs_sub_comm q] at detour
    have near := rounded.near
    exact ⟨by linarith, fun _ tie => rounded.even (by linarith)⟩

theorem distance_scaled (m : ℚ) (e : ℤ) : |m * 2 ^ e - q| = |m - q / 2 ^ e| * 2 ^ e := by
  have size : (0 : ℚ) < 2 ^ e := by positivity
  rw [← abs_of_pos size, ← abs_mul, abs_of_pos size, sub_mul, div_mul_cancel₀ _ size.ne']

theorem IsRounded.nearest_multiple (rounded : IsRounded s (q / 2 ^ e)) (k : ℤ) :
    |s * 2 ^ e - q| ≤ |k * 2 ^ e - q| ∧
      (k * 2 ^ e ≠ (s * 2 ^ e : ℚ) → |k * 2 ^ e - q| = |s * 2 ^ e - q| → Even s) := by
  have size : (0 : ℚ) < 2 ^ e := by positivity
  obtain ⟨nearest, even⟩ := rounded.nearest k
  rw [distance_scaled, distance_scaled]
  refine ⟨mul_le_mul_of_nonneg_right nearest size.le, fun other tie => even ?_ ?_⟩
  · rintro rfl
    exact other (by rw [Int.cast_natCast])
  · exact mul_right_cancel₀ size.ne' tie

/-- On the grid of multiples, or below all ratios that the exponent fits. -/
def IsPlaced (e : ℤ) (w : ℚ) : Prop :=
  (∃ k : ℤ, w = k * 2 ^ e) ∨ minExponent < e ∧ |w| < 2 ^ 52 * 2 ^ e

theorem nearest_of_isRounded (fits : Fits q e) (rounded : IsRounded s (q / 2 ^ e))
    (placed : IsPlaced e w) :
    |s * 2 ^ e - q| ≤ |w - q| ∧ (w ≠ s * 2 ^ e → |w - q| = |s * 2 ^ e - q| → Even s) := by
  rcases placed with ⟨k, rfl⟩ | ⟨higher, small⟩
  · exact rounded.nearest_multiple k
  · have atLeast := fits.normal.resolve_right higher.ne'
    have onGrid := (rounded.nearest_multiple (2 ^ 52)).1
    rw [Int.cast_pow, Int.cast_ofNat, abs_of_nonpos (sub_nonpos.mpr atLeast)] at onGrid
    have off : |w - q| = q - w := by
      rw [abs_sub_comm, abs_of_nonneg]
      linarith [le_abs_self w]
    have nearer : |s * 2 ^ e - q| < |w - q| := by linarith [le_abs_self w]
    exact ⟨nearer.le, fun _ tie => absurd tie nearer.ne'⟩

theorem IsRounded.le (rounded : IsRounded s (q / 2 ^ e)) (fits : Fits q e) : s ≤ 2 ^ 53 := by
  have below := (div_lt_iff₀ (by positivity)).mpr fits.below
  have near := (abs_le.mp rounded.near).2
  by_contra above
  have : ((2 ^ 53 + 1 : ℕ) : ℚ) ≤ s := Nat.cast_le.mpr (by omega)
  push_cast at this
  linarith

theorem IsRounded.normal (rounded : IsRounded s (q / 2 ^ e)) (fits : Fits q e) :
    2 ^ 52 ≤ s ∨ e = minExponent := by
  refine fits.normal.imp_left fun atLeast => ?_
  have atLeast := (le_div_iff₀ (by positivity)).mpr atLeast
  have near := (abs_le.mp rounded.near).1
  by_contra below
  have : (s : ℚ) + 1 ≤ (2 ^ 52 : ℕ) := by exact_mod_cast (by omega : s + 1 ≤ 2 ^ 52)
  push_cast at this
  linarith

theorem overflow_eq : (overflow : ℚ) = (2 ^ 53 - 1 / 2) * 2 ^ maxExponent := by
  have power : (2 : ℚ) ^ maxExponent = 2 * 2 ^ 970 := by
    rw [maxExponent, ← pow_succ', ← zpow_natCast]
    rfl
  rw [overflow, power, Nat.cast_mul, Nat.cast_pow]
  generalize (2 : ℚ) ^ 970 = p
  norm_num
  ring

theorem IsRounded.eq_two_pow_iff (rounded : IsRounded s q) (atMost : s ≤ 2 ^ 53) :
    s = 2 ^ 53 ↔ 2 ^ 53 - 1 / 2 ≤ q := by
  have ⟨low, high⟩ := abs_le.mp rounded.near
  refine ⟨fun full => ?_, fun half => ?_⟩
  · rw [full] at high
    push_cast at high
    linarith
  -- Below the power comes an odd number, which does not get the tie.
  · by_contra other
    have last : s = 2 ^ 53 - 1 := by
      refine le_antisymm (Nat.le_sub_one_of_lt (lt_of_le_of_ne atMost other)) ?_
      rw [← Nat.cast_le (α := ℚ)]
      push_cast
      linarith
    have tie : |s - q| = 1 / 2 := by
      refine le_antisymm rounded.near ?_
      rw [abs_sub_comm, last]
      refine le_trans ?_ (le_abs_self _)
      push_cast
      linarith
    have even := rounded.even tie
    rw [last] at even
    exact absurd even (by decide)

/-- The significand or the exponent is too great exactly from half a step above the largest float. -/
theorem overflow_le_iff (fits : Fits q e) (rounded : IsRounded s (q / 2 ^ e)) :
    (overflow : ℚ) ≤ q ↔ maxExponent < e ∨ s = 2 ^ 53 ∧ e = maxExponent := by
  have ordered : minExponent < maxExponent := by decide
  rw [overflow_eq]
  -- The power is too great to be computed.
  generalize maxExponent = greatest at ordered ⊢
  rcases lt_trichotomy e greatest with lower | rfl | higher
  · have step : (2 : ℚ) ^ (e + 1) ≤ 2 ^ greatest := zpow_le_zpow_right₀ one_le_two lower
    rw [zpow_add_one₀ two_ne_zero] at step
    have below := fits.below
    have size : (0 : ℚ) < 2 ^ greatest := by positivity
    exact iff_of_false (by linarith) (by omega)
  · rw [← le_div_iff₀ (by positivity), ← rounded.eq_two_pow_iff (rounded.le fits)]
    simp
  · have step : (2 : ℚ) ^ (greatest + 1) ≤ 2 ^ e := zpow_le_zpow_right₀ one_le_two higher
    rw [zpow_add_one₀ two_ne_zero] at step
    have atLeast := fits.normal.resolve_right (by omega)
    have size : (0 : ℚ) < 2 ^ greatest := by positivity
    exact iff_of_true (by linarith) (Or.inl higher)

end Grid

section Values
variable {negative : Bool} {q w : ℚ} {s : ℕ} {e : ℤ} {x : Binary64}

theorem sign_mul_sign (negative : Bool) : sign negative * sign negative = 1 := by
  cases negative <;> norm_num [sign]

theorem abs_sign_mul (negative : Bool) (w : ℚ) : |sign negative * w| = |w| := by
  cases negative <;> simp [sign]

/-- The distance of a number from a signed one, seen from its magnitude. -/
theorem distance_signed (negative : Bool) (w q : ℚ) :
    |w - sign negative * q| = |sign negative * w - q| := by
  rw [← abs_sign_mul negative (w - _), mul_sub, ← mul_assoc, sign_mul_sign, one_mul]

theorem IsPlaced.signed (placed : IsPlaced e w) (negative : Bool) :
    IsPlaced e (sign negative * w) := by
  rcases placed with ⟨k, rfl⟩ | small
  · refine Or.inl ⟨if negative then -k else k, ?_⟩
    cases negative <;> simp [sign]
  · exact Or.inr (by rwa [abs_sign_mul])

/-- A float with a smaller exponent lies below the grid's part that matters, all others lie on it. -/
theorem IsFinite.isPlaced (finite : x.IsFinite) : IsPlaced e x.value := by
  refine IsPlaced.signed ?_ x.negative
  rcases lt_or_ge x.exponent e with lower | higher
  · have step : (2 : ℚ) ^ (x.exponent + 1) ≤ 2 ^ e := zpow_le_zpow_right₀ one_le_two lower
    rw [zpow_add_one₀ two_ne_zero] at step
    have size : (0 : ℚ) < 2 ^ x.exponent := by positivity
    have significand : (x.significand : ℚ) < 2 ^ 53 := by exact_mod_cast finite.significand
    refine Or.inr ⟨lt_of_le_of_lt finite.least lower, ?_⟩
    rw [abs_of_nonneg (by positivity)]
    calc (x.significand : ℚ) * 2 ^ x.exponent < 2 ^ 53 * 2 ^ x.exponent := by gcongr
      _ ≤ 2 ^ 52 * 2 ^ e := by linarith
  · refine Or.inl ⟨x.significand * 2 ^ (x.exponent - e).toNat, ?_⟩
    push_cast
    rw [mul_assoc, two_pow_mul, Int.toNat_of_nonneg (by omega), sub_add_cancel]

/-- The float with the significand, halved where rounding has given it one bit more. -/
def carried (negative : Bool) (s : ℕ) (e : ℤ) : Option Binary64 :=
  if s = Nat.pow 2 53 then
    if maxExponent < e + 1 then none else some ⟨negative, Nat.pow 2 52, e + 1⟩
  else if maxExponent < e then none else some ⟨negative, s, e⟩

theorem nearest_eq_carried {num den : ℕ} {found : Option Binary64} (positive : num ≠ 0)
    (exponent : exponentFor num den = e)
    (rounded : roundDiv (scale num den e).1 (scale num den e).2 = s)
    (left : carried negative s e = found) : nearest negative num den = found := by
  rw [nearest, if_neg positive]
  -- One value after the other is named: reduced as a whole, the powers of two would be computed.
  extract_lets e'
  have same : e' = e := exponent
  clear_value e'
  subst same
  split
  rename_i n d scaled
  extract_lets s'
  have same : s' = s := by rw [← rounded, scaled]
  clear_value s'
  subst same
  split
  rename_i carry
  rw [← left, carried]
  split at carry <;> rename_i full <;> cases carry
  · rw [if_pos full]
  · rw [if_neg full]

theorem carried_eq_none_iff :
    carried negative s e = none ↔ maxExponent < e ∨ s = 2 ^ 53 ∧ e = maxExponent := by
  rw [carried, Nat.pow_eq]
  split
  · simp only [ite_eq_left_iff, reduceCtorEq, imp_false, not_not]
    omega
  · simp only [ite_eq_left_iff, reduceCtorEq, imp_false, not_not]
    omega

theorem isFinite_of_carried (fits : Fits q e) (rounded : IsRounded s (q / 2 ^ e))
    (found : carried negative s e = some x) : x.IsFinite ∧
      x.value = sign negative * (s * 2 ^ e) ∧ (Even s → Even x.significand) := by
  have least := fits.least
  have atMost := rounded.le fits
  have normal := rounded.normal fits
  rw [carried, Nat.pow_eq, Nat.pow_eq] at found
  split at found
  · split at found
    · cases found
    · rename_i full _
      cases found
      refine ⟨⟨by norm_num, by dsimp only; omega, by dsimp only; omega, Or.inl le_rfl⟩, ?_, ?_⟩
      · rw [value, full, zpow_add_one₀ two_ne_zero]
        push_cast
        ring
      · exact fun _ => ⟨2 ^ 51, by norm_num⟩
  · split at found
    · cases found
    · cases found
      exact ⟨⟨by dsimp only; omega, least, by dsimp only; omega, normal⟩, rfl, id⟩

theorem isNearest_of_carried (fits : Fits q e) (rounded : IsRounded s (q / 2 ^ e))
    (found : carried negative s e = some x) : x.IsNearest (sign negative * q) := by
  obtain ⟨finite, value, even⟩ := isFinite_of_carried fits rounded found
  have signed : sign negative * x.value = s * 2 ^ e := by
    rw [value, ← mul_assoc, sign_mul_sign, one_mul]
  refine ⟨finite, fun y within => ?_, fun y within other tie => even ?_⟩
  all_goals
    have placed := (IsFinite.isPlaced (e := e) within).signed negative
    obtain ⟨nearest, ties⟩ := nearest_of_isRounded fits rounded placed
  · rwa [distance_signed, distance_signed, signed]
  · rw [distance_signed, distance_signed, signed] at tie
    refine ties (fun same => other ?_) tie
    rw [← one_mul y.value, ← sign_mul_sign negative, mul_assoc, same, ← signed, ← mul_assoc,
      sign_mul_sign, one_mul]

end Values

section Nearest
variable {negative : Bool} {num den n : ℕ} {x : Binary64}

theorem isNearest_zero : (zero negative).IsNearest 0 where
  finite := ⟨(by decide : 0 < 2 ^ 53), le_rfl, (by decide : minExponent ≤ maxExponent), Or.inr rfl⟩
  nearest y _ := by
    have value : (zero negative).value = 0 := by simp [value, zero]
    rw [value, sub_zero, abs_zero]
    exact abs_nonneg _
  even _ _ _ _ := Even.zero

/-- Rounding in terms of the exponent and the significand that it comes to. -/
theorem exists_carried (negative : Bool) (positive : 0 < num) (divides : 0 < den) : ∃ s e,
    Fits (num / den) e ∧ IsRounded s (num / den / 2 ^ e) ∧
      nearest negative num den = carried negative s e :=
  ⟨_, _, fits_exponentFor positive divides, scale_eq ▸ isRounded_roundDiv (scale_pos divides),
    nearest_eq_carried positive.ne' rfl rfl rfl⟩

theorem isNearest_of_nearest (divides : 0 < den) (found : nearest negative num den = some x) :
    x.IsNearest (sign negative * (num / den)) := by
  rcases num.eq_zero_or_pos with rfl | positive
  · rw [nearest, if_pos rfl] at found
    cases found
    rw [Nat.cast_zero, zero_div, mul_zero]
    exact isNearest_zero
  · obtain ⟨s, e, fits, rounded, carries⟩ := exists_carried negative positive divides
    exact isNearest_of_carried fits rounded (carries ▸ found)

theorem nearest_eq_none_iff (divides : 0 < den) :
    nearest negative num den = none ↔ (overflow : ℚ) ≤ num / den := by
  rcases num.eq_zero_or_pos with rfl | positive
  · rw [nearest, if_pos rfl, Nat.cast_zero, zero_div]
    refine iff_of_false (by simp) (not_le.mpr (Nat.cast_pos.mpr ?_))
    rw [overflow]
    positivity
  · obtain ⟨s, e, fits, rounded, carries⟩ := exists_carried negative positive divides
    rw [carries, carried_eq_none_iff, overflow_le_iff fits rounded]

theorem isNearest_of_nearest_whole (found : nearest negative n 1 = some x) :
    x.IsNearest (sign negative * n) := by
  simpa using isNearest_of_nearest one_pos found

theorem nearest_whole_eq_none_iff : nearest negative n 1 = none ↔ overflow ≤ n := by
  rw [nearest_eq_none_iff one_pos, Nat.cast_one, div_one, Nat.cast_le]

/-- A number of more than 310 digits is too great. -/
theorem overflow_le_of_digitCount (long : 310 < digitCount n) : overflow ≤ n := by
  have power : 10 ^ 310 ≤ n := by
    by_contra less
    have short := Nat.toDigits_length 10 n 310 (by omega) (not_le.mp less)
    exact absurd short (not_le.mpr long)
  calc overflow ≤ 2 ^ 54 * 2 ^ 970 := Nat.mul_le_mul_right _ (Nat.sub_le _ _)
    _ = (2 ^ 93) ^ 11 * 2 := by rw [← pow_mul, ← pow_add, ← pow_succ]
    _ ≤ (10 ^ 28) ^ 11 * 10 ^ 2 :=
      Nat.mul_le_mul (Nat.pow_le_pow_left (by norm_num) 11) (by norm_num)
    _ = 10 ^ 310 := by rw [← pow_mul, ← pow_add]
    _ ≤ n := power

/-- A whole number is rounded as such, however long it is. -/
theorem ofDecimal_whole : ofDecimal negative n 0 = nearest negative n 1 := by
  rw [ofDecimal]
  by_cases zero : n = 0
  · rw [if_pos zero, nearest, if_pos zero]
  rw [if_neg zero]
  extract_lets lead
  have count : lead = digitCount n := zero_add _
  clear_value lead
  split
  · exact (nearest_whole_eq_none_iff.mpr (overflow_le_of_digitCount (by omega))).symm
  · rw [if_neg (by omega), if_pos le_rfl, Int.toNat_zero]
    exact congrArg (nearest negative · 1) (Nat.mul_one n)

end Nearest

end SchemaGraph.Binary64
