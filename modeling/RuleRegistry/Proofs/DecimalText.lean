import Mathlib.Data.List.TakeWhile
import Mathlib.Data.Nat.Cast.Field
import RuleRegistry.Proofs.Numerals
import RuleRegistry.Proofs.Shortest
import RuleRegistry.Value.Text

namespace RuleRegistry

namespace Binary64

/-- The text of a number is these digits with a point between them, and it is read as the number. -/
structure Spelled (x : Binary64) (whole fraction : List Char) : Prop where
  text : x.text.toList = whole ++ '.' :: fraction
  some_whole : whole ≠ []
  some_fraction : fraction ≠ []
  whole_digits : ∀ c ∈ whole, Numeral.isDigit c = true
  fraction_digits : ∀ c ∈ fraction, Numeral.isDigit c = true
  read : Numeral.readBinary64 (whole ++ '.' :: fraction) = some x

theorem zero_of_significand {x : Binary64} (finite : x.isFinite = true)
    (unsigned : x.isNegative = false) (none_set : x.significand = 0) : zero false = x := by
  have fields := placed finite
  have least : x.exponent = -1074 :=
    fields.leading.resolve_right fun leading => by unfold leadingBit at leading; omega
  have empty : x.magnitude = 0 := by
    rw [fields.magnitude_eq, none_set, least]
    rfl
  rw [zero, ← empty, ofMagnitude_magnitude unsigned]

theorem two_zpow_lt_ten_zpow : (2 : ℚ) ^ (1075 : Int) < 10 ^ (400 : Int) := by
  have block : (2 : ℚ) ^ (43 : Nat) < 10 ^ (16 : Nat) := by norm_num
  have blocks := pow_lt_pow_left₀ block (by positivity) (by decide : 25 ≠ 0)
  rw [← pow_mul, ← pow_mul] at blocks
  exact blocks

theorem ten_zpow_lt_two_zpow : (10 : ℚ) ^ (-400 : Int) < 2 ^ (-1075 : Int) := by
  rw [zpow_neg, zpow_neg]
  exact inv_strictAnti₀ (two_zpow_pos _) two_zpow_lt_ten_zpow

/-- A decimal near a number is far from both ends of the range. -/
theorem reach_of_near {x : Binary64} (finite : x.isFinite = true) (positive : 0 < x.significand)
    {digits : Nat} {exponent : Int} (near : x.Near (digits * 10 ^ exponent)) :
    0 < digits ∧ -400 ≤ exponent + decimalLength digits ∧
      exponent + decimalLength digits ≤ 400 := by
  have fields := placed finite
  have step : (0 : ℚ) < 10 ^ exponent := zpow_pos (by norm_num) _
  have above := near.pos positive
  have under := near.lt finite
  have some_digit : 0 < digits := by
    have product := (two_zpow_pos _).trans_le above
    exact_mod_cast pos_of_mul_pos_left product step.le
  obtain ⟨low, high⟩ := decimal_bounds some_digit exponent
  refine ⟨some_digit, ?_, ?_⟩
  · have least : (2 : ℚ) ^ (-1075 : Int) ≤ 2 ^ (x.exponent - 1) :=
      zpow_le_zpow_right₀ (by norm_num) (by have := fields.least; omega)
    have chain := (ten_zpow_lt_two_zpow.trans_le (least.trans above)).trans high
    exact ((zpow_lt_zpow_iff_right₀ (by norm_num)).mp chain).le
  · have greatest : (2 : ℚ) ^ (x.exponent + 53) ≤ 2 ^ (1075 : Int) :=
      zpow_le_zpow_right₀ (by norm_num) (by have := fields.greatest; omega)
    have chain := low.trans_lt (under.trans (greatest.trans_lt two_zpow_lt_ten_zpow))
    have := (zpow_lt_zpow_iff_right₀ (by norm_num)).mp chain
    omega

theorem ofDecimal_eq_ofQuotient (negative : Bool) {digits : Nat} {exponent : Int}
    (some_digit : 0 < digits) (low : -400 ≤ exponent + decimalLength digits)
    (high : exponent + decimalLength digits ≤ 400) :
    ofDecimal negative digits exponent =
      ofQuotient negative (Decimal.Interval.quotient digits exponent).1
        (Decimal.Interval.quotient digits exponent).2 := by
  unfold ofDecimal Decimal.Interval.quotient
  dsimp only
  rw [if_neg (by simp; omega), if_neg (by omega)]
  split_ifs with whole
  · have none_left : (-exponent).toNat = 0 := by omega
    rw [none_left]
  · have none_left : exponent.toNat = 0 := by omega
    rw [none_left]
    simp

theorem ofDecimal_of_near {x : Binary64} (finite : x.isFinite = true)
    (unsigned : x.isNegative = false) (positive : 0 < x.significand) {digits : Nat} {exponent : Int}
    (near : x.Near (digits * 10 ^ exponent)) : ofDecimal false digits exponent = x := by
  obtain ⟨some_digit, low, high⟩ := reach_of_near finite positive near
  have num_pos : 0 < (Decimal.Interval.quotient digits exponent).1 :=
    Nat.mul_pos some_digit (Nat.pow_pos (by norm_num))
  rw [← Decimal.Interval.quotient_cast] at near
  rw [ofDecimal_eq_ofQuotient false some_digit low high]
  exact ofQuotient_of_near finite unsigned num_pos (Decimal.Interval.quotient_den_pos _ _) near

end Binary64

namespace Numeral

theorem readBinary64_point {whole fraction : List Char} (some_whole : whole ≠ [])
    (whole_digits : ∀ c ∈ whole, isDigit c = true)
    (fraction_digits : ∀ c ∈ fraction, isDigit c = true) :
    readBinary64 (whole ++ '.' :: fraction) =
      some (Binary64.ofDecimal false (Nat.ofDigitChars 10 (whole ++ fraction) 0) (-fraction.length)) := by
  have magnitude : readMagnitude false (whole ++ '.' :: fraction) =
      some (Binary64.ofDecimal false (Nat.ofDigitChars 10 (whole ++ fraction) 0) (-fraction.length)) := by
    have taken : (whole ++ '.' :: fraction).takeWhile isDigit = whole := by
      rw [List.takeWhile_append_of_pos whole_digits, List.takeWhile_cons_of_neg (by decide),
        List.append_nil]
    have dropped : (whole ++ '.' :: fraction).dropWhile isDigit = '.' :: fraction := by
      rw [List.dropWhile_append_of_pos whole_digits, List.dropWhile_cons_of_neg (by decide)]
    have all_taken : fraction.takeWhile isDigit = fraction :=
      List.takeWhile_eq_self_iff.mpr fraction_digits
    have all_dropped : fraction.dropWhile isDigit = [] :=
      List.dropWhile_eq_nil_iff.mpr fraction_digits
    have digits : readNat 10 (whole ++ fraction) = _ := readNat_eq (by simp [some_whole])
      fun c hc => (List.mem_append.mp hc).elim (whole_digits c) (fraction_digits c)
    simp only [readMagnitude, splitFraction, taken, dropped, all_taken, all_dropped, digits,
      readExponent, Option.bind_eq_bind, Option.bind_some, zero_sub]
  cases whole with
  | nil => exact absurd rfl some_whole
  | cons c rest =>
    have first := whole_digits c List.mem_cons_self
    rw [List.cons_append] at magnitude ⊢
    unfold readBinary64
    split
    · rename_i eq
      cases eq
      exact absurd first (by decide)
    · rename_i eq
      cases eq
      exact absurd first (by decide)
    · exact magnitude

end Numeral

theorem Decimal.positional_point {d : Decimal} (fraction : d.exponent < 0) :
    ∃ before after : List Char, d.positional.toList = before ++ '.' :: after ∧ before ≠ [] ∧
      after ≠ [] ∧ (∀ c ∈ before ++ after, Numeral.isDigit c = true) ∧
      (-after.length : Int) = d.exponent ∧ Nat.ofDigitChars 10 (before ++ after) 0 = d.digits := by
  have digits := Numeral.isDigit_toDigits d.digits
  have read := Nat.ofDigitChars_ten_toDigits (n := d.digits)
  have some_digit : 0 < (Nat.toDigits 10 d.digits).length := Nat.length_toDigits_pos
  unfold positional
  dsimp only
  generalize Nat.toDigits 10 d.digits = cs at *
  split_ifs with left middle
  · refine ⟨['0'], List.replicate (-((cs.length : Int) + d.exponent)).toNat '0' ++ cs, ?_, by simp,
      ?_, ?_, ?_, ?_⟩
    · simp
    · simp [List.ne_nil_of_length_pos some_digit]
    · intro c hc
      rcases List.mem_append.mp hc with zero | hc
      · rw [List.mem_singleton.mp zero]
        rfl
      · rcases List.mem_append.mp hc with zero | hc
        · rw [List.eq_of_mem_replicate zero]
          rfl
        · exact digits c hc
    · rw [List.length_append, List.length_replicate]
      omega
    · rw [List.singleton_append, Nat.ofDigitChars_cons, Nat.ofDigitChars_append,
        Nat.ofDigitChars_replicate_zero]
      simpa using read
  · omega
  · refine ⟨cs.take ((cs.length : Int) + d.exponent).toNat,
      cs.drop ((cs.length : Int) + d.exponent).toNat, ?_, ?_, ?_, ?_, ?_, ?_⟩
    · simp
    · intro empty
      have := congrArg List.length empty
      rw [List.length_take, List.length_nil] at this
      omega
    · intro empty
      have := congrArg List.length empty
      rw [List.length_drop, List.length_nil] at this
      omega
    · rw [List.take_append_drop]
      exact digits
    · rw [List.length_drop]
      omega
    · rw [List.take_append_drop]
      exact read

namespace Binary64

theorem exponent_neg_of_near {x : Binary64} (fraction : x.isIntegral = false) {digits : Nat}
    {exponent : Int} (near : x.Near (digits * 10 ^ exponent)) : exponent < 0 := by
  unfold isIntegral at fraction
  split_ifs at fraction with whole
  have not_multiple := of_decide_eq_false fraction
  by_contra nonneg
  obtain ⟨k, rfl⟩ := Int.eq_ofNat_of_zero_le (not_lt.mp nonneg)
  obtain ⟨places, hplaces⟩ := Int.eq_ofNat_of_zero_le (by omega : 0 ≤ -x.exponent)
  have exponent_eq : x.exponent = -(places : Int) := by omega
  have units : (digits : ℚ) * 10 ^ (k : Int) / 2 ^ x.exponent =
      (digits * 10 ^ k * 2 ^ places : Nat) := by
    rw [exponent_eq, zpow_neg, div_inv_eq_mul, zpow_natCast, zpow_natCast]
    push_cast
    ring
  have low := near.low
  have high := near.high
  have half := (lower_bounds x).2
  rw [units] at low high
  have less : (x.significand : ℚ) < (digits * 10 ^ k * 2 ^ places : Nat) + 1 := by linarith
  have greater : ((digits * 10 ^ k * 2 ^ places : Nat) : ℚ) < x.significand + 1 := by linarith
  have same : x.significand = digits * 10 ^ k * 2 ^ places := by
    have below : x.significand < digits * 10 ^ k * 2 ^ places + 1 := by exact_mod_cast less
    have above : digits * 10 ^ k * 2 ^ places < x.significand + 1 := by exact_mod_cast greater
    omega
  apply not_multiple
  rw [same, hplaces]
  exact Nat.mul_mod_left _ _

theorem wholePart_cast {x : Binary64} (integral : x.isIntegral = true) :
    (x.wholePart : ℚ) = x.significand * 2 ^ x.exponent := by
  have power := zpow_eq_quotient 2 (by norm_num) x.exponent
  rw [Nat.cast_ofNat] at power
  unfold isIntegral wholePart at *
  split_ifs at integral ⊢ with whole
  · have none_left : (-x.exponent).toNat = 0 := by omega
    rw [power, none_left]
    simp
  · have none_left : x.exponent.toNat = 0 := by omega
    have multiple := Nat.dvd_of_mod_eq_zero (of_decide_eq_true integral)
    have nonzero : ((Nat.pow 2 (-x.exponent).toNat : Nat) : ℚ) ≠ 0 := by
      exact_mod_cast (Nat.pow_pos (by norm_num)).ne'
    rw [power, none_left, Nat.cast_div multiple nonzero]
    simp [div_eq_mul_inv]

theorem near_self {x : Binary64} : x.Near (x.significand * 2 ^ x.exponent) := by
  have half := (lower_bounds x).1
  have units : (x.significand : ℚ) * 2 ^ x.exponent / 2 ^ x.exponent = x.significand :=
    mul_div_cancel_right₀ _ (two_zpow_pos _).ne'
  refine Decimal.Interval.near_of_between ?_ ?_ <;> rw [units] <;> linarith

theorem isNaN_of_isFinite {x : Binary64} (finite : x.isFinite = true) : x.isNaN = false := by
  have less := of_decide_eq_true finite
  exact decide_eq_false (by omega)

theorem spelled_integral {x : Binary64} (finite : x.isFinite = true)
    (unsigned : x.isNegative = false) (integral : x.isIntegral = true) :
    x.Spelled (Nat.toDigits 10 x.wholePart) ['0'] where
  text := by
    simp [text, isNaN_of_isFinite finite, finite, integral, signText, unsigned]
  some_whole := Nat.toDigits_ne_nil
  some_fraction := by simp
  whole_digits := Numeral.isDigit_toDigits _
  fraction_digits := by simp; rfl
  read := by
    rw [Numeral.readBinary64_point Nat.toDigits_ne_nil (Numeral.isDigit_toDigits _) (by simp; rfl)]
    rw [Nat.ofDigitChars_append, Nat.ofDigitChars_ten_toDigits]
    congr 1
    rcases Nat.eq_zero_or_pos x.significand with none_set | positive
    · have whole : x.wholePart = 0 := by
        have cast := wholePart_cast integral
        rw [none_set, Nat.cast_zero, zero_mul] at cast
        exact_mod_cast cast
      rw [whole]
      exact zero_of_significand finite unsigned none_set
    · refine ofDecimal_of_near finite unsigned positive ?_
      have value : ((Nat.ofDigitChars 10 ['0'] x.wholePart : Nat) : ℚ) * 10 ^ (-1 : Int) =
          x.significand * 2 ^ x.exponent := by
        rw [← wholePart_cast integral, Nat.ofDigitChars_cons, Nat.ofDigitChars_nil]
        push_cast
        norm_num
        ring
      rw [List.length_singleton, Nat.cast_one, value]
      exact near_self

theorem spelled_fraction {x : Binary64} (finite : x.isFinite = true)
    (unsigned : x.isNegative = false) (fraction : x.isIntegral = false) :
    ∃ before after, x.Spelled before after := by
  have positive : 0 < x.significand := by
    by_contra none_set
    have zero : x.significand = 0 := Nat.eq_zero_of_not_pos none_set
    simp [isIntegral, zero] at fraction
  have near := Decimal.shortest_near finite positive .up
  have exponent_neg := exponent_neg_of_near fraction near
  obtain ⟨before, after, layout, some_before, some_after, digits, length, read⟩ :=
    Decimal.positional_point exponent_neg
  refine ⟨before, after, {
    text := ?_
    some_whole := some_before
    some_fraction := some_after
    whole_digits := fun c hc => digits c (List.mem_append_left _ hc)
    fraction_digits := fun c hc => digits c (List.mem_append_right _ hc)
    read := ?_ }⟩
  · simp [text, isNaN_of_isFinite finite, finite, fraction, signText, unsigned, layout]
  · rw [Numeral.readBinary64_point some_before (fun c hc => digits c (List.mem_append_left _ hc))
      (fun c hc => digits c (List.mem_append_right _ hc)), read, length,
      ofDecimal_of_near finite unsigned positive near]

/-- A finite number without a sign is written with digits around a point and read back from them. -/
theorem spelled {x : Binary64} (finite : x.isFinite = true) (unsigned : x.isNegative = false) :
    ∃ whole fraction, x.Spelled whole fraction := by
  cases integral : x.isIntegral with
  | true => exact ⟨_, _, spelled_integral finite unsigned integral⟩
  | false => exact spelled_fraction finite unsigned integral

end Binary64

end RuleRegistry
