import RuleRegistry.Proofs.DecimalText

namespace RuleRegistry.Binary64

/-- The middle between the greatest finite number and the power of two above it. -/
def overflowBound : ℚ := 2 ^ (1024 : Int) - 2 ^ (970 : Int)

/-- The number that stands for a quotient. -/
inductive RoundsTo (q : ℚ) : Binary64 → Prop
  | nearest {x : Binary64} (below : q < overflowBound) (finite : x.isFinite = true)
      (unsigned : x.isNegative = false) (near : x.Near q) : RoundsTo q x
  | infinite (beyond : overflowBound ≤ q) : RoundsTo q (infinity false)

theorem overflowBound_eq : overflowBound = (2 ^ 53 - 1 / 2) * 2 ^ (971 : Int) := by
  have top : (2 : ℚ) ^ (1024 : Int) = 2 ^ 53 * 2 ^ (971 : Int) := by
    rw [← zpow_natCast, ← zpow_add₀ (by norm_num)]
    norm_num
  have half : (2 : ℚ) ^ (970 : Int) = 1 / 2 * 2 ^ (971 : Int) := by
    rw [show (971 : Int) = 970 + 1 from rfl, zpow_add₀ (by norm_num)]
    ring
  rw [overflowBound, top, half]
  ring

theorem Near.below {x : Binary64} {q : ℚ} (near : x.Near q) (finite : x.isFinite = true) :
    q < overflowBound := by
  have fields := placed finite
  have narrow := fields.narrow
  unfold leadingBit at narrow
  have step := two_zpow_pos x.exponent
  have units : q / 2 ^ x.exponent < 2 ^ 53 - 1 / 2 := by
    rcases near.high.lt_or_eq with less | middle
    · have most : (x.significand : ℚ) ≤ 2 ^ 53 - 1 := by
        have cast : (x.significand : ℚ) + 1 ≤ 2 ^ 53 := by exact_mod_cast narrow
        linarith
      linarith
    · -- A middle belongs to an even significand, and the greatest is odd.
      have even := near.tie (.inr middle)
      have most : (x.significand : ℚ) ≤ 2 ^ 53 - 2 := by
        have cast : (x.significand : ℚ) + 2 ≤ 2 ^ 53 := by exact_mod_cast (by omega)
        linarith
      linarith
  calc q = q / 2 ^ x.exponent * 2 ^ x.exponent := (div_mul_cancel₀ _ step.ne').symm
    _ < (2 ^ 53 - 1 / 2) * 2 ^ x.exponent := mul_lt_mul_of_pos_right units step
    _ ≤ (2 ^ 53 - 1 / 2) * 2 ^ (971 : Int) :=
      mul_le_mul_of_nonneg_left (zpow_le_zpow_right₀ (by norm_num) fields.greatest) (by norm_num)
    _ = overflowBound := overflowBound_eq.symm

theorem isFinite_ofMagnitude {m : Nat} (h : m < infiniteMagnitude) :
    (ofMagnitude false m).isFinite = true := by
  rw [isFinite, magnitude_ofMagnitude (h.trans (by decide)) false]
  exact decide_eq_true h

/-- A scale and a significand under it make the number that has both. -/
theorem fields_ofMagnitude {s : Int} {r : Nat} (least : -1074 ≤ s) (narrow : r < 2 * leadingBit)
    (leading : s = -1074 ∨ leadingBit ≤ r)
    (finite : (s + 1074).toNat * leadingBit + r < infiniteMagnitude) :
    (ofMagnitude false ((s + 1074).toNat * leadingBit + r)).significand = r ∧
      (ofMagnitude false ((s + 1074).toNat * leadingBit + r)).exponent = s := by
  have magnitude_eq := magnitude_ofMagnitude (finite.trans (by decide)) false
  unfold significand exponent
  rw [magnitude_eq]
  unfold leadingBit at *
  split_ifs with small
  · omega
  · constructor
    · omega
    · have whole : ((s + 1074).toNat * 4503599627370496 + r) / 4503599627370496 = (s + 1075).toNat := by
        omega
      rw [whole, Int.ofNat_eq_natCast]
      omega

/-- A quotient with its scale and the significand it is rounded to under the scale. -/
structure Scaled (q : ℚ) (s : Int) (r : Nat) : Prop where
  least : -1074 ≤ s
  less : q / 2 ^ s < 2 ^ 53
  leading : s = -1074 ∨ (leadingBit : ℚ) ≤ q / 2 ^ s
  rounded : Rounded (q / 2 ^ s) r

namespace Scaled

variable {q : ℚ} {s : Int} {r : Nat} (scaled : Scaled q s r)

include scaled

theorem narrow : r ≤ 2 * leadingBit := by
  have cast : (r : ℚ) < 2 ^ 53 + 1 := by linarith [scaled.rounded.low, scaled.less]
  have bound : r < 2 ^ 53 + 1 := by exact_mod_cast cast
  unfold leadingBit
  omega

theorem leading_bit : s = -1074 ∨ leadingBit ≤ r := by
  refine scaled.leading.imp_right fun above => ?_
  have cast : (leadingBit : ℚ) < r + 1 := by linarith [scaled.rounded.high]
  have bound : leadingBit < r + 1 := by exact_mod_cast cast
  omega

/-- The significand fits under the scale. -/
theorem near_of_fits (fits : r < 2 * leadingBit)
    (finite : (s + 1074).toNat * leadingBit + r < infiniteMagnitude) :
    (ofMagnitude false ((s + 1074).toNat * leadingBit + r)).Near q := by
  obtain ⟨significand_eq, exponent_eq⟩ :=
    fields_ofMagnitude scaled.least fits scaled.leading_bit finite
  generalize ofMagnitude false ((s + 1074).toNat * leadingBit + r) = x at *
  subst significand_eq exponent_eq
  by_cases power : x.significand = leadingBit ∧ -1074 < x.exponent
  · -- No quotient under this scale lies below the power of two.
    have quarter : x.lower = 1 / 4 := if_pos power
    have above : (x.significand : ℚ) ≤ q / 2 ^ x.exponent := by
      rw [power.1]
      exact scaled.leading.resolve_left power.2.ne'
    have even : x.significand % 2 = 0 := by
      rw [power.1]
      decide
    constructor
    · rw [quarter]
      linarith
    · exact scaled.rounded.high
    · exact fun _ => even
  · have half : x.lower = 1 / 2 := if_neg power
    constructor
    · rw [half]
      exact scaled.rounded.low
    · exact scaled.rounded.high
    · rw [half]
      exact scaled.rounded.tie

/-- The significand is rounded up to the next power of two, which stands under the next scale. -/
theorem near_of_carry (carry : r = 2 * leadingBit)
    (finite : (s + 1074).toNat * leadingBit + r < infiniteMagnitude) :
    (ofMagnitude false ((s + 1074).toNat * leadingBit + r)).Near q := by
  have total : (s + 1074).toNat * leadingBit + r = (s + 1 + 1074).toNat * leadingBit + leadingBit := by
    have least := scaled.least
    unfold leadingBit at carry ⊢
    omega
  have low := scaled.rounded.low
  have less := scaled.less
  rw [carry, Nat.cast_mul] at low
  have halved : q / 2 ^ (s + 1) = q / 2 ^ s / 2 := by
    rw [zpow_add₀ (by norm_num), zpow_one, div_div]
  rw [total] at finite ⊢
  have least : -1074 < s + 1 := by
    have := scaled.least
    omega
  obtain ⟨significand_eq, exponent_eq⟩ :=
    fields_ofMagnitude least.le (by decide) (.inr le_rfl) finite
  generalize ofMagnitude false ((s + 1 + 1074).toNat * leadingBit + leadingBit) = x at *
  have quarter : x.lower = 1 / 4 := by
    rw [lower, significand_eq, exponent_eq, if_pos ⟨rfl, least⟩]
  constructor
  · rw [significand_eq, exponent_eq, quarter, halved]
    push_cast at low
    linarith
  · rw [significand_eq, exponent_eq, halved]
    norm_num [leadingBit]
    linarith
  · rw [significand_eq]
    exact fun _ => by decide

theorem beyond (far : infiniteMagnitude ≤ (s + 1074).toNat * leadingBit + r) : overflowBound ≤ q := by
  have narrow := scaled.narrow
  have step := two_zpow_pos s
  have units : q = q / 2 ^ s * 2 ^ s := (div_mul_cancel₀ _ step.ne').symm
  rw [overflowBound_eq, units]
  by_cases last : s = 971
  · -- Under the last scale only a carry is too great.
    have carry : r = 2 * leadingBit := by
      unfold infiniteMagnitude leadingBit at *
      omega
    have middle : (2 ^ 53 - 1 / 2 : ℚ) ≤ q / 2 ^ s := by
      have low := scaled.rounded.low
      rw [carry] at low
      norm_num [leadingBit] at low ⊢
      exact low
    rw [last] at middle ⊢
    exact mul_le_mul_of_nonneg_right middle (two_zpow_pos _).le
  · have beyond : 972 ≤ s := by
      unfold infiniteMagnitude leadingBit at *
      omega
    have above := scaled.leading.resolve_left (by omega)
    calc (2 ^ 53 - 1 / 2) * (2 : ℚ) ^ (971 : Int)
      _ ≤ leadingBit * 2 ^ (972 : Int) := by
        rw [show (972 : Int) = 1 + 971 from rfl, zpow_add₀ (by norm_num), ← mul_assoc]
        exact mul_le_mul_of_nonneg_right (by norm_num [leadingBit]) (two_zpow_pos _).le
      _ ≤ leadingBit * 2 ^ s :=
        mul_le_mul_of_nonneg_left (zpow_le_zpow_right₀ (by norm_num) beyond) (by positivity)
      _ ≤ q / 2 ^ s * 2 ^ s := mul_le_mul_of_nonneg_right above step.le

theorem roundsTo :
    RoundsTo q (ofMagnitude false (min ((s + 1074).toNat * leadingBit + r) infiniteMagnitude)) := by
  by_cases finite : (s + 1074).toNat * leadingBit + r < infiniteMagnitude
  · have near : (ofMagnitude false ((s + 1074).toNat * leadingBit + r)).Near q := by
      rcases scaled.narrow.lt_or_eq with fits | carry
      · exact scaled.near_of_fits fits finite
      · exact scaled.near_of_carry carry finite
    have is_finite := isFinite_ofMagnitude finite
    have unsigned := ofMagnitude_unsigned (finite.trans (by decide))
    rw [Nat.min_eq_left finite.le]
    exact .nearest (near.below is_finite) is_finite unsigned near
  · have far := not_lt.mp finite
    rw [Nat.min_eq_right far]
    exact .infinite (scaled.beyond far)

end Scaled

theorem scaled_scaleOf {num den : Nat} (num_pos : 0 < num) (den_pos : 0 < den) :
    Scaled (num / den) (scaleOf num den) (roundQuotient
      (num * Nat.pow 2 (-(scaleOf num den)).toNat) (den * Nat.pow 2 (scaleOf num den).toNat)) := by
  obtain ⟨k, scale, low, high⟩ := scaleOf_spec num_pos den_pos
  have denominator : 0 < den * Nat.pow 2 (scaleOf num den).toNat :=
    Nat.mul_pos den_pos (Nat.pow_pos (by norm_num))
  have rounded := rounded_roundQuotient (num * Nat.pow 2 (-(scaleOf num den)).toNat) denominator
  rw [scaled_cast] at rounded
  refine ⟨by omega, ?_, ?_, rounded⟩
  · rw [div_lt_iff₀ (two_zpow_pos _), ← zpow_natCast, ← zpow_add₀ (by norm_num)]
    exact high.trans_le (zpow_le_zpow_right₀ (by norm_num) (by push_cast; omega))
  · rcases (by omega : scaleOf num den = -1074 ∨ scaleOf num den = k) with same | same
    · exact .inl same
    · right
      rw [le_div_iff₀ (two_zpow_pos _), same]
      rw [add_comm, zpow_add₀ (by norm_num)] at low
      norm_num [leadingBit] at low ⊢
      exact low

theorem roundsTo_zero {q : ℚ} (nonneg : 0 ≤ q) (small : q ≤ 2 ^ (-1075 : Int)) :
    RoundsTo q (zero false) := by
  have finite : (zero false).isFinite = true := by decide
  have significand_eq : (zero false).significand = 0 := by decide
  have exponent_eq : (zero false).exponent = -1074 := by decide
  have lower_pos : 0 ≤ (zero false).lower := le_trans (by norm_num) (lower_bounds _).1
  have unit : (2 : ℚ) ^ (-1075 : Int) = 1 / 2 * 2 ^ (-1074 : Int) := by
    rw [show (-1074 : Int) = 1 + -1075 from rfl, zpow_add₀ (by norm_num), ← mul_assoc]
    norm_num
  have near : (zero false).Near q := by
    constructor
    · rw [significand_eq, Nat.cast_zero, zero_sub]
      exact (neg_nonpos.mpr lower_pos).trans (div_nonneg nonneg (two_zpow_pos _).le)
    · rw [significand_eq, exponent_eq, div_le_iff₀ (two_zpow_pos _), Nat.cast_zero, zero_add, ← unit]
      exact small
    · rw [significand_eq]
      exact fun _ => rfl
  exact .nearest (near.below finite) finite (by decide) near

/-- Every quotient is rounded to the nearest number, or to infinity from the middle above the
greatest on. -/
theorem roundsTo_ofQuotient (num : Nat) {den : Nat} (den_pos : 0 < den) :
    RoundsTo (num / den) (ofQuotient false num den) := by
  rcases Nat.eq_zero_or_pos num with rfl | num_pos
  · have zero_eq : ofQuotient false 0 den = zero false := if_pos rfl
    rw [zero_eq, Nat.cast_zero, zero_div]
    exact roundsTo_zero le_rfl (two_zpow_pos _).le
  · have rounded := (scaled_scaleOf num_pos den_pos).roundsTo
    unfold ofQuotient
    rw [if_neg num_pos.ne']
    dsimp only
    rw [scaled_eq roundQuotient]
    exact rounded

theorem overflowBound_le : overflowBound ≤ 10 ^ (400 : Int) := by
  have less : (2 : ℚ) ^ (1024 : Int) ≤ 2 ^ (1075 : Int) :=
    zpow_le_zpow_right₀ (by norm_num) (by decide)
  calc overflowBound ≤ 2 ^ (1024 : Int) := sub_le_self _ (two_zpow_pos 970).le
    _ ≤ 10 ^ (400 : Int) := (less.trans_lt two_zpow_lt_ten_zpow).le

/-- Every decimal is rounded so, also the ones far outside the range, which need no arithmetic. -/
theorem roundsTo_ofDecimal (digits : Nat) (exponent : Int) :
    RoundsTo (digits * 10 ^ exponent) (ofDecimal false digits exponent) := by
  rcases Nat.eq_zero_or_pos digits with rfl | some_digit
  · have zero_eq : ofDecimal false 0 exponent = zero false := by simp [ofDecimal]
    rw [zero_eq, Nat.cast_zero, zero_mul]
    exact roundsTo_zero le_rfl (two_zpow_pos _).le
  obtain ⟨low, high⟩ := decimal_bounds some_digit exponent
  by_cases tiny : exponent + decimalLength digits < -400
  · have zero_eq : ofDecimal false digits exponent = zero false := by simp [ofDecimal, tiny]
    have power : (10 : ℚ) ^ (exponent + decimalLength digits) ≤ 10 ^ (-400 : Int) :=
      zpow_le_zpow_right₀ (by norm_num) tiny.le
    rw [zero_eq]
    exact roundsTo_zero (by positivity) (high.le.trans (power.trans ten_zpow_lt_two_zpow.le))
  by_cases huge : 400 < exponent + decimalLength digits
  · have infinity_eq : ofDecimal false digits exponent = infinity false := by
      simp [ofDecimal, some_digit.ne', tiny, huge]
    have power : (10 : ℚ) ^ (400 : Int) ≤ 10 ^ (exponent + decimalLength digits - 1) :=
      zpow_le_zpow_right₀ (by norm_num) (by omega)
    rw [infinity_eq]
    exact .infinite (overflowBound_le.trans (power.trans low))
  · rw [ofDecimal_eq_ofQuotient false some_digit (not_lt.mp tiny) (not_lt.mp huge),
      ← Decimal.Interval.quotient_cast]
    exact roundsTo_ofQuotient _ (Decimal.Interval.quotient_den_pos _ _)

end RuleRegistry.Binary64
