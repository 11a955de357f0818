import Mathlib.Algebra.Order.Field.Power
import Mathlib.Data.Rat.Cast.Order
import Mathlib.Tactic.FieldSimp
import Mathlib.Tactic.Linarith
import Mathlib.Tactic.NormNum
import Mathlib.Tactic.Positivity
import Mathlib.Tactic.Ring
import RuleRegistry.Number.Shortest

/-!
Rounding to the nearest. A quotient is rounded to the nearest whole number under its scale. A number
stands for the reals between the middles to its neighbours, and every quotient among them is rounded
to it.
-/

namespace RuleRegistry.Binary64

theorem zpow_eq_quotient (base : Nat) (positive : 0 < base) (k : Int) :
    (base : ℚ) ^ k = (Nat.pow base k.toNat : ℚ) / (Nat.pow base (-k).toNat : ℚ) := by
  have nonzero : (base : ℚ) ≠ 0 := by exact_mod_cast positive.ne'
  rcases le_total 0 k with h | h
  · obtain ⟨n, rfl⟩ := Int.eq_ofNat_of_zero_le h
    simp
  · obtain ⟨n, hn⟩ := Int.eq_ofNat_of_zero_le (Int.neg_nonneg.mpr h)
    obtain rfl : k = -(n : Int) := by omega
    simp

/-- The whole number nearest to a quotient, of two that are as near the even one. -/
structure Rounded (t : ℚ) (r : Nat) : Prop where
  low : r - 1 / 2 ≤ t
  high : t ≤ r + 1 / 2
  tie : t = r - 1 / 2 ∨ t = r + 1 / 2 → r % 2 = 0

theorem rounded_roundQuotient (num : Nat) {den : Nat} (positive : 0 < den) :
    Rounded (num / den) (roundQuotient num den) := by
  have pos : (0 : ℚ) < den := by exact_mod_cast positive
  have small : ((num % den : Nat) : ℚ) < den := by exact_mod_cast Nat.mod_lt num positive
  have parts : (num : ℚ) = den * (num / den : Nat) + (num % den : Nat) := by
    exact_mod_cast (Nat.div_add_mod num den).symm
  have value : (num : ℚ) / den = (num / den : Nat) + (num % den : Nat) / den := by
    rw [div_eq_iff pos.ne', add_mul, div_mul_cancel₀ _ pos.ne', mul_comm, ← parts]
  have least : (0 : ℚ) ≤ (num % den : Nat) / den := by positivity
  have most : ((num % den : Nat) : ℚ) / den < 1 := (div_lt_one pos).mpr small
  unfold roundQuotient
  dsimp only
  rw [value]
  generalize num / den = q
  generalize num % den = m at *
  split_ifs with down up
  · have half : (m : ℚ) / den < 1 / 2 := by
      have cast : (2 * m : ℚ) < den := by exact_mod_cast down
      rw [div_lt_iff₀ pos]
      linarith
    exact ⟨by linarith, by linarith, fun tie => by rcases tie with eq | eq <;> linarith⟩
  · have half : 1 / 2 < (m : ℚ) / den := by
      have cast : (den : ℚ) < 2 * m := by exact_mod_cast up
      rw [lt_div_iff₀ pos]
      linarith
    refine ⟨?_, ?_, fun tie => ?_⟩
    · push_cast
      linarith
    · push_cast
      linarith
    · push_cast at tie
      rcases tie with eq | eq <;> linarith
  · have half : (m : ℚ) / den = 1 / 2 := by
      have cast : (2 * m : ℚ) = den := by exact_mod_cast le_antisymm (not_lt.mp up) (not_lt.mp down)
      rw [div_eq_iff pos.ne']
      linarith
    have even : (q + q % 2) % 2 = 0 := by omega
    rw [half]
    rcases Nat.mod_two_eq_zero_or_one q with bit | bit <;>
    · rw [bit] at even ⊢
      exact ⟨by push_cast; linarith, by push_cast; linarith, fun _ => even⟩

theorem Rounded.unique {t : ℚ} {r r' : Nat} (h : Rounded t r) (h' : Rounded t r') : r = r' := by
  have above : r ≤ r' + 1 := by
    have cast : (r : ℚ) ≤ r' + 1 := by linarith [h.low, h'.high]
    exact_mod_cast cast
  have below : r' ≤ r + 1 := by
    have cast : (r' : ℚ) ≤ r + 1 := by linarith [h'.low, h.high]
    exact_mod_cast cast
  -- The middle between two neighbours is rounded to the even one of them.
  have apart {r r' : Nat} (low : Rounded t r) (high : Rounded t r') : r' ≠ r + 1 := by
    rintro rfl
    have middle := high.low
    push_cast at middle
    have even := low.tie (.inr (le_antisymm low.high (by linarith)))
    have even' := high.tie (.inl (le_antisymm (by push_cast; linarith [low.high]) high.low))
    omega
  rcases (by omega : r = r' ∨ r = r' + 1 ∨ r' = r + 1) with same | next | next
  · exact same
  · exact absurd next (apart h' h)
  · exact absurd next (apart h h')

theorem roundQuotient_eq {num den r : Nat} (positive : 0 < den) (h : Rounded (num / den) r) :
    roundQuotient num den = r :=
  (rounded_roundQuotient num positive).unique h

theorem log2_bounds {n : Nat} (positive : 0 < n) :
    (2 : ℚ) ^ (n.log2 : Int) ≤ n ∧ (n : ℚ) < 2 ^ ((n.log2 : Int) + 1) := by
  constructor
  · have le := Nat.log2_self_le positive.ne'
    exact_mod_cast le
  · have lt := @Nat.lt_log2_self n
    exact_mod_cast lt

theorem two_zpow_pos (k : Int) : (0 : ℚ) < 2 ^ k := zpow_pos (by norm_num) k

theorem scaled_eq {α : Type} (f : Nat → Nat → α) (num den : Nat) (k : Int) :
    (if 0 ≤ k then f num (den * Nat.pow 2 k.toNat) else f (num * Nat.pow 2 (-k).toNat) den) =
      f (num * Nat.pow 2 (-k).toNat) (den * Nat.pow 2 k.toNat) := by
  split
  · have none_left : (-k).toNat = 0 := by omega
    simp [none_left]
  · have none_left : k.toNat = 0 := by omega
    simp [none_left]

theorem scaled_cast (num den : Nat) (k : Int) :
    ((num * Nat.pow 2 (-k).toNat : Nat) : ℚ) / (den * Nat.pow 2 k.toNat : Nat) =
      num / den / 2 ^ k := by
  have power := zpow_eq_quotient 2 (by norm_num) k
  have nonzero (n : Nat) : ((Nat.pow 2 n : Nat) : ℚ) ≠ 0 := by
    exact_mod_cast (Nat.pow_pos (by norm_num)).ne'
  have left := nonzero k.toNat
  have right := nonzero (-k).toNat
  rw [Nat.cast_mul, Nat.cast_mul]
  rw [Nat.cast_ofNat] at power
  rw [power]
  field_simp

/-- The quotient between powers of two, by the numbers of bits on both sides of it. -/
theorem quotient_bounds {num den : Nat} (num_pos : 0 < num) (den_pos : 0 < den) :
    (2 : ℚ) ^ ((num.log2 : Int) - den.log2 - 1) ≤ num / den ∧
      (num : ℚ) / den < 2 ^ ((num.log2 : Int) - den.log2 + 1) := by
  obtain ⟨num_low, num_high⟩ := log2_bounds num_pos
  obtain ⟨den_low, den_high⟩ := log2_bounds den_pos
  have den_real : (0 : ℚ) < den := by exact_mod_cast den_pos
  constructor
  · rw [le_div_iff₀ den_real]
    calc (2 : ℚ) ^ ((num.log2 : Int) - den.log2 - 1) * den
        ≤ 2 ^ ((num.log2 : Int) - den.log2 - 1) * 2 ^ ((den.log2 : Int) + 1) :=
          mul_le_mul_of_nonneg_left den_high.le (two_zpow_pos _).le
      _ = 2 ^ (num.log2 : Int) := by
        rw [← zpow_add₀ (by norm_num)]
        congr 1
        ring
      _ ≤ num := num_low
  · rw [div_lt_iff₀ den_real]
    calc (num : ℚ) < 2 ^ ((num.log2 : Int) + 1) := num_high
      _ = 2 ^ ((num.log2 : Int) - den.log2 + 1) * 2 ^ (den.log2 : Int) := by
        rw [← zpow_add₀ (by norm_num)]
        congr 1
        ring
      _ ≤ 2 ^ ((num.log2 : Int) - den.log2 + 1) * den :=
        mul_le_mul_of_nonneg_left den_low (two_zpow_pos _).le

/-- The whole part under a scale tells whether the quotient has a significand of fewer than 53 bits. -/
theorem whole_lt_iff {num den : Nat} (den_pos : 0 < den) (k : Int) :
    num * Nat.pow 2 (-k).toNat / (den * Nat.pow 2 k.toNat) < leadingBit ↔
      (num : ℚ) / den < 2 ^ (k + 52) := by
  have denominator : 0 < den * Nat.pow 2 k.toNat := Nat.mul_pos den_pos (Nat.pow_pos (by norm_num))
  have denominator_real : (0 : ℚ) < (den * Nat.pow 2 k.toNat : Nat) := by exact_mod_cast denominator
  have crossed : ((num * Nat.pow 2 (-k).toNat : Nat) : ℚ) / (den * Nat.pow 2 k.toNat : Nat) <
      leadingBit ↔ num * Nat.pow 2 (-k).toNat < leadingBit * (den * Nat.pow 2 k.toNat) := by
    rw [div_lt_iff₀ denominator_real]
    exact_mod_cast Iff.rfl
  have product : (leadingBit : ℚ) * 2 ^ k = 2 ^ (k + 52) := by
    rw [zpow_add₀ (by norm_num), mul_comm]
    norm_num [leadingBit]
  rw [Nat.div_lt_iff_lt_mul denominator, ← crossed, scaled_cast, div_lt_iff₀ (two_zpow_pos _), product]

/-- Without its lower bound the scale leaves the quotient a whole part of 53 bits. -/
theorem scaleOf_spec {num den : Nat} (num_pos : 0 < num) (den_pos : 0 < den) :
    ∃ k : Int, scaleOf num den = max k (-1074) ∧ (2 : ℚ) ^ (k + 52) ≤ num / den ∧
      (num : ℚ) / den < 2 ^ (k + 53) := by
  obtain ⟨low, high⟩ := quotient_bounds num_pos den_pos
  let guess : Int := (num.log2 : Int) - (den.log2 : Int) - 52
  let whole := num * Nat.pow 2 (-guess).toNat / (den * Nat.pow 2 guess.toNat)
  have scale : scaleOf num den = max (if whole < leadingBit then guess - 1 else guess) (-1074) := by
    have eq := scaled_eq (fun n d => n / d) num den guess
    unfold scaleOf
    dsimp only at eq ⊢
    rw [eq]
  have narrow : whole < leadingBit ↔ (num : ℚ) / den < 2 ^ (guess + 52) := whole_lt_iff den_pos guess
  by_cases h : whole < leadingBit
  · refine ⟨guess - 1, by rw [scale, if_pos h], ?_, ?_⟩
    · have shift : guess - 1 + 52 = (num.log2 : Int) - den.log2 - 1 := by
        simp only [guess]
        ring
      rw [shift]
      exact low
    · have shift : guess - 1 + 53 = guess + 52 := by ring
      rw [shift]
      exact narrow.mp h
  · refine ⟨guess, by rw [scale, if_neg h], ?_, ?_⟩
    · exact not_lt.mp fun less => h (narrow.mpr less)
    · have shift : guess + 53 = (num.log2 : Int) - den.log2 + 1 := by
        simp only [guess]
        ring
      rw [shift]
      exact high

structure Placed (x : Binary64) : Prop where
  narrow : x.significand < 2 * leadingBit
  least : -1074 ≤ x.exponent
  greatest : x.exponent ≤ 971
  leading : x.exponent = -1074 ∨ leadingBit ≤ x.significand
  magnitude_eq : x.magnitude = (x.exponent + 1074).toNat * leadingBit + x.significand

theorem placed {x : Binary64} (finite : x.isFinite = true) : x.Placed := by
  have bound : x.magnitude < infiniteMagnitude := of_decide_eq_true finite
  have parts := Nat.div_add_mod x.magnitude leadingBit
  by_cases small : x.magnitude < leadingBit
  · have significand_eq : x.significand = x.magnitude := if_pos small
    have exponent_eq : x.exponent = -1074 := if_pos small
    exact {
      narrow := by rw [significand_eq]; omega
      least := by rw [exponent_eq]
      greatest := by rw [exponent_eq]; decide
      leading := .inl exponent_eq
      magnitude_eq := by rw [significand_eq, exponent_eq]; simp }
  · have significand_eq : x.significand = leadingBit + x.magnitude % leadingBit := if_neg small
    have exponent_eq : x.exponent = (x.magnitude / leadingBit : Nat) - 1075 := if_neg small
    unfold infiniteMagnitude leadingBit at *
    exact {
      narrow := by unfold leadingBit; omega
      least := by omega
      greatest := by omega
      leading := .inr (by unfold leadingBit; omega)
      magnitude_eq := by unfold leadingBit; omega }

theorem ofMagnitude_magnitude {x : Binary64} (unsigned : x.isNegative = false) :
    ofMagnitude false x.magnitude = x := by
  have small : x.bits.toNat < signBit := by simpa [isNegative] using unsigned
  obtain ⟨bits⟩ := x
  simp only [ofMagnitude, magnitude, Bool.false_eq_true, if_false] at small ⊢
  rw [Nat.mod_eq_of_lt small, UInt64.ofNat_toNat]

/-- The distance to the middle below, in units of the last place. Below a power of two the numbers
lie twice as close. -/
def lower (x : Binary64) : ℚ :=
  if x.significand = leadingBit ∧ -1074 < x.exponent then 1 / 4 else 1 / 2

theorem lower_bounds (x : Binary64) : 1 / 4 ≤ x.lower ∧ x.lower ≤ 1 / 2 := by
  unfold lower
  split_ifs <;> norm_num

/-- The quotient lies between the middles to the neighbours, in units of the last place. A middle
belongs to the number with the even significand. -/
structure Near (x : Binary64) (q : ℚ) : Prop where
  low : x.significand - x.lower ≤ q / 2 ^ x.exponent
  high : q / 2 ^ x.exponent ≤ x.significand + 1 / 2
  tie : q / 2 ^ x.exponent = x.significand - x.lower ∨
    q / 2 ^ x.exponent = x.significand + 1 / 2 → x.significand % 2 = 0

theorem Near.lt {x : Binary64} {q : ℚ} (near : x.Near q) (finite : x.isFinite = true) :
    q < 2 ^ (x.exponent + 53) := by
  have narrow : (x.significand : ℚ) + 1 ≤ 2 ^ 53 := by
    have bound := (placed finite).narrow
    unfold leadingBit at bound
    exact_mod_cast bound
  rw [add_comm, zpow_add₀ (by norm_num), ← div_lt_iff₀ (two_zpow_pos _)]
  have high := near.high
  have power : (2 : ℚ) ^ (53 : Int) = 2 ^ 53 := by norm_num
  linarith

theorem Near.pos {x : Binary64} {q : ℚ} (near : x.Near q) (positive : 0 < x.significand) :
    2 ^ (x.exponent - 1) ≤ q := by
  have least : (1 : ℚ) ≤ x.significand := by exact_mod_cast positive
  rw [sub_eq_add_neg, add_comm, zpow_add₀ (by norm_num), ← le_div_iff₀ (two_zpow_pos _)]
  have low := near.low
  have half := (lower_bounds x).2
  have power : (2 : ℚ) ^ (-1 : Int) = 1 / 2 := by norm_num
  linarith

/-- A quotient near a number has the number's scale, or the one below under a power of two. -/
theorem scaleOf_of_near {x : Binary64} (finite : x.isFinite = true) {num den : Nat}
    (num_pos : 0 < num) (den_pos : 0 < den) (near : x.Near (num / den)) :
    scaleOf num den = x.exponent ∨ scaleOf num den = x.exponent - 1 ∧ -1074 < x.exponent ∧
      x.significand = leadingBit ∧ (num : ℚ) / den < 2 ^ (x.exponent + 52) := by
  obtain ⟨k, scale, least, less⟩ := scaleOf_spec num_pos den_pos
  have fields := placed finite
  have above : k ≤ x.exponent := by
    have lt := (zpow_lt_zpow_iff_right₀ (by norm_num)).mp (least.trans_lt (near.lt finite))
    omega
  rcases fields.leading with subnormal | leading
  · left
    omega
  have normal : (2 : ℚ) ^ 52 ≤ x.significand := by
    unfold leadingBit at leading
    exact_mod_cast leading
  have low := near.low
  have half := (lower_bounds x).2
  have below : x.exponent ≤ k + 1 := by
    have lt : (2 : ℚ) ^ (x.exponent + 51) < 2 ^ (k + 53) := by
      refine lt_of_le_of_lt ?_ less
      rw [add_comm, zpow_add₀ (by norm_num), ← le_div_iff₀ (two_zpow_pos _)]
      have power : (2 : ℚ) ^ (51 : Int) = 2 ^ 51 := by norm_num
      linarith
    have := (zpow_lt_zpow_iff_right₀ (by norm_num)).mp lt
    omega
  rcases (by omega : k = x.exponent ∨ k = x.exponent - 1) with same | one_less
  · left
    have := fields.least
    omega
  by_cases boundary : x.exponent = -1074
  · left
    omega
  have lt : (num : ℚ) / den < 2 ^ (x.exponent + 52) := by
    have shift : x.exponent + 52 = k + 53 := by omega
    rw [shift]
    exact less
  refine .inr ⟨by have := fields.least; omega, by have := fields.least; omega, ?_, lt⟩
  rw [add_comm, zpow_add₀ (by norm_num), ← div_lt_iff₀ (two_zpow_pos _)] at lt
  have power : (2 : ℚ) ^ (52 : Int) = 2 ^ 52 := by norm_num
  have under : (x.significand : ℚ) < 2 ^ 52 + 1 := by linarith
  have small : x.significand < 2 ^ 52 + 1 := by exact_mod_cast under
  unfold leadingBit at leading ⊢
  omega

/-- A quotient that rounds to a significand under its scale gives the number with both. -/
theorem ofQuotient_of_rounded {x : Binary64} (finite : x.isFinite = true)
    (unsigned : x.isNegative = false) {num den r : Nat} {k : Int} (num_pos : 0 < num)
    (den_pos : 0 < den) (rounded : Rounded (num / den / 2 ^ k) r) (scale : scaleOf num den = k)
    (total : (k + 1074).toNat * leadingBit + r = x.magnitude) : ofQuotient false num den = x := by
  have bound : x.magnitude < infiniteMagnitude := of_decide_eq_true finite
  have denominator : 0 < den * Nat.pow 2 k.toNat := Nat.mul_pos den_pos (Nat.pow_pos (by norm_num))
  rw [← scaled_cast] at rounded
  have rounding := roundQuotient_eq denominator rounded
  unfold ofQuotient
  rw [if_neg num_pos.ne']
  dsimp only
  rw [scaled_eq roundQuotient, scale, rounding, total, Nat.min_eq_left bound.le,
    ofMagnitude_magnitude unsigned]

theorem ofQuotient_of_near {x : Binary64} (finite : x.isFinite = true)
    (unsigned : x.isNegative = false) {num den : Nat} (num_pos : 0 < num) (den_pos : 0 < den)
    (near : x.Near (num / den)) : ofQuotient false num den = x := by
  have fields := placed finite
  have half := (lower_bounds x).2
  have low := near.low
  rcases scaleOf_of_near finite num_pos den_pos near with scale | ⟨scale, normal, leading, less⟩
  · have rounded : Rounded (num / den / 2 ^ x.exponent) x.significand := by
      refine ⟨by linarith, near.high, ?_⟩
      rintro (middle | middle)
      · exact near.tie (.inl (le_antisymm (by linarith) low))
      · exact near.tie (.inr middle)
    exact ofQuotient_of_rounded finite unsigned num_pos den_pos rounded scale fields.magnitude_eq.symm
  · -- Under a power of two the quotient is rounded on the finer grid, up to the power.
    have quarter : x.lower = 1 / 4 := by rw [lower, if_pos ⟨leading, normal⟩]
    have twice : (num : ℚ) / den / 2 ^ (x.exponent - 1) = 2 * (num / den / 2 ^ x.exponent) := by
      rw [zpow_sub₀ (by norm_num)]
      field_simp
    have upper : (num : ℚ) / den / 2 ^ x.exponent < leadingBit := by
      rw [div_lt_iff₀ (two_zpow_pos _)]
      rw [add_comm, zpow_add₀ (by norm_num)] at less
      norm_num [leadingBit] at less ⊢
      exact less
    rw [leading, quarter] at low
    have rounded : Rounded (num / den / 2 ^ (x.exponent - 1)) (2 * leadingBit) := by
      rw [twice]
      refine ⟨?_, ?_, fun _ => by simp⟩
      · push_cast
        linarith
      · push_cast
        linarith
    refine ofQuotient_of_rounded finite unsigned num_pos den_pos rounded scale ?_
    have total := fields.magnitude_eq
    unfold leadingBit at leading total ⊢
    omega

end RuleRegistry.Binary64
