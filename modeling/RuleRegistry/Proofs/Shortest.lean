import Mathlib.Data.Nat.Cast.Order.Field
import RuleRegistry.Proofs.Rounding

namespace RuleRegistry

namespace Binary64

theorem lt_pow_decimalLength (n : Nat) : n < 10 ^ decimalLength n := by
  unfold decimalLength
  split_ifs with zero
  · omega
  · exact (Nat.length_toDigits_le_iff (by norm_num) Nat.length_toDigits_pos).mp le_rfl

theorem pow_decimalLength_le {n : Nat} (positive : 0 < n) : 10 ^ (decimalLength n - 1) ≤ n := by
  rw [decimalLength, if_neg positive.ne']
  rcases Nat.eq_zero_or_pos ((Nat.toDigits 10 n).length - 1) with single | several
  · rw [single, pow_zero]
    exact positive
  · by_contra less
    have short := (Nat.length_toDigits_le_iff (b := 10) (by norm_num) several).mpr (not_le.mp less)
    omega

theorem decimalLength_bounds {n : Nat} (positive : 0 < n) :
    (10 : ℚ) ^ ((decimalLength n : Int) - 1) ≤ n ∧ (n : ℚ) < 10 ^ (decimalLength n : Int) := by
  constructor
  · have low := pow_decimalLength_le positive
    have some_digit : 0 < decimalLength n := by
      by_contra none_left
      have less := lt_pow_decimalLength n
      rw [Nat.eq_zero_of_not_pos none_left] at less
      omega
    have power : ((decimalLength n : Int) - 1) = ((decimalLength n - 1 : Nat) : Int) := by omega
    rw [power, zpow_natCast]
    exact_mod_cast low
  · rw [zpow_natCast]
    exact_mod_cast lt_pow_decimalLength n

/-- A decimal between powers of ten, by the place of its first digit. -/
theorem decimal_bounds {digits : Nat} (positive : 0 < digits) (exponent : Int) :
    (10 : ℚ) ^ (exponent + decimalLength digits - 1) ≤ digits * 10 ^ exponent ∧
      (digits : ℚ) * 10 ^ exponent < 10 ^ (exponent + decimalLength digits) := by
  obtain ⟨low, high⟩ := decimalLength_bounds positive
  have step : (0 : ℚ) < 10 ^ exponent := zpow_pos (by norm_num) _
  constructor
  · rw [add_sub_assoc, add_comm, zpow_add₀ (by norm_num)]
    exact mul_le_mul_of_nonneg_right low step.le
  · rw [add_comm, zpow_add₀ (by norm_num)]
    exact mul_lt_mul_of_pos_right high step

end Binary64

namespace Decimal

def value (d : Decimal) : ℚ := d.digits * 10 ^ d.exponent

theorem value_strip (fuel : Nat) (d : Decimal) : (strip fuel d).value = d.value := by
  induction fuel generalizing d with
  | zero => rfl
  | succ fuel ih =>
    rw [strip]
    split_ifs with zeros
    · rw [ih]
      have whole : d.digits = 10 * (d.digits / 10) := by omega
      have cast : (d.digits : ℚ) = 10 * (d.digits / 10 : Nat) := by exact_mod_cast whole
      simp only [value]
      rw [cast, zpow_add₀ (by norm_num), zpow_one]
      ring
    · rfl

namespace Interval

theorem quotient_den_pos (digits : Nat) (exponent : Int) : 0 < (quotient digits exponent).2 :=
  Nat.pow_pos (by norm_num)

theorem quotient_cast (digits : Nat) (exponent : Int) :
    ((quotient digits exponent).1 : ℚ) / (quotient digits exponent).2 = digits * 10 ^ exponent := by
  have power := Binary64.zpow_eq_quotient 10 (by norm_num) exponent
  simp only [quotient, Nat.cast_mul, Nat.cast_ofNat] at power ⊢
  rw [power]
  ring

section

variable (x : Binary64)

theorem den_pos : 0 < (Interval.of x).den :=
  Nat.mul_pos (by norm_num) (Nat.pow_pos (by norm_num))

theorem bound_cast (n : Nat) :
    ((n * Nat.pow 2 x.exponent.toNat : Nat) : ℚ) / (Interval.of x).den =
      n / 4 * 2 ^ x.exponent := by
  have power := Binary64.zpow_eq_quotient 2 (by norm_num) x.exponent
  simp only [Interval.of, Nat.cast_mul, Nat.cast_ofNat] at power ⊢
  rw [power]
  ring

theorem value_cast :
    ((Interval.of x).value : ℚ) / (Interval.of x).den = x.significand * 2 ^ x.exponent := by
  have cast := bound_cast x (4 * x.significand)
  rw [show (Interval.of x).value = 4 * x.significand * Nat.pow 2 x.exponent.toNat from rfl, cast]
  push_cast
  ring

theorem high_cast :
    ((Interval.of x).high : ℚ) / (Interval.of x).den = (x.significand + 1 / 2) * 2 ^ x.exponent := by
  have cast := bound_cast x (4 * x.significand + 2)
  rw [show (Interval.of x).high = (4 * x.significand + 2) * Nat.pow 2 x.exponent.toNat from rfl, cast]
  push_cast
  ring

theorem low_cast (positive : 0 < x.significand) :
    ((Interval.of x).low : ℚ) / (Interval.of x).den =
      (x.significand - x.lower) * 2 ^ x.exponent := by
  have cast := bound_cast x (4 * x.significand -
    if x.significand = Binary64.leadingBit ∧ -1074 < x.exponent then 1 else 2)
  rw [show (Interval.of x).low = (4 * x.significand -
    if x.significand = Binary64.leadingBit ∧ -1074 < x.exponent then 1 else 2) *
      Nat.pow 2 x.exponent.toNat from rfl, cast]
  unfold Binary64.lower
  split_ifs
  · rw [Nat.cast_sub (by omega)]
    push_cast
    ring
  · rw [Nat.cast_sub (by omega)]
    push_cast
    ring

end

theorem holds_iff {x : Binary64} (positive : 0 < x.significand) {num den : Nat}
    (denominator : 0 < den) : (Interval.of x).holds num den = true ↔ x.Near (num / den) := by
  have own : (0 : ℚ) < (Interval.of x).den := by exact_mod_cast den_pos x
  have other : (0 : ℚ) < den := by exact_mod_cast denominator
  have step := Binary64.two_zpow_pos x.exponent
  have below : (Interval.of x).low * den < num * (Interval.of x).den ↔
      (x.significand - x.lower : ℚ) < num / den / 2 ^ x.exponent := by
    rw [lt_div_iff₀ step, ← low_cast x positive, div_lt_div_iff₀ own other]
    exact_mod_cast Iff.rfl
  have at_low : (Interval.of x).low * den = num * (Interval.of x).den ↔
      (x.significand - x.lower : ℚ) = num / den / 2 ^ x.exponent := by
    rw [eq_div_iff step.ne', ← low_cast x positive, div_eq_div_iff own.ne' other.ne']
    exact_mod_cast Iff.rfl
  have above : num * (Interval.of x).den < (Interval.of x).high * den ↔
      num / den / 2 ^ x.exponent < (x.significand + 1 / 2 : ℚ) := by
    rw [div_lt_iff₀ step, ← high_cast x, div_lt_div_iff₀ other own]
    exact_mod_cast Iff.rfl
  have at_high : num * (Interval.of x).den = (Interval.of x).high * den ↔
      num / den / 2 ^ x.exponent = (x.significand + 1 / 2 : ℚ) := by
    rw [div_eq_iff step.ne', ← high_cast x, div_eq_div_iff other.ne' own.ne']
    exact_mod_cast Iff.rfl
  have closed : (Interval.of x).closed = true ↔ x.significand % 2 = 0 := by
    simp [Interval.of]
  simp only [holds, Bool.and_eq_true, Bool.or_eq_true, decide_eq_true_eq, beq_iff_eq, below, at_low,
    above, at_high, closed]
  constructor
  · rintro ⟨low, high⟩
    exact {
      low := low.elim le_of_lt fun ⟨_, eq⟩ => eq.le
      high := high.elim le_of_lt fun ⟨_, eq⟩ => eq.le
      tie := by
        rintro (eq | eq)
        · exact (low.resolve_left fun less => less.ne eq.symm).1
        · exact (high.resolve_left fun less => less.ne eq).1 }
  · intro near
    exact ⟨near.low.lt_or_eq.imp_right fun eq => ⟨near.tie (.inl eq.symm), eq⟩,
      near.high.lt_or_eq.imp_right fun eq => ⟨near.tie (.inr eq), eq⟩⟩

theorem near_of_between {x : Binary64} {q : ℚ} (low : x.significand - x.lower < q / 2 ^ x.exponent)
    (high : q / 2 ^ x.exponent < x.significand + 1 / 2) : x.Near q where
  low := low.le
  high := high.le
  tie := by
    rintro (eq | eq)
    · exact absurd eq low.ne'
    · exact absurd eq high.ne

theorem place_le {x : Binary64} (positive : 0 < x.significand) :
    (10 : ℚ) ^ ((Interval.of x).place - 1) ≤ x.significand * 2 ^ x.exponent := by
  have own := den_pos x
  have own_cast : (0 : ℚ) < (Interval.of x).den := by exact_mod_cast own
  have value_pos : 0 < (Interval.of x).value :=
    Nat.mul_pos (by omega) (Nat.pow_pos (by norm_num))
  rw [← value_cast x, place]
  split_ifs with whole
  · have some_whole : 0 < (Interval.of x).value / (Interval.of x).den := Nat.div_pos whole own
    exact (Binary64.decimalLength_bounds some_whole).1.trans Nat.cast_div_le
  · have less := Binary64.lt_pow_decimalLength (((Interval.of x).den - 1) / (Interval.of x).value)
    generalize Binary64.decimalLength (((Interval.of x).den - 1) / (Interval.of x).value) = length at *
    have product := (Nat.div_lt_iff_lt_mul value_pos).mp less
    have reached : (Interval.of x).den ≤ 10 ^ length * (Interval.of x).value := by omega
    have cast : ((Interval.of x).den : ℚ) ≤ 10 ^ length * (Interval.of x).value := by
      exact_mod_cast reached
    have shift : 1 - (length : Int) - 1 = -(length : Int) := by ring
    rw [shift, zpow_neg, zpow_natCast, le_div_iff₀ own_cast, inv_mul_le_iff₀ (by positivity)]
    exact cast

theorem onGrid_near {x : Binary64} (positive : 0 < x.significand) {tie : Tie} {exponent : Int}
    {d : Decimal} (h : (Interval.of x).onGrid tie exponent = some d) : x.Near d.value := by
  have near {n : Nat} (hit : (Interval.of x).holds (quotient n exponent).1
      (quotient n exponent).2 = true) : x.Near (⟨n, exponent⟩ : Decimal).value := by
    rw [holds_iff positive (quotient_den_pos _ _), quotient_cast] at hit
    exact hit
  unfold onGrid at h
  dsimp only at h
  split at h <;> rename_i below above <;> cases h
  · split_ifs
    · exact near above
    · exact near below
  · exact near below
  · exact near above

/-- The grid point before the value. -/
def pointBefore (i : Interval) (exponent : Int) : Nat :=
  i.value * (quotient 1 exponent).2 / (i.den * (quotient 1 exponent).1)

theorem onGrid_eq_none {i : Interval} {tie : Tie} {exponent : Int}
    (h : i.onGrid tie exponent = none) :
    (let q := quotient (i.pointBefore exponent) exponent; i.holds q.1 q.2) = false ∧
      (let q := quotient (i.pointBefore exponent + 1) exponent; i.holds q.1 q.2) = false := by
  unfold onGrid at h
  dsimp only at h
  split at h
  · cases h
  · cases h
  · cases h
  · rename_i before after
    exact ⟨before, after⟩

theorem pointBefore_bounds (x : Binary64) (exponent : Int) :
    ((Interval.of x).pointBefore exponent : ℚ) * 10 ^ exponent ≤ x.significand * 2 ^ x.exponent ∧
      (x.significand : ℚ) * 2 ^ x.exponent <
        ((Interval.of x).pointBefore exponent + 1) * 10 ^ exponent := by
  have step : (0 : ℚ) < 10 ^ exponent := zpow_pos (by norm_num) _
  have unit_pos : 0 < (quotient 1 exponent).1 := Nat.mul_pos one_pos (Nat.pow_pos (by norm_num))
  have product := Nat.mul_pos (den_pos x) unit_pos
  have unit_eq := quotient_cast 1 exponent
  rw [Nat.cast_one, one_mul] at unit_eq
  have ratio : (((Interval.of x).value * (quotient 1 exponent).2 : Nat) : ℚ) /
      ((Interval.of x).den * (quotient 1 exponent).1 : Nat) =
        x.significand * 2 ^ x.exponent / 10 ^ exponent := by
    rw [← unit_eq, ← value_cast x]
    push_cast
    field_simp
  constructor
  · rw [← le_div_iff₀ step, ← ratio]
    exact Nat.cast_div_le
  · rw [← div_lt_iff₀ step, ← ratio, div_lt_iff₀ (by exact_mod_cast product)]
    exact_mod_cast Nat.lt_mul_of_div_lt (Nat.lt_succ_self _) product

/-- On a grid that is fine enough one of the points around the value is near the number. -/
theorem near_pointBefore {x : Binary64} (finite : x.isFinite = true) {exponent : Int}
    (fine : (10 : ℚ) ^ exponent * 10 ^ 16 ≤ x.significand * 2 ^ x.exponent) :
    x.Near ((Interval.of x).pointBefore exponent * 10 ^ exponent) ∨
      x.Near (((Interval.of x).pointBefore exponent + 1) * 10 ^ exponent) := by
  obtain ⟨before, after⟩ := pointBefore_bounds x exponent
  generalize (Interval.of x).pointBefore exponent = point at *
  have step := Binary64.two_zpow_pos x.exponent
  have narrow : (x.significand : ℚ) < 2 ^ 53 := by
    have bound := (Binary64.placed finite).narrow
    unfold Binary64.leadingBit at bound
    exact_mod_cast bound
  have spacing : (10 : ℚ) ^ exponent / 2 ^ x.exponent ≤ x.significand / 10 ^ 16 := by
    rw [div_le_div_iff₀ step (by norm_num)]
    exact fine
  rw [← div_le_iff₀ step] at before
  rw [← lt_div_iff₀ step] at after
  have apart : (point + 1) * 10 ^ exponent / 2 ^ x.exponent =
      point * 10 ^ exponent / 2 ^ x.exponent + (10 : ℚ) ^ exponent / 2 ^ x.exponent := by
    ring
  have half := Binary64.lower_bounds x
  by_cases leading : x.significand = Binary64.leadingBit ∧ -1074 < x.exponent
  · -- the lower neighbour is close here, but the next point is closer than the upper middle
    have significand_eq : (x.significand : ℚ) = 2 ^ 52 := by
      rw [leading.1]
      norm_num [Binary64.leadingBit]
    exact .inr (near_of_between (by linarith) (by linarith))
  · have lower_eq : x.lower = 1 / 2 := if_neg leading
    rcases lt_or_ge (x.significand - x.lower) (point * 10 ^ exponent / 2 ^ x.exponent) with
      inside | outside
    · exact .inl (near_of_between inside (by linarith))
    · exact .inr (near_of_between (by linarith) (by linarith))

theorem onGrid_isSome {x : Binary64} (finite : x.isFinite = true) (positive : 0 < x.significand)
    (tie : Tie) {exponent : Int}
    (fine : (10 : ℚ) ^ exponent * 10 ^ 16 ≤ x.significand * 2 ^ x.exponent) :
    ∃ d, (Interval.of x).onGrid tie exponent = some d := by
  have hit {n : Nat} (near : x.Near (n * 10 ^ exponent)) :
      (Interval.of x).holds (quotient n exponent).1 (quotient n exponent).2 = true := by
    rw [holds_iff positive (quotient_den_pos _ _), quotient_cast]
    exact near
  cases result : (Interval.of x).onGrid tie exponent with
  | some d => exact ⟨d, rfl⟩
  | none =>
    obtain ⟨before, after⟩ := onGrid_eq_none result
    rcases near_pointBefore finite fine with near | near
    · exact absurd (hit near) (Bool.eq_false_iff.mp before)
    · rw [← Nat.cast_succ] at near
      exact absurd (hit near) (Bool.eq_false_iff.mp after)

theorem search_near {x : Binary64} (positive : 0 < x.significand) {tie : Tie} {fuel count : Nat}
    {d : Decimal} (h : (Interval.of x).search tie fuel count = some d) : x.Near d.value := by
  induction fuel generalizing count with
  | zero => cases h
  | succ fuel ih =>
    rw [search] at h
    split at h
    · rename_i found
      cases h
      exact onGrid_near positive found
    · exact ih h

theorem search_isSome {i : Interval} {tie : Tie} {fuel count : Nat} {d : Decimal}
    (last : i.onGrid tie (i.place - (count + fuel : Nat)) = some d) :
    ∃ found, i.search tie (fuel + 1) count = some found := by
  induction fuel generalizing count with
  | zero =>
    rw [search]
    exact ⟨d, by rw [Nat.add_zero] at last; rw [last]⟩
  | succ fuel ih =>
    rw [search]
    split
    · exact ⟨_, rfl⟩
    · exact ih (by rw [Nat.add_right_comm, Nat.add_assoc]; exact last)

end Interval

theorem shortest_near {x : Binary64} (finite : x.isFinite = true) (positive : 0 < x.significand)
    (tie : Tie) : x.Near (shortest tie x).value := by
  have fine : (10 : ℚ) ^ ((Interval.of x).place - (1 + 16 : Nat)) * 10 ^ 16 ≤
      x.significand * 2 ^ x.exponent := by
    refine le_trans (le_of_eq ?_) (Interval.place_le positive)
    rw [← zpow_natCast, ← zpow_add₀ (by norm_num)]
    congr 1
    push_cast
    ring
  obtain ⟨last, at_last⟩ := Interval.onGrid_isSome finite positive tie fine
  obtain ⟨found, at_found⟩ : ∃ found, (Interval.of x).search tie 17 1 = some found :=
    Interval.search_isSome at_last
  simp only [shortest, if_neg positive.ne', at_found, Option.getD_some, value_strip]
  exact Interval.search_near positive at_found

end Decimal

end RuleRegistry
