import Mathlib.Data.Bool.AllAny
import Mathlib.Data.List.Induction
import RuleRegistry.Number.Numeral

namespace RuleRegistry

namespace Binary64

theorem magnitude_ofMagnitude {m : Nat} (small : m < signBit) (negative : Bool) :
    (ofMagnitude negative m).magnitude = m := by
  simp only [signBit] at small
  cases negative <;>
    simp only [ofMagnitude, magnitude, signBit, UInt64.toNat_ofNat', Bool.false_eq_true, if_true,
      if_false] <;> omega

theorem ofMagnitude_unsigned {m : Nat} (h : m < signBit) :
    (ofMagnitude false m).isNegative = false := by
  have small : m < 18446744073709551616 := Nat.lt_trans h (by decide)
  simp only [ofMagnitude, isNegative, Bool.false_eq_true, if_false,
    UInt64.toNat_ofNat', decide_eq_false_iff_not, Nat.not_le]
  rw [Nat.mod_eq_of_lt small]
  exact h

theorem ofQuotient_unsigned (num den : Nat) :
    (ofQuotient false num den).isNegative = false := by
  unfold ofQuotient
  split
  · exact ofMagnitude_unsigned (by decide)
  · exact ofMagnitude_unsigned (Nat.lt_of_le_of_lt (Nat.min_le_right _ _) (by decide))

theorem ofDecimal_unsigned (digits : Nat) (exponent : Int) :
    (ofDecimal false digits exponent).isNegative = false := by
  unfold ofDecimal
  dsimp only
  split
  · exact ofMagnitude_unsigned (by decide)
  · split
    · exact ofMagnitude_unsigned (by decide)
    · split
      · exact ofQuotient_unsigned _ _
      · exact ofQuotient_unsigned _ _

end Binary64

namespace Numeral

theorem isDigit_eq (c : Char) : isDigit c = c.isDigit := by
  simp [isDigit, Char.isDigit, Char.le_def]

theorem digitValue_of_isDigit {c : Char} (h : isDigit c = true) :
    digitValue c = some (c.toNat - '0'.toNat) := by
  have bounds : '0' ≤ c ∧ c ≤ '9' := by simpa [isDigit] using h
  rw [digitValue, if_pos bounds]

theorem digitsFrom_eq {cs : List Char} (digits : ∀ c ∈ cs, isDigit c = true) (acc : Nat) :
    digitsFrom 10 acc cs = some (Nat.ofDigitChars 10 cs acc) := by
  induction cs generalizing acc with
  | nil => simp [digitsFrom]
  | cons c rest ih =>
    obtain ⟨first, others⟩ := List.forall_mem_cons.mp digits
    have small : c.toNat - '0'.toNat < 10 := by
      have bounds : '0' ≤ c ∧ c ≤ '9' := by simpa [isDigit] using first
      have high : c.toNat ≤ '9'.toNat := bounds.2
      exact Nat.lt_of_le_of_lt (Nat.sub_le_sub_right high _) (by decide)
    rw [digitsFrom, digitValue_of_isDigit first]
    simp only [if_pos small, ih others, Nat.ofDigitChars_cons, Nat.mul_comm acc]

theorem readNat_eq {cs : List Char} (some_digit : cs ≠ []) (digits : ∀ c ∈ cs, isDigit c = true) :
    readNat 10 cs = some (Nat.ofDigitChars 10 cs 0) := by
  cases cs with
  | nil => exact absurd rfl some_digit
  | cons c rest => exact digitsFrom_eq digits 0

theorem digits_end {digits rest : List Char} (all : ∀ c ∈ digits, isDigit c = true)
    (stop : ∀ c cs, rest = c :: cs → isDigit c = false) :
    (digits ++ rest).takeWhile isDigit = digits ∧
      (digits ++ rest).dropWhile isDigit = rest := by
  have cut : rest.takeWhile isDigit = [] ∧ rest.dropWhile isDigit = rest := by
    cases rest with
    | nil => exact ⟨rfl, rfl⟩
    | cons d more => simp [stop d more rfl]
  rw [List.takeWhile_append_of_pos all, List.dropWhile_append_of_pos all, cut.1, cut.2,
    List.append_nil]
  exact ⟨rfl, rfl⟩

theorem isDigit_toDigits (n : Nat) : ∀ c ∈ Nat.toDigits 10 n, isDigit c = true := fun c hc =>
  (isDigit_eq c).trans (Nat.isDigit_of_mem_toDigits (by decide) (by decide) hc)

theorem readNat_toDigits (n : Nat) : readNat 10 (Nat.toDigits 10 n) = some n := by
  rw [readNat_eq Nat.toDigits_ne_nil (isDigit_toDigits n), Nat.ofDigitChars_ten_toDigits]

theorem toInt_of_toInt64? {k : Int} {n : Int64} (h : toInt64? k = some n) : n.toInt = k := by
  unfold toInt64? at h
  split at h
  · rename_i bounds
    cases h
    exact Int64.toInt_ofInt_of_le bounds.1 bounds.2
  · cases h

theorem readInt_unsigned {cs : List Char} (digits : ∀ c ∈ cs, isDigit c = true) :
    readInt 10 cs = (readNat 10 cs).map Int.ofNat := by
  unfold readInt
  split
  · exact absurd (digits '+' List.mem_cons_self) (by decide)
  · exact absurd (digits '-' List.mem_cons_self) (by decide)
  · rfl

theorem readInt64_nonneg {cs : List Char} (digits : ∀ c ∈ cs, isDigit c = true) {n : Int64}
    (h : readInt64 10 cs = some n) : 0 ≤ n.toInt := by
  rw [readInt64, readInt_unsigned digits] at h
  obtain ⟨k, hk, hn⟩ := Option.bind_eq_some_iff.mp h
  obtain ⟨m, _, rfl⟩ := Option.map_eq_some_iff.mp hk
  rw [toInt_of_toInt64? hn]
  exact Int.natCast_nonneg m

theorem toInt64?_toInt (n : Int64) : toInt64? n.toInt = some n := by
  rw [toInt64?, if_pos ⟨n.le_toInt, n.toInt_lt⟩, Int64.ofInt_toInt]

/-- A number without a sign is written with digits only, and they are read as the number. -/
theorem text_int64 {n : Int64} (unsigned : 0 ≤ n.toInt) :
    (toString n.toInt).toList = Nat.toDigits 10 n.toInt.toNat ∧
      readInt64 10 (Nat.toDigits 10 n.toInt.toNat) = some n := by
  constructor
  · rw [Int.toString_eq_repr, Int.repr_eq_if, if_pos unsigned, Nat.toList_repr]
  · rw [readInt64, readInt_unsigned (isDigit_toDigits _), readNat_toDigits]
    simp only [Option.map_some, Option.bind_some, Int.ofNat_eq_natCast, Int.toNat_of_nonneg unsigned]
    exact toInt64?_toInt n

theorem readMagnitude_unsigned {cs : List Char} {x : Binary64}
    (h : readMagnitude false cs = some x) : x.isNegative = false := by
  simp only [readMagnitude, Option.bind_eq_bind, Option.bind_eq_some_iff] at h
  obtain ⟨digits, _, exponent, _, eq⟩ := h
  cases eq
  exact Binary64.ofDecimal_unsigned _ _

theorem readBinary64_unsigned {c : Char} {cs : List Char} (digit : isDigit c = true) {x : Binary64}
    (h : readBinary64 (c :: cs) = some x) : x.isNegative = false := by
  unfold readBinary64 at h
  split at h
  · rename_i eq
    cases eq
    exact absurd digit (by decide)
  · rename_i eq
    cases eq
    exact absurd digit (by decide)
  · exact readMagnitude_unsigned h

def digitTable : List Char := "0123456789abcdef".toList

/-- The character is the digit of this value, in letters of either case. -/
def IsDigitOf (base : Nat) (c : Char) (d : Nat) : Prop := d < base ∧ digitTable[d]? = some c.toLower

/-- The number that digits of a base spell: one digit or more, the last one with the least weight. -/
inductive DigitsOf (base : Nat) : List Char → Nat → Prop
  | one {c : Char} {d : Nat} (digit : IsDigitOf base c d) : DigitsOf base [c] d
  | more {cs : List Char} {n : Nat} {c : Char} {d : Nat} (front : DigitsOf base cs n)
      (digit : IsDigitOf base c d) : DigitsOf base (cs ++ [c]) (n * base + d)

/-- Every ASCII character satisfies what its code does, and no other does what fails beyond them. -/
theorem forall_char {P : Char → Prop} (ascii : ∀ n < 128, P (Char.ofNat n))
    (beyond : ∀ c : Char, 128 ≤ c.toNat → P c) (c : Char) : P c := by
  by_cases small : c.toNat < 128
  · have known := ascii c.toNat small
    rwa [Char.ofNat_toNat] at known
  · exact beyond c (Nat.le_of_not_lt small)

theorem toLower_of_beyond {c : Char} (beyond : 128 ≤ c.toNat) : c.toLower = c := by
  have high : ¬ c.val ≤ 'Z'.val := by
    intro low
    have bound : c.toNat ≤ 90 := UInt32.le_iff_toNat_le.mp low
    omega
  exact dif_neg fun upper => high upper.2

theorem digitTable_of_beyond {c : Char} (beyond : 128 ≤ c.toNat) (d : Nat) :
    digitTable[d]? ≠ some c.toLower := by
  intro found
  have ascii : ∀ e ∈ digitTable, e.toNat < 128 := List.all_iff_forall_prop.mp (by decide)
  have bound := ascii _ (List.mem_of_getElem? found)
  rw [toLower_of_beyond beyond] at bound
  omega

theorem digitValue_eq_some_iff (c : Char) : ∀ d < 16,
    digitValue c = some d ↔ digitTable[d]? = some c.toLower := by
  refine forall_char (P := fun c => ∀ d < 16, digitValue c = some d ↔ digitTable[d]? = some c.toLower)
    (by decide +kernel) (fun c beyond d _ => ?_) c
  have above (last : Char) (ascii : last.toNat < 128) : ¬ c ≤ last := by
    intro le
    have bound : c.toNat ≤ last.toNat := le
    omega
  have none_left : digitValue c = none := by
    simp [digitValue, above '9' (by decide), above 'z' (by decide), above 'Z' (by decide)]
  simp [none_left, digitTable_of_beyond beyond]

theorem IsDigitOf.isDigit {c : Char} {d : Nat} (h : IsDigitOf 10 c d) : isDigit c = true := by
  have known : ∀ d < 10, digitTable[d]? = some c.toLower → Numeral.isDigit c = true :=
    forall_char (P := fun c => ∀ d < 10, digitTable[d]? = some c.toLower → Numeral.isDigit c = true)
      (by decide +kernel) (fun _ beyond d _ found => absurd found (digitTable_of_beyond beyond d)) c
  exact known d h.1 h.2

theorem digitsFrom_append (base acc : Nat) (front back : List Char) :
    digitsFrom base acc (front ++ back) =
      (digitsFrom base acc front).bind fun n => digitsFrom base n back := by
  induction front generalizing acc with
  | nil => rfl
  | cons c front ih =>
    simp only [List.cons_append, digitsFrom]
    split
    · split
      · exact ih _
      · rfl
    · rfl

theorem digitsFrom_one {base : Nat} (small : base ≤ 16) (acc : Nat) (c : Char) (n : Nat) :
    digitsFrom base acc [c] = some n ↔ ∃ d, IsDigitOf base c d ∧ n = acc * base + d := by
  have digit (d : Nat) : IsDigitOf base c d ↔ d < base ∧ digitValue c = some d :=
    and_congr_right fun less => (digitValue_eq_some_iff c d (by omega)).symm
  simp only [digit, digitsFrom]
  cases digitValue c with
  | none => simp
  | some d => by_cases less : d < base <;> simp [less, eq_comm]

theorem readNat_eq_some_iff {base : Nat} (small : base ≤ 16) (cs : List Char) (n : Nat) :
    readNat base cs = some n ↔ DigitsOf base cs n := by
  have started {cs : List Char} (some_char : cs ≠ []) : readNat base cs = digitsFrom base 0 cs := by
    obtain ⟨c, rest, rfl⟩ := List.exists_cons_of_ne_nil some_char
    rfl
  have one (c : Char) (n : Nat) : readNat base [c] = some n ↔ IsDigitOf base c n := by
    rw [started (List.cons_ne_nil _ _), digitsFrom_one small]
    simp
  have more {cs : List Char} (some_char : cs ≠ []) (c : Char) (n : Nat) :
      readNat base (cs ++ [c]) = some n ↔
        ∃ m d, readNat base cs = some m ∧ IsDigitOf base c d ∧ n = m * base + d := by
    rw [started (by simp), started some_char, digitsFrom_append, Option.bind_eq_some_iff]
    simp only [digitsFrom_one small]
    simp
  constructor
  · intro read
    induction cs using List.reverseRecOn generalizing n with
    | nil => cases read
    | append_singleton cs c ih =>
      by_cases empty : cs = []
      · subst empty
        exact .one ((one c n).mp read)
      · obtain ⟨m, d, front, digit, rfl⟩ := (more empty c n).mp read
        exact .more (ih m front) digit
  · intro spelled
    induction spelled with
    | one digit => exact (one _ _).mpr digit
    | @more cs m c d _ digit ih =>
      have some_char : cs ≠ [] := by
        rintro rfl
        cases ih
      exact (more some_char c _).mpr ⟨m, d, ih, digit, rfl⟩

theorem DigitsOf.isDigit {cs : List Char} {n : Nat} (h : DigitsOf 10 cs n) :
    ∀ c ∈ cs, Numeral.isDigit c = true := by
  induction h with
  | one digit => simpa using digit.isDigit
  | more _ digit ih => exact List.forall_mem_append.mpr ⟨ih, by simpa using digit.isDigit⟩

end Numeral

end RuleRegistry
