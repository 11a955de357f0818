import Mathlib.Data.List.Forall2
import RuleRegistry.Proofs.Numerals
import RuleRegistry.Value.Spelling

namespace RuleRegistry

namespace Numeral

/-- The signs, with none among them, and by what each multiplies. -/
def signs : List (List Char × Int) := [([], 1), (['+'], 1), (['-'], -1)]

/-- An optional sign and digits of a base. -/
def Whole (base : Nat) (cs : List Char) (k : Int) : Prop :=
  ∃ sign ∈ signs, ∃ digits n, DigitsOf base digits n ∧ cs = sign.1 ++ digits ∧ k = sign.2 * n

theorem DigitsOf.head {base : Nat} {cs : List Char} {n : Nat} (h : DigitsOf base cs n) :
    ∃ c rest, cs = c :: rest ∧ c.toLower ∈ digitTable := by
  induction h with
  | one digit => exact ⟨_, [], rfl, List.mem_of_getElem? digit.2⟩
  | more _ _ ih =>
    obtain ⟨c, rest, rfl, known⟩ := ih
    exact ⟨c, rest ++ _, rfl, known⟩

theorem readInt_minus (base : Nat) (cs : List Char) :
    readInt base ('-' :: cs) = (readNat base cs).map fun n => -Int.ofNat n := by
  simp only [readInt]
  cases readNat base cs <;> rfl

theorem readInt_eq_some_iff {base : Nat} (small : base ≤ 16) (cs : List Char) (k : Int) :
    readInt base cs = some k ↔ Whole base cs k := by
  have digits (cs : List Char) (n : Nat) := readNat_eq_some_iff small cs n
  constructor
  · intro read
    by_cases plus : ∃ rest, cs = '+' :: rest
    · obtain ⟨rest, rfl⟩ := plus
      obtain ⟨n, spelled, rfl⟩ := Option.map_eq_some_iff.mp read
      exact ⟨(['+'], 1), by decide, rest, n, (digits _ _).mp spelled, rfl, by simp⟩
    by_cases minus : ∃ rest, cs = '-' :: rest
    · obtain ⟨rest, rfl⟩ := minus
      rw [readInt_minus] at read
      obtain ⟨n, spelled, rfl⟩ := Option.map_eq_some_iff.mp read
      exact ⟨(['-'], -1), by decide, rest, n, (digits _ _).mp spelled, rfl, by simp⟩
    unfold readInt at read
    split at read
    · exact absurd ⟨_, rfl⟩ plus
    · exact absurd ⟨_, rfl⟩ minus
    · obtain ⟨n, spelled, rfl⟩ := Option.map_eq_some_iff.mp read
      exact ⟨([], 1), by decide, cs, n, (digits _ _).mp spelled, rfl, by simp⟩
  · rintro ⟨sign, known, body, n, spelled, rfl, rfl⟩
    have read := (digits _ _).mpr spelled
    obtain ⟨c, rest, rfl, digit⟩ := spelled.head
    simp only [signs, List.mem_cons, List.not_mem_nil, or_false] at known
    rcases known with rfl | rfl | rfl
    · unfold readInt
      split
      · rename_i same
        cases same
        exact absurd digit (by decide)
      · rename_i same
        cases same
        exact absurd digit (by decide)
      · simp [read]
    · simp [readInt, read]
    · simp [readInt_minus, read]

end Numeral

namespace Value

open Numeral

/-- The text is the word with each letter in either case. -/
def InAnyCase (word s : String) : Prop :=
  List.Forall₂ (fun c d => d = c ∨ d = c.toUpper) word.toList s.toList

def words : List String := ["null", "true", "false"]

/-- The letters of these words. -/
def letters : List Char := "aeflnrstu".toList

theorem toLower_eq_iff (d : Char) : ∀ c ∈ letters, d.toLower = c ↔ d = c ∨ d = c.toUpper := by
  have known : ∀ n < 128, letters.all fun c =>
      (Char.ofNat n).toLower = c ↔ Char.ofNat n = c ∨ Char.ofNat n = c.toUpper := by
    decide +kernel
  refine forall_char (P := fun d => ∀ c ∈ letters, d.toLower = c ↔ d = c ∨ d = c.toUpper)
    (fun n small => List.all_iff_forall_prop.mp (known n small)) (fun d beyond c listed => ?_) d
  have ascii : ∀ c ∈ letters, c.toNat < 128 ∧ c.toUpper.toNat < 128 :=
    List.all_iff_forall_prop.mp (by decide)
  obtain ⟨lower, upper⟩ := ascii c listed
  have other {e : Char} (small : e.toNat < 128) : d ≠ e := by
    rintro rfl
    omega
  simp [toLower_of_beyond beyond, other lower, other upper]

theorem map_toLower_eq_iff {word : List Char} (lettered : ∀ c ∈ word, c ∈ letters)
    (cs : List Char) : cs.map Char.toLower = word ↔
      List.Forall₂ (fun c d => d = c ∨ d = c.toUpper) word cs := by
  induction word generalizing cs with
  | nil => simp
  | cons c word ih =>
    obtain ⟨first, others⟩ := List.forall_mem_cons.mp lettered
    cases cs with
    | nil => simp
    | cons d cs => simp [ih others cs, toLower_eq_iff d c first]

theorem lowered_eq_iff (s : String) : ∀ word ∈ words, lowered s = word ↔ InAnyCase word s := by
  intro word listed
  have lettered : ∀ word ∈ words, word.toList.all fun c => c ∈ letters := by decide
  rw [← String.toList_inj, lowered, String.toList_ofList]
  exact map_toLower_eq_iff (List.all_iff_forall_prop.mp (lettered word listed)) s.toList

/-- No word begins as a number does. -/
theorem InAnyCase.head {word s : String} (listed : word ∈ words) (h : InAnyCase word s) :
    ∃ c rest, s.toList = c :: rest ∧ isNumeralChar c = false := by
  have starts : ∀ word ∈ words, ∃ c rest, word.toList = c :: rest ∧ isNumeralChar c = false ∧
      isNumeralChar c.toUpper = false := by
    simp only [words, List.forall_mem_cons]
    exact ⟨⟨_, _, rfl, by decide⟩, ⟨_, _, rfl, by decide⟩, ⟨_, _, rfl, by decide⟩, by simp⟩
  obtain ⟨c, rest, spelled, lower, upper⟩ := starts word listed
  rw [InAnyCase, spelled] at h
  obtain ⟨d, cs, same, _, eq⟩ := List.forall₂_cons_left_iff.mp h
  refine ⟨d, cs, eq, ?_⟩
  rcases same with rfl | rfl
  · exact lower
  · exact upper

/-- A hexadecimal number: its mark, and behind it an optional sign and digits. -/
def Hexadecimal (cs : List Char) (k : Int) : Prop :=
  ∃ mark rest, (mark = 'x' ∨ mark = 'X') ∧ cs = '0' :: mark :: rest ∧ Whole 16 rest k

def IsWhole (cs : List Char) (k : Int) : Prop := Whole 10 cs k ∨ Hexadecimal cs k

theorem readInt64_eq_some_iff {base : Nat} (small : base ≤ 16) (cs : List Char) (n : Int64) :
    readInt64 base cs = some n ↔ Whole base cs n.toInt := by
  rw [← readInt_eq_some_iff small, readInt64, Option.bind_eq_some_iff]
  constructor
  · rintro ⟨k, read, narrow⟩
    rw [read, toInt_of_toInt64? narrow]
  · exact fun read => ⟨_, read, toInt64?_toInt n⟩

theorem withoutSign_signed {sign : List Char × Int} (known : sign ∈ signs) {body : List Char}
    (plain : ∀ c rest, body = c :: rest → isSign c = false) :
    withoutSign (sign.1 ++ body) = body := by
  simp only [signs, List.mem_cons, List.not_mem_nil, or_false] at known
  rcases known with rfl | rfl | rfl
  · cases body with
    | nil => rfl
    | cons c rest => simp [withoutSign, plain c rest rfl]
  · rfl
  · rfl

theorem not_sign_of_digit {c : Char} (digit : isDigit c = true) : isSign c = false := by
  rw [Bool.eq_false_iff]
  intro sign
  rcases Bool.or_eq_true_iff.mp sign with same | same
  · rw [eq_of_beq same] at digit
    cases digit
  · rw [eq_of_beq same] at digit
    cases digit

theorem withoutSign_digits {sign : List Char × Int} (known : sign ∈ signs) {digits : List Char}
    (all : ∀ c ∈ digits, isDigit c = true) : withoutSign (sign.1 ++ digits) = digits := by
  apply withoutSign_signed known
  rintro c rest rfl
  exact not_sign_of_digit (all c List.mem_cons_self)

theorem spelledDecimal?_eq_some_iff (cs : List Char) (n : Int64) :
    spelledDecimal? cs = some n ↔ Whole 10 cs n.toInt := by
  rw [← readInt64_eq_some_iff (by decide)]
  unfold spelledDecimal?
  dsimp only
  split
  · rfl
  · rename_i refused
    refine ⟨nofun, fun read => absurd ?_ refused⟩
    obtain ⟨sign, known, digits, k, spelled, rfl, _⟩ := (readInt64_eq_some_iff (by decide) _ _).mp read
    obtain ⟨c, rest, rfl, _⟩ := spelled.head
    rw [withoutSign_digits known spelled.isDigit]
    simpa using spelled.isDigit

theorem spelledHex?_eq_some_iff (cs : List Char) (n : Int64) :
    spelledHex? cs = some n ↔ Hexadecimal cs n.toInt := by
  have read (rest : List Char) := readInt64_eq_some_iff (by decide : 16 ≤ 16) rest n
  constructor
  · intro found
    unfold spelledHex? at found
    split at found
    · exact ⟨'x', _, .inl rfl, rfl, (read _).mp found⟩
    · exact ⟨'X', _, .inr rfl, rfl, (read _).mp found⟩
    · cases found
  · rintro ⟨mark, rest, rfl | rfl, rfl, whole⟩
    · exact (read _).mpr whole
    · exact (read _).mpr whole

theorem not_whole_of_hexadecimal {cs : List Char} {k m : Int} (h : Hexadecimal cs k) :
    ¬ Whole 10 cs m := by
  rintro ⟨sign, known, digits, n, spelled, eq, _⟩
  obtain ⟨mark, rest, marked, rfl, _⟩ := h
  have bare : withoutSign ('0' :: mark :: rest) = '0' :: mark :: rest := by
    simp [withoutSign, isSign]
  have same : digits = '0' :: mark :: rest := by
    rw [← bare, eq, withoutSign_digits known spelled.isDigit]
  have digit := spelled.isDigit mark (by simp [same])
  rcases marked with rfl | rfl
  · cases digit
  · cases digit

theorem spelledWhole_eq_some_iff (cs : List Char) (n : Int64) :
    (spelledDecimal? cs).or (spelledHex? cs) = some n ↔ IsWhole cs n.toInt := by
  rw [Option.or_eq_some_iff, spelledDecimal?_eq_some_iff, spelledHex?_eq_some_iff]
  apply or_congr_right
  refine ⟨And.right, fun hex => ⟨?_, hex⟩⟩
  rw [Option.eq_none_iff_forall_ne_some]
  intro m found
  exact not_whole_of_hexadecimal hex ((spelledDecimal?_eq_some_iff cs m).mp found)

/-- A point and digits behind it, or neither. -/
inductive Fraction : List Char → List Char → Prop
  | none : Fraction [] []
  | point (digits : List Char) : Fraction ('.' :: digits) digits

/-- A mark and a whole number, or neither. -/
inductive Exponent : List Char → Int → Prop
  | none : Exponent [] 0
  | power {mark : Char} {cs : List Char} {k : Int} (marked : mark = 'e' ∨ mark = 'E')
      (whole : Whole 10 cs k) : Exponent (mark :: cs) k

/-- Digits with an optional point among or beside them and an optional exponent, and the number
nearest to what they are worth. -/
inductive Magnitude (negative : Bool) : List Char → Binary64 → Prop
  | mk {whole front fraction back : List Char} {digits : Nat} {exponent : Int}
      (pointed : Fraction front fraction) (some_digit : DigitsOf 10 (whole ++ fraction) digits)
      (scaled : Exponent back exponent) : Magnitude negative (whole ++ (front ++ back))
        (.ofDecimal negative digits (exponent - (fraction.length : Int)))

/-- A decimal number with an optional sign. -/
def IsDecimal (cs : List Char) (x : Binary64) : Prop :=
  ∃ sign ∈ signs, ∃ body, Magnitude (decide (sign.2 < 0)) body x ∧ cs = sign.1 ++ body

theorem readExponent_eq_some_iff (cs : List Char) (k : Int) :
    readExponent cs = some k ↔ Exponent cs k := by
  constructor
  · intro read
    cases cs with
    | nil =>
      cases read
      exact .none
    | cons c rest =>
      simp only [readExponent] at read
      split at read
      · rename_i marked
        exact .power marked ((readInt_eq_some_iff (by decide) _ _).mp read)
      · cases read
  · rintro (_ | ⟨marked, whole⟩)
    · rfl
    · rw [readExponent, if_pos marked]
      exact (readInt_eq_some_iff (by decide) _ _).mpr whole

theorem Exponent.stops {back : List Char} {k : Int} (h : Exponent back k) :
    ∀ c cs, back = c :: cs → isDigit c = false ∧ c ≠ '.' := by
  rintro c cs rfl
  cases h with
  | power marked _ =>
    rcases marked with rfl | rfl
    · decide
    · decide

theorem splitFraction_of {whole front fraction back : List Char} {k : Int}
    (whole_digits : ∀ c ∈ whole, isDigit c = true)
    (fraction_digits : ∀ c ∈ fraction, isDigit c = true) (pointed : Fraction front fraction)
    (scaled : Exponent back k) :
    splitFraction (whole ++ (front ++ back)) = (whole, fraction, back) := by
  have stop := scaled.stops
  cases pointed with
  | none =>
    obtain ⟨taken, left⟩ := digits_end whole_digits fun c cs eq => (stop c cs eq).1
    simp only [splitFraction, List.nil_append, taken, left]
    split
    · exact absurd rfl (stop _ _ rfl).2
    · rfl
  | point =>
    have point : ∀ c cs, '.' :: (fraction ++ back) = c :: cs → isDigit c = false := by
      rintro c cs ⟨⟩
      decide
    obtain ⟨taken, left⟩ := digits_end whole_digits point
    obtain ⟨taken', left'⟩ := digits_end fraction_digits fun c cs eq => (stop c cs eq).1
    simp only [splitFraction, List.cons_append, taken, left, taken', left']

theorem fraction_of_split {cs whole fraction back : List Char}
    (split : splitFraction cs = (whole, fraction, back)) :
    ∃ front, Fraction front fraction ∧ cs = whole ++ (front ++ back) := by
  have parts : cs.takeWhile isDigit ++ cs.dropWhile isDigit = cs := List.takeWhile_append_dropWhile
  unfold splitFraction at split
  dsimp only at split
  split at split
  · rename_i rest behind
    cases split
    refine ⟨_, .point _, ?_⟩
    rw [List.cons_append, List.takeWhile_append_dropWhile, ← behind, parts]
  · cases split
    exact ⟨[], .none, parts.symm⟩

theorem readMagnitude_eq_some_iff (negative : Bool) (cs : List Char) (x : Binary64) :
    readMagnitude negative cs = some x ↔ Magnitude negative cs x := by
  constructor
  · intro read
    rcases split : splitFraction cs with ⟨whole, fraction, back⟩
    simp only [readMagnitude, split, Option.bind_eq_bind, Option.bind_eq_some_iff] at read
    obtain ⟨digits, spelled, exponent, scaled, eq⟩ := read
    obtain ⟨front, pointed, rfl⟩ := fraction_of_split split
    cases eq
    apply Magnitude.mk pointed
    · exact (readNat_eq_some_iff (by decide) _ _).mp spelled
    · exact (readExponent_eq_some_iff _ _).mp scaled
  · rintro ⟨pointed, some_digit, scaled⟩
    have all := List.forall_mem_append.mp some_digit.isDigit
    simp only [readMagnitude, splitFraction_of all.1 all.2 pointed scaled,
      (readNat_eq_some_iff (by decide) _ _).mpr some_digit,
      (readExponent_eq_some_iff _ _).mpr scaled, Option.bind_eq_bind, Option.bind_some]

theorem isNumeralChar_of_isDigit {c : Char} (digit : isDigit c = true) : isNumeralChar c = true := by
  simp [isNumeralChar, digit]

theorem isNumeralChar_signs : ∀ sign ∈ signs, ∀ c ∈ sign.1, isNumeralChar c = true := by
  have known : ∀ sign ∈ signs, sign.1.all isNumeralChar = true := by decide
  exact fun sign listed => List.all_eq_true.mp (known sign listed)

theorem Exponent.numeral {back : List Char} {k : Int} (h : Exponent back k) :
    ∀ c ∈ back, isNumeralChar c = true := by
  cases h with
  | none => simp
  | power marked whole =>
    obtain ⟨sign, known, digits, n, spelled, rfl, _⟩ := whole
    intro c mem
    rcases List.mem_cons.mp mem with rfl | mem
    · rcases marked with rfl | rfl
      · decide
      · decide
    · rcases List.mem_append.mp mem with mem | mem
      · exact isNumeralChar_signs sign known c mem
      · exact isNumeralChar_of_isDigit (spelled.isDigit c mem)

theorem Magnitude.head {negative : Bool} {cs : List Char} {x : Binary64}
    (h : Magnitude negative cs x) :
    ∃ c rest, cs = c :: rest ∧ isNumeralChar c = true ∧ isSign c = false := by
  obtain @⟨whole, front, fraction, back, _, _, pointed, some_digit, _⟩ := h
  cases whole with
  | cons c whole =>
    have digit := some_digit.isDigit c List.mem_cons_self
    exact ⟨c, _, rfl, isNumeralChar_of_isDigit digit, not_sign_of_digit digit⟩
  | nil =>
    cases pointed with
    | none =>
      obtain ⟨c, rest, empty, _⟩ := some_digit.head
      cases empty
    | point => exact ⟨'.', _, rfl, by decide, by decide⟩

theorem Magnitude.numeral {negative : Bool} {cs : List Char} {x : Binary64}
    (h : Magnitude negative cs x) :
    (∃ c ∈ cs, isDigit c = true) ∧ ∀ c ∈ cs, isNumeralChar c = true := by
  obtain @⟨whole, front, fraction, back, _, _, pointed, some_digit, scaled⟩ := h
  have inside : ∀ c ∈ fraction, c ∈ front := by
    cases pointed with
    | none => simp
    | point => exact fun c mem => List.mem_cons_of_mem _ mem
  have behind : ∀ c ∈ front, c = '.' ∨ c ∈ fraction := by
    cases pointed with
    | none => simp
    | point => exact fun c mem => List.mem_cons.mp mem
  have digit := some_digit.isDigit
  constructor
  · obtain ⟨c, rest, first, _⟩ := some_digit.head
    have mem : c ∈ whole ++ fraction := by simp [first]
    refine ⟨c, ?_, digit c mem⟩
    rcases List.mem_append.mp mem with mem | mem
    · exact List.mem_append_left _ mem
    · exact List.mem_append_right _ (List.mem_append_left _ (inside c mem))
  · intro c mem
    rcases List.mem_append.mp mem with mem | mem
    · exact isNumeralChar_of_isDigit (digit c (List.mem_append_left _ mem))
    rcases List.mem_append.mp mem with mem | mem
    · rcases behind c mem with rfl | mem
      · decide
      · exact isNumeralChar_of_isDigit (digit c (List.mem_append_right _ mem))
    · exact scaled.numeral c mem

theorem readBinary64_signed {sign : List Char × Int} (known : sign ∈ signs) {body : List Char}
    (plain : ∀ c rest, body = c :: rest → isSign c = false) :
    readBinary64 (sign.1 ++ body) = readMagnitude (decide (sign.2 < 0)) body := by
  simp only [signs, List.mem_cons, List.not_mem_nil, or_false] at known
  rcases known with rfl | rfl | rfl
  · unfold readBinary64
    split
    · rename_i same
      exact absurd (plain _ _ same) (by decide)
    · rename_i same
      exact absurd (plain _ _ same) (by decide)
    · rfl
  · rfl
  · rfl

theorem exists_sign (cs : List Char) : ∃ sign ∈ signs, cs = sign.1 ++ withoutSign cs ∧
    readBinary64 cs = readMagnitude (decide (sign.2 < 0)) (withoutSign cs) := by
  by_cases plain : ∀ c rest, cs = c :: rest → isSign c = false
  · have unsigned : (([], 1) : List Char × Int) ∈ signs := by decide
    have bare := withoutSign_signed unsigned plain
    have read := readBinary64_signed unsigned plain
    rw [List.nil_append] at bare read
    rw [bare]
    exact ⟨_, unsigned, rfl, read⟩
  · cases cs with
    | nil => exact absurd nofun plain
    | cons c rest =>
      have sign : isSign c = true := by
        by_contra other
        apply plain
        rintro d others ⟨⟩
        exact Bool.eq_false_iff.mpr other
      have cut : withoutSign (c :: rest) = rest := by simp [withoutSign, sign]
      rw [cut]
      rcases Bool.or_eq_true_iff.mp sign with same | same
      · obtain rfl := eq_of_beq same
        exact ⟨(['+'], 1), by decide, rfl, rfl⟩
      · obtain rfl := eq_of_beq same
        exact ⟨(['-'], -1), by decide, rfl, by simp [readBinary64]⟩

theorem spelledBinary64?_eq_some_iff (cs : List Char) (x : Binary64) :
    spelledBinary64? cs = some x ↔ IsDecimal cs x := by
  unfold spelledBinary64?
  dsimp only
  constructor
  · intro read
    split at read
    · obtain ⟨sign, known, parts, eq⟩ := exists_sign cs
      rw [eq] at read
      exact ⟨sign, known, _, (readMagnitude_eq_some_iff _ _ _).mp read, parts⟩
    · cases read
  · rintro ⟨sign, known, body, magnitude, rfl⟩
    obtain ⟨c, rest, same, _, no_sign⟩ := magnitude.head
    have plain : ∀ c rest, body = c :: rest → isSign c = false := by
      rintro d others rfl
      cases same
      exact no_sign
    obtain ⟨digit, all⟩ := magnitude.numeral
    rw [withoutSign_signed known plain, readBinary64_signed known plain, if_pos]
    · exact (readMagnitude_eq_some_iff _ _ _).mpr magnitude
    · simpa using ⟨digit, all⟩

/-- A value that a text spells. What is neither a word nor a number spells itself. -/
inductive Spells (s : String) : Value → Prop
  | null (word : InAnyCase "null" s) : Spells s .null
  | true (word : InAnyCase "true" s) : Spells s (.bool true)
  | false (word : InAnyCase "false" s) : Spells s (.bool false)
  | int {n : Int64} (whole : IsWhole s.toList n.toInt) : Spells s (.int n)
  | float {x : Binary64} (decimal : IsDecimal s.toList x)
      (wide : ∀ n : Int64, ¬ IsWhole s.toList n.toInt) : Spells s (.float x)
  | string (no_word : ∀ word ∈ words, ¬ InAnyCase word s)
      (wide : ∀ n : Int64, ¬ IsWhole s.toList n.toInt) (no_decimal : ∀ x, ¬ IsDecimal s.toList x) :
      Spells s (.string s)

theorem IsWhole.head {cs : List Char} {k : Int} (h : IsWhole cs k) :
    ∃ c rest, cs = c :: rest ∧ isNumeralChar c = true := by
  rcases h with ⟨sign, known, digits, n, spelled, rfl, _⟩ | ⟨mark, rest, _, rfl, _⟩
  · obtain ⟨c, rest, rfl, _⟩ := spelled.head
    have all : ∀ d ∈ sign.1 ++ c :: rest, isNumeralChar d = true := by
      intro d mem
      rcases List.mem_append.mp mem with mem | mem
      · exact isNumeralChar_signs sign known d mem
      · exact isNumeralChar_of_isDigit (spelled.isDigit d mem)
    obtain ⟨d, others, same⟩ := List.exists_cons_of_ne_nil
      (List.append_ne_nil_of_right_ne_nil sign.1 (List.cons_ne_nil c rest))
    exact ⟨d, others, same, all d (same ▸ List.mem_cons_self)⟩
  · exact ⟨'0', _, rfl, by decide⟩

theorem IsDecimal.head {cs : List Char} {x : Binary64} (h : IsDecimal cs x) :
    ∃ c rest, cs = c :: rest ∧ isNumeralChar c = true := by
  obtain ⟨sign, known, body, magnitude, rfl⟩ := h
  obtain ⟨c, rest, rfl, numeral, _⟩ := magnitude.head
  simp only [signs, List.mem_cons, List.not_mem_nil, or_false] at known
  rcases known with rfl | rfl | rfl
  · exact ⟨c, rest, rfl, numeral⟩
  · exact ⟨'+', _, rfl, by decide⟩
  · exact ⟨'-', _, rfl, by decide⟩

theorem lowered_ne_of_numeral {s : String}
    (numeral : ∃ c rest, s.toList = c :: rest ∧ isNumeralChar c = true) :
    ∀ word ∈ words, lowered s ≠ word := by
  intro word listed same
  obtain ⟨c, rest, eq, starts⟩ := numeral
  obtain ⟨d, others, eq', other⟩ := ((lowered_eq_iff s word listed).mp same).head listed
  rw [eq] at eq'
  cases eq'
  rw [starts] at other
  cases other

theorem spells_ofSpelling (s : String) : Spells s (ofSpelling s) := by
  have word := lowered_eq_iff s
  unfold ofSpelling
  dsimp only
  split
  · rename_i null
    exact .null ((word _ (by decide)).mp null)
  split
  · rename_i yes
    exact .true ((word _ (by decide)).mp yes)
  split
  · rename_i no
    exact .false ((word _ (by decide)).mp no)
  rename_i no_null no_true no_false
  split
  · rename_i n found
    exact .int ((spelledWhole_eq_some_iff _ n).mp found)
  rename_i not_whole
  have wide : ∀ n : Int64, ¬ IsWhole s.toList n.toInt := by
    intro n whole
    rw [(spelledWhole_eq_some_iff _ n).mpr whole] at not_whole
    cases not_whole
  split
  · rename_i x found
    exact .float ((spelledBinary64?_eq_some_iff _ x).mp found) wide
  · rename_i not_decimal
    refine .string (fun w listed => ?_) wide fun x decimal => ?_
    · rw [← word w listed]
      simp only [words, List.mem_cons, List.not_mem_nil, or_false] at listed
      rcases listed with rfl | rfl | rfl
      · exact no_null
      · exact no_true
      · exact no_false
    · rw [(spelledBinary64?_eq_some_iff _ x).mpr decimal] at not_decimal
      cases not_decimal

theorem Spells.eq_ofSpelling {s : String} {v : Value} (h : Spells s v) : ofSpelling s = v := by
  have word := lowered_eq_iff s
  unfold ofSpelling
  dsimp only
  cases h with
  | null h => rw [if_pos ((word _ (by decide)).mpr h)]
  | true h =>
    have same := (word _ (by decide)).mpr h
    simp [same]
  | false h =>
    have same := (word _ (by decide)).mpr h
    simp [same]
  | @int n whole =>
    have other := lowered_ne_of_numeral whole.head
    rw [if_neg (other _ (by decide)), if_neg (other _ (by decide)), if_neg (other _ (by decide)),
      (spelledWhole_eq_some_iff _ n).mpr whole]
  | @float x decimal wide =>
    have other := lowered_ne_of_numeral decimal.head
    have no_whole : (spelledDecimal? s.toList).or (spelledHex? s.toList) = none :=
      Option.eq_none_iff_forall_ne_some.mpr fun n found =>
        wide n ((spelledWhole_eq_some_iff _ n).mp found)
    rw [if_neg (other _ (by decide)), if_neg (other _ (by decide)), if_neg (other _ (by decide)),
      no_whole]
    simp only [(spelledBinary64?_eq_some_iff _ x).mpr decimal]
  | string no_word wide no_decimal =>
    have no_whole : (spelledDecimal? s.toList).or (spelledHex? s.toList) = none :=
      Option.eq_none_iff_forall_ne_some.mpr fun n found =>
        wide n ((spelledWhole_eq_some_iff _ n).mp found)
    have no_float : spelledBinary64? s.toList = none :=
      Option.eq_none_iff_forall_ne_some.mpr fun x found =>
        no_decimal x ((spelledBinary64?_eq_some_iff _ x).mp found)
    have other (w : String) (listed : w ∈ words) : lowered s ≠ w := fun same =>
      no_word w listed ((word w listed).mp same)
    rw [if_neg (other _ (by decide)), if_neg (other _ (by decide)), if_neg (other _ (by decide)),
      no_whole]
    simp only [no_float]

/-- A whole number is spelled by its digits, behind a minus sign if it is negative. -/
theorem whole_toString (k : Int) : Whole 10 (toString k).toList k := by
  have digits (n : Nat) : DigitsOf 10 (Nat.toDigits 10 n) n :=
    (readNat_eq_some_iff (by decide) _ _).mp (readNat_toDigits n)
  rw [Int.toString_eq_repr, Int.repr_eq_if]
  split
  · rename_i unsigned
    refine ⟨([], 1), by decide, _, k.toNat, digits _, ?_, ?_⟩
    · rw [Nat.toList_repr, List.nil_append]
    · omega
  · rename_i negative
    refine ⟨(['-'], -1), by decide, _, (-k).toNat, digits _, ?_, ?_⟩
    · simp
    · omega

/-- Each text has the value that it spells, and every whole number is read back from its text. -/
theorem ofSpelling_eq_iff (s : String) (v : Value) :
    (ofSpelling s = v ↔ Spells s v) ∧ ∀ n : Int64, ofSpelling (toString n.toInt) = .int n := by
  constructor
  · constructor
    · rintro rfl
      exact spells_ofSpelling s
    · exact Spells.eq_ofSpelling
  · intro n
    apply Spells.eq_ofSpelling
    exact .int (.inl (whole_toString n.toInt))

/-- Behind the mark of a hexadecimal number there may be a sign. -/
theorem not_digits_behind_mark : ofSpelling "0x-1F" = .int (-31) ∧
    ¬ ∀ (s : String) (n : Int64), ofSpelling s = .int n →
      Whole 10 s.toList n.toInt ∨ ∃ mark digits k, (mark = 'x' ∨ mark = 'X') ∧
        s.toList = '0' :: mark :: digits ∧ DigitsOf 16 digits k ∧ n.toInt = k := by
  have digits : DigitsOf 16 ['1', 'F'] 31 :=
    .more (.one (d := 1) ⟨by decide, by decide⟩) (d := 15) ⟨by decide, by decide⟩
  have hex : Hexadecimal "0x-1F".toList (-31 : Int64).toInt :=
    ⟨'x', ['-', '1', 'F'], .inl rfl, rfl, (['-'], -1), by decide, _, 31, digits, rfl, by decide⟩
  have spelled : ofSpelling "0x-1F" = .int (-31) := Spells.eq_ofSpelling (.int (.inr hex))
  refine ⟨spelled, fun bare => ?_⟩
  rcases bare _ _ spelled with whole | ⟨mark, digits, k, _, eq, only, _⟩
  · exact not_whole_of_hexadecimal hex whole
  · obtain ⟨c, rest, rfl, digit⟩ := only.head
    cases eq
    exact absurd digit (by decide)

end Value

end RuleRegistry
