import Mathlib.Data.List.Forall2
import RuleRegistry.Proofs.Mentions
import RuleRegistry.Proofs.Overflow
import RuleRegistry.Proofs.Reparse

/-!
The numbers of a text. A scan from left to right finds the numerals outside of strings and words, and
the numbers of the tree are what they denote: a whole number exactly, and a decimal rounded to the
nearest binary64 number. A decimal beyond all of them is taken for infinity, which is printed as a
word.
-/

namespace RuleRegistry

namespace Numeral

/-- The number of a numeral: the whole number that its digits spell, or with a point the number that
its decimal is rounded to. -/
inductive Denotes : List Char → Value → Prop
  | whole {digits : List Char} {k : Nat} {n : Int64} (spelled : DigitsOf 10 digits k)
      (exact : n.toInt = k) : Denotes digits (.int n)
  | decimal {whole fraction : List Char} {k : Nat} {x : Binary64} (some_whole : whole ≠ [])
      (some_fraction : fraction ≠ []) (spelled : DigitsOf 10 (whole ++ fraction) k)
      (rounded : Binary64.RoundsTo (k / 10 ^ fraction.length) x) :
      Denotes (whole ++ '.' :: fraction) (.float x)

theorem digitsOf_of_isDigit {cs : List Char} (some_digit : cs ≠ [])
    (digits : ∀ c ∈ cs, isDigit c = true) : DigitsOf 10 cs (Nat.ofDigitChars 10 cs 0) :=
  (readNat_eq_some_iff (by decide) _ _).mp (readNat_eq some_digit digits)

theorem denotes_whole {digits : List Char} (all : ∀ c ∈ digits, isDigit c = true) {n : Int64}
    (read : readInt64 10 digits = some n) : Denotes digits (.int n) := by
  rw [readInt64, readInt_unsigned all] at read
  obtain ⟨k, whole, fits⟩ := Option.bind_eq_some_iff.mp read
  obtain ⟨m, digits_read, rfl⟩ := Option.map_eq_some_iff.mp whole
  have spelled := (readNat_eq_some_iff (by decide) _ _).mp digits_read
  exact .whole spelled (toInt_of_toInt64? fits)

theorem denotes_decimal {whole fraction : List Char} (some_whole : whole ≠ [])
    (some_fraction : fraction ≠ []) (whole_digits : ∀ c ∈ whole, isDigit c = true)
    (fraction_digits : ∀ c ∈ fraction, isDigit c = true) {x : Binary64}
    (read : readBinary64 (whole ++ '.' :: fraction) = some x) :
    Denotes (whole ++ '.' :: fraction) (.float x) := by
  rw [readBinary64_point some_whole whole_digits fraction_digits] at read
  cases read
  have spelled : DigitsOf 10 (whole ++ fraction) _ :=
    digitsOf_of_isDigit (List.append_ne_nil_of_left_ne_nil some_whole _)
      (List.forall_mem_append.mpr ⟨whole_digits, fraction_digits⟩)
  have rounded := Binary64.roundsTo_ofDecimal (Nat.ofDigitChars 10 (whole ++ fraction) 0)
    (-fraction.length)
  rw [zpow_neg, zpow_natCast, ← div_eq_mul_inv] at rounded
  exact .decimal some_whole some_fraction spelled rounded

end Numeral

namespace Value

def isNumber : Value → Bool
  | int _ => true
  | float _ => true
  | _ => false

def isInfinite : Value → Bool
  | float x => x == .infinity false
  | _ => false

end Value

theorem Numeral.Denotes.isFinite {cs : List Char} {x : Binary64} (h : Denotes cs (.float x))
    (bounded : (Value.float x).isInfinite = false) : x.isFinite = true := by
  cases h with
  | decimal _ _ _ rounded =>
    cases rounded with
    | nearest _ finite _ _ => exact finite
    | infinite _ => cases bounded

namespace Expr

/-- The numbers among the literals, from left to right. -/
def numbers (e : Expr) : List Value := e.literals.filter Value.isNumber

namespace Parser

/-- The digits at the beginning of a text, with a point and the digits behind it if there are any, and
the text behind them. -/
def numeral (cs : List Char) : List Char × List Char :=
  let whole := cs.takeWhile Numeral.isDigit
  match cs.dropWhile Numeral.isDigit with
  | '.' :: after =>
    let fraction := after.takeWhile Numeral.isDigit
    if fraction = [] then (whole, '.' :: after)
    else (whole ++ '.' :: fraction, after.dropWhile Numeral.isDigit)
  | rest => (whole, rest)

theorem numeral_whole {cs : List Char}
    (no_fraction : ∀ after, cs.dropWhile Numeral.isDigit = '.' :: after →
      after.takeWhile Numeral.isDigit = []) :
    numeral cs = (cs.takeWhile Numeral.isDigit, cs.dropWhile Numeral.isDigit) := by
  unfold numeral
  dsimp only
  split
  · rename_i after point
    rw [point, if_pos (no_fraction after point)]
  · rfl

theorem numeral_point {cs after : List Char} (point : cs.dropWhile Numeral.isDigit = '.' :: after)
    (some_fraction : after.takeWhile Numeral.isDigit ≠ []) :
    numeral cs = (cs.takeWhile Numeral.isDigit ++ '.' :: after.takeWhile Numeral.isDigit,
      after.dropWhile Numeral.isDigit) := by
  simp [numeral, point, some_fraction]

theorem length_numeral (cs : List Char) :
    (numeral cs).2.length ≤ (cs.dropWhile Numeral.isDigit).length := by
  by_cases fraction : ∃ after, cs.dropWhile Numeral.isDigit = '.' :: after ∧
      after.takeWhile Numeral.isDigit ≠ []
  · obtain ⟨after, point, some_fraction⟩ := fraction
    rw [numeral_point point some_fraction, point]
    exact Nat.le_succ_of_le (List.dropWhile_sublist _).length_le
  · rw [numeral_whole]
    intro after point
    by_contra some_fraction
    exact fraction ⟨after, point, some_fraction⟩

/-- The numerals of a text outside of strings and words, from left to right. -/
def numerals : List Char → List (List Char)
  | [] => []
  | c :: rest =>
    if isQuote c then numerals (afterQuote c false rest)
    else if _ : Numeral.isDigit c then
      (numeral (c :: rest)).1 :: numerals (numeral (c :: rest)).2
    else if isWordStart c then numerals (rest.dropWhile isWordChar)
    else numerals rest
termination_by cs => cs.length
decreasing_by
  · exact Nat.lt_succ_of_le (length_afterQuote c false rest)
  · have shorter := length_numeral (c :: rest)
    rw [List.dropWhile_cons_of_pos ‹_›] at shorter
    exact Nat.lt_succ_of_le (shorter.trans (List.dropWhile_sublist _).length_le)
  · exact Nat.lt_succ_of_le (List.dropWhile_sublist _).length_le
  · exact Nat.lt_succ_self _

theorem not_quote_of_wordChar {c : Char} (word : isWordChar c = true) : isQuote c = false := by
  rw [Bool.eq_false_iff]
  intro quotes
  rcases Bool.or_eq_true_iff.mp quotes with same | same <;>
  · rw [eq_of_beq same] at word
    cases word

theorem numerals_pass {c : Char} (no_quote : isQuote c = false) (no_word : isWordChar c = false)
    (rest : List Char) : numerals (c :: rest) = numerals rest := by
  have plain := Bool.or_eq_false_iff.mp no_word
  rw [numerals]
  simp [no_quote, plain.1, plain.2]

theorem numerals_quote {quote : Char} (quotes : isQuote quote = true) (rest : List Char) :
    numerals (quote :: rest) = numerals (afterQuote quote false rest) := by
  rw [numerals, if_pos quotes]

theorem numerals_digit {c : Char} (digit : Numeral.isDigit c = true) (rest : List Char) :
    numerals (c :: rest) = (numeral (c :: rest)).1 :: numerals (numeral (c :: rest)).2 := by
  have no_quote := not_quote_of_wordChar (c := c) (by rw [isWordChar, digit, Bool.or_true])
  rw [numerals]
  simp [no_quote, digit]

theorem numerals_word {cs root behind : List Char} (word : word? cs = some (root, behind)) :
    numerals cs = numerals behind := by
  cases cs with
  | nil => cases word
  | cons c rest =>
    simp only [word?] at word
    split at word
    · rename_i start
      cases word
      have no_quote := not_quote_of_wordStart start
      have no_digit := not_digit_of_wordStart start
      rw [numerals]
      simp [no_quote, no_digit, start]
    · cases word

theorem numerals_quoted {quote : Char} {behind s rest : List Char}
    (quoted : quote = '"' ∨ quote = '\'') (text : textUntil quote behind = .ok (s, rest)) :
    numerals (quote :: behind) = numerals rest := by
  have quotes : isQuote quote = true := by rcases quoted with rfl | rfl <;> decide
  rw [numerals_quote quotes, afterQuote_of_textUntil text]

theorem skimsWords_numerals : SkimsWords numerals where
  mark mark := by
    simp only [isMark, Bool.and_eq_true, Bool.not_eq_true'] at mark
    exact numerals_pass mark.1.2 mark.2 _
  slash _ := numerals_pass (by decide) (by decide) _
  word := numerals_word

theorem skims_numerals : Skims numerals := skimsWords_numerals.skims

/-- A number is read from the numeral that the scan finds. -/
theorem ReadsNumber.denotes {cs rest : List Char} {v : Value} (h : ReadsNumber cs v rest) :
    (numeral cs).2 = rest ∧ Numeral.Denotes (numeral cs).1 v ∧ v.isNumber = true := by
  have digits (cs : List Char) : ∀ c ∈ cs.takeWhile Numeral.isDigit, Numeral.isDigit c = true :=
    List.all_eq_true.mp List.all_takeWhile
  cases h with
  | whole _ bare read =>
    rw [numeral_whole bare]
    exact ⟨rfl, Numeral.denotes_whole (digits cs) read, rfl⟩
  | @decimal after _ some_digit point some_fraction read =>
    rw [numeral_point point some_fraction]
    exact ⟨rfl, Numeral.denotes_decimal some_digit some_fraction (digits cs) (digits after) read, rfl⟩

/-- Between a text and what is left of it stand the numerals of some numbers. -/
def Numbered (cs : List Char) (values : List Value) (rest : List Char) : Prop :=
  ∃ front, numerals cs = front ++ numerals rest ∧ List.Forall₂ Numeral.Denotes front values

namespace Numbered

variable {cs mid rest : List Char} {values others : List Value}

theorem none (same : numerals cs = numerals rest) : Numbered cs [] rest := ⟨[], same, .nil⟩

theorem trans (first : Numbered cs values mid) (second : Numbered mid others rest) :
    Numbered cs (values ++ others) rest := by
  obtain ⟨front, here, denoted⟩ := first
  obtain ⟨back, there, others_denoted⟩ := second
  refine ⟨front ++ back, ?_, List.rel_append denoted others_denoted⟩
  rw [here, there, List.append_assoc]

theorem after (same : numerals cs = numerals mid) (h : Numbered mid values rest) :
    Numbered cs values rest := by
  obtain ⟨front, here, denoted⟩ := h
  exact ⟨front, same.trans here, denoted⟩

theorem before (h : Numbered cs values mid) (same : numerals mid = numerals rest) :
    Numbered cs values rest := by
  obtain ⟨front, here, denoted⟩ := h
  exact ⟨front, same ▸ here, denoted⟩

end Numbered

theorem numbered_number {cs rest : List Char} {v : Value} (read : ReadsNumber cs v rest) :
    Numbered cs (numbers (.literal v)) rest := by
  obtain ⟨found, denoted, number⟩ := read.denotes
  obtain ⟨c, behind, rfl, digit⟩ := read.head
  have numbers_eq : numbers (.literal v) = [v] := by simp [numbers, literals, number]
  rw [numbers_eq]
  refine ⟨[(numeral (c :: behind)).1], ?_, .cons denoted .nil⟩
  rw [numerals_digit digit, found]
  rfl

theorem numbers_of_meaning {w : String} {v : Value} (meaning : literalWord? w = some v) :
    numbers (.literal v) = [] := by
  unfold literalWord? at meaning
  split_ifs at meaning <;>
  · cases meaning
    rfl

def numbersAll (items : List Expr) : List Value := (literalsAll items).filter Value.isNumber

theorem numbers_binary (op : BinaryOp) (left right : Expr) :
    numbers (.binary op left right) = left.numbers ++ right.numbers :=
  List.filter_append _ _

theorem numbersAll_cons (e : Expr) (others : List Expr) :
    numbersAll (e :: others) = e.numbers ++ numbersAll others :=
  List.filter_append _ _

mutual

/-- What is derived has the numerals of its numbers, in the order of the tree. -/
theorem Derives.numbered : ∀ {cs : List Char} {e : Expr} {rest : List Char}, Derives cs e rest →
    Numbered cs e.numbers rest
  | cs, _, _, .blanks behind => behind.numbered.after (skims_numerals.skipBlanks cs).symm
  | _, _, _, .binary first found second => by
    rw [numbers_binary]
    exact first.numbered.trans
      (second.numbered.after (skims_numerals.operator found second.not_stray))
  | _, _, _, .not found operand => operand.numbered.after (skimsWords_numerals.keyword found)
  | _, _, _, .bang operand => operand.numbered.after (skims_numerals.mark (by decide))
  | _, _, _, .minus operand => operand.numbered.after (skims_numerals.mark (by decide))
  | _, _, _, .paren inside closed =>
    (inside.numbered.after (skims_numerals.mark (by decide))).before
      (skims_numerals.close (.inl rfl) closed)
  | _, _, _, .array inside => (inside.numbered (.inr rfl)).after (skims_numerals.mark (by decide))
  | _, _, _, .string quoted text => .none (numerals_quoted quoted text)
  | _, _, _, .number read => numbered_number read
  | _, _, _, .meant word single meaning => by
    rw [numbers_of_meaning meaning]
    exact .none (skimsWords_numerals.path word single)
  | _, _, _, .name word _ dotted _ _ => .none (skimsWords_numerals.path word dotted)
  | _, _, _, .call word single _ _ opened inside =>
    (inside.numbered (.inl rfl)).after
      ((skimsWords_numerals.path word single).trans (skims_numerals.token opened (by decide)))

theorem DerivesItems.numbered : ∀ {close : Char} {cs : List Char} {items : List Expr}
    {rest : List Char}, DerivesItems close cs items rest → close = ')' ∨ close = ']' →
      Numbered cs (numbersAll items) rest
  | _, _, _, _, .nil closed, closes => .none (skims_numerals.close closes closed)
  | _, _, _, _, .cons first more closed, closes => by
    rw [numbersAll_cons]
    exact (first.numbered.trans more.numbered).before (skims_numerals.close closes closed)

theorem DerivesMore.numbered : ∀ {cs : List Char} {items : List Expr} {rest : List Char},
    DerivesMore cs items rest → Numbered cs (numbersAll items) rest
  | _, _, _, .nil _ => .none rfl
  | _, _, _, .cons comma first more => by
    rw [numbersAll_cons]
    exact (first.numbered.trans more.numbered).after (skims_numerals.token comma (by decide))

end

end Parser

/-- The numerals of a text that can be read denote the numbers of its tree, in the same order. -/
theorem denotes_of_parse {source : String} {e : Expr} (h : parse source = .ok e) :
    List.Forall₂ Numeral.Denotes (Parser.numerals source.toList) e.numbers := by
  obtain ⟨rest, derived, ended⟩ := derives_of_parse h
  obtain ⟨front, here, denoted⟩ := derived.numbered
  have nothing : Parser.numerals rest = [] := by
    rw [← Parser.skims_numerals.skipBlanks rest, ended, Parser.numerals]
  rw [here, nothing, List.append_nil]
  exact denoted

theorem denoted_of_parse {source : String} {e : Expr} (h : parse source = .ok e) {v : Value}
    (mem : v ∈ e.numbers) : ∃ numeral, Numeral.Denotes numeral v := by
  have aligned := denotes_of_parse h
  obtain ⟨i, there⟩ := List.get_of_mem mem
  subst there
  have paired : i < (Parser.numerals source.toList).length := by
    rw [aligned.length_eq]
    exact i.isLt
  exact ⟨_, aligned.get paired i.isLt⟩

theorem finite_or_infinite_of_parse {source : String} {e : Expr} (h : parse source = .ok e)
    {x : Binary64} (mem : .float x ∈ e.literals) :
    x.isFinite = true ∨ (Value.float x).isInfinite = true := by
  obtain ⟨_, denoted⟩ := denoted_of_parse h (List.mem_filter.mpr ⟨mem, rfl⟩)
  cases bounded : (Value.float x).isInfinite with
  | true => exact .inr rfl
  | false => exact .inl (denoted.isFinite bounded)

mutual

/-- What the text of a tree is read as. Infinity is printed as a word, which is read as a variable. -/
def printed : Expr → Expr
  | literal v => if v.isInfinite then name "inf" [] else literal v
  | array items => array (printedAll items)
  | name root keys => name root keys
  | unary op operand => unary op (printed operand)
  | binary op left right => binary op (printed left) (printed right)
  | call function args => call function (printedAll args)

def printedAll : List Expr → List Expr
  | [] => []
  | e :: rest => printed e :: printedAll rest

end

theorem eq_of_isInfinite {v : Value} (infinite : v.isInfinite = true) : v = .float (.infinity false) := by
  cases v with
  | float x => rw [eq_of_beq infinite]
  | _ => cases infinite

theorem mem_printedAll {items : List Expr} {e : Expr} (mem : e ∈ printedAll items) :
    ∃ item ∈ items, e = item.printed := by
  induction items with
  | nil => cases mem
  | cons first rest ih =>
    rcases List.mem_cons.mp mem with rfl | later
    · exact ⟨first, List.mem_cons_self, rfl⟩
    · obtain ⟨item, listed, same⟩ := ih later
      exact ⟨item, List.mem_cons_of_mem _ listed, same⟩

mutual

theorem spell_printed : ∀ e : Expr, spell e.printed = spell e
  | literal v => by
    rw [printed]
    split
    · rename_i infinite
      rw [eq_of_isInfinite infinite]
      decide
    · rfl
  | array items => by rw [printed, spell, spell, spellAll_printed items]
  | name _ _ => by rw [printed]
  | unary _ operand => by rw [printed, spell, spell, spell_printed operand]
  | binary _ left right => by rw [printed, spell, spell, spell_printed left, spell_printed right]
  | call _ args => by rw [printed, spell, spell, spellAll_printed args]

theorem spellAll_printed : ∀ items : List Expr, spellAll (printedAll items) = spellAll items
  | [] => rfl
  | e :: rest => by rw [printedAll, spellAll, spellAll, spell_printed e, spellMore_printed rest]

theorem spellMore_printed : ∀ items : List Expr, spellMore (printedAll items) = spellMore items
  | [] => rfl
  | e :: rest => by rw [printedAll, spellMore, spellMore, spell_printed e, spellMore_printed rest]

end

mutual

theorem literals_printed : ∀ e : Expr, e.printed.literals = e.literals.filter fun v => !v.isInfinite
  | literal v => by
    rw [printed]
    split
    · rename_i infinite
      simp [literals, infinite]
    · rename_i bounded
      simp [literals, bounded]
  | array items => literalsAll_printed items
  | name _ _ => rfl
  | unary _ operand => literals_printed operand
  | binary _ left right => by
    rw [printed, literals, literals, List.filter_append, literals_printed left,
      literals_printed right]
  | call _ args => literalsAll_printed args

theorem literalsAll_printed : ∀ items : List Expr,
    literalsAll (printedAll items) = (literalsAll items).filter fun v => !v.isInfinite
  | [] => rfl
  | e :: rest => by
    rw [printedAll, literalsAll, literalsAll, List.filter_append, literals_printed e,
      literalsAll_printed rest]

end

mutual

theorem printed_eq_self : ∀ e : Expr, (∀ v ∈ e.literals, v.isInfinite = false) → e.printed = e
  | literal v, bounded => by simp [printed, bounded v (by simp [literals])]
  | array items, bounded => by rw [printed, printedAll_eq_self items bounded]
  | name _ _, _ => rfl
  | unary _ operand, bounded => by rw [printed, printed_eq_self operand bounded]
  | binary _ left right, bounded => by
    obtain ⟨left_bounded, right_bounded⟩ := List.forall_mem_append.mp bounded
    rw [printed, printed_eq_self left left_bounded, printed_eq_self right right_bounded]
  | call _ args, bounded => by rw [printed, printedAll_eq_self args bounded]

theorem printedAll_eq_self : ∀ items : List Expr, (∀ v ∈ literalsAll items, v.isInfinite = false) →
    printedAll items = items
  | [], _ => rfl
  | e :: rest, bounded => by
    obtain ⟨first, others⟩ := List.forall_mem_append.mp bounded
    rw [printedAll, printed_eq_self e first, printedAll_eq_self rest others]

end

theorem numbers_printed (e : Expr) :
    e.printed.numbers = e.numbers.filter fun v => !v.isInfinite := by
  rw [numbers, literals_printed, List.filter_comm]
  rfl

theorem printed_eq_iff {e : Expr} : e.printed = e ↔ ∀ v ∈ e.numbers, v.isInfinite = false := by
  constructor
  · intro same v mem
    have kept := numbers_printed e
    rw [same] at kept
    have all := List.filter_eq_self.mp kept.symm v mem
    simpa using all
  · intro bounded
    apply printed_eq_self
    intro v mem
    cases number : v.isNumber with
    | true => exact bounded v (List.mem_filter.mpr ⟨mem, number⟩)
    | false => cases v <;> first | rfl | cases number

theorem readable_printed {e : Expr} (readable : Readable e) : Readable e.printed := by
  induction readable with
  | null => exact .null
  | bool b => exact .bool b
  | int unsigned => exact .int unsigned
  | float unsigned =>
    rw [printed]
    split
    · exact .name (by decide) (by decide) (by decide) (by simp)
    · exact .float unsigned
  | string s => exact .string s
  | array _ ih =>
    apply Readable.array
    intro e mem
    obtain ⟨item, listed, rfl⟩ := mem_printedAll mem
    exact ih item listed
  | name word free single words => exact .name word free single words
  | unary op _ ih => exact .unary op ih
  | binary op _ _ left_ih right_ih => exact .binary op left_ih right_ih
  | call word meant unreserved _ ih =>
    apply Readable.call word meant unreserved
    intro e mem
    obtain ⟨item, listed, rfl⟩ := mem_printedAll mem
    exact ih item listed

/-- The text of a tree that was read is read as the tree with infinity taken for a word. -/
theorem parse_spell_printed {source : String} {e : Expr} (h : parse source = .ok e) :
    parse (String.ofList (spell e)) = .ok e.printed := by
  rw [← spell_printed]
  apply parse_spell (readable_printed (readable_of_parse h))
  intro x mem
  rw [literals_printed, List.mem_filter] at mem
  rcases finite_or_infinite_of_parse h mem.1 with finite | infinite
  · exact finite
  · simp [infinite] at mem

/-- A number that a numeral denotes is printed as a numeral of its own, unless it is infinite. -/
theorem text_of_denotes {cs : List Char} {v : Value} (denoted : Numeral.Denotes cs v)
    (bounded : v.isInfinite = false) :
    Numeral.Denotes v.text.toList v ∧ parse v.text = .ok (literal v) := by
  have back (readable : Readable (literal v))
      (finite : ∀ x, Value.float x ∈ (literal v).literals → x.isFinite = true) :
      parse v.text = .ok (literal v) := by
    have read := parse_spell readable finite
    rwa [spell, String.ofList_toList] at read
  cases denoted with
  | @whole _ k n spelled exact =>
    have unsigned : 0 ≤ n.toInt := exact ▸ Int.natCast_nonneg k
    obtain ⟨text, read⟩ := Numeral.text_int64 unsigned
    constructor
    · rw [Value.text, text]
      exact Numeral.denotes_whole (Numeral.isDigit_toDigits _) read
    · exact back (.int unsigned) (by simp [literals])
  | @decimal whole fraction k x some_whole some_fraction spelled rounded =>
    cases rounded with
    | infinite _ => cases bounded
    | nearest _ finite unsigned _ =>
      obtain ⟨before, after, layout⟩ := Binary64.spelled finite unsigned
      constructor
      · rw [Value.text, layout.text]
        exact Numeral.denotes_decimal layout.some_whole layout.some_fraction layout.whole_digits
          layout.fraction_digits layout.read
      · exact back (.float unsigned) (by simp [literals, finite])

/-- The numbers of a tree that was read are what the numerals of the text denote, in the same order.
Each is printed as a numeral that denotes it and is read as it, but infinity, which stands for the
decimals beyond all finite numbers, is printed as a word and read as a variable. So the printed text
has numerals for the finite numbers only, and is read as the same tree exactly when all are finite. -/
theorem numbers_of_parse {source : String} {e : Expr} (parsed : parse source = .ok e)
    (functions : Entries Function) :
    List.Forall₂ Numeral.Denotes (Parser.numerals source.toList) e.numbers ∧
    (∀ v ∈ e.numbers, v.isInfinite = false → ∃ text, (literal v).compile functions = .ok text ∧
      Numeral.Denotes text.toList v ∧ parse text = .ok (literal v)) ∧
    (∀ v ∈ e.numbers, v.isInfinite = true → (literal v).compile functions = .ok "inf" ∧
      parse "inf" = .ok (name "inf" [])) ∧
    (Plain functions e.references → ∃ text, e.compile functions = .ok text ∧
      parse text = .ok e.printed ∧
      List.Forall₂ Numeral.Denotes (Parser.numerals text.toList)
        (e.numbers.filter fun v => !v.isInfinite)) ∧
    (e.printed = e ↔ ∀ v ∈ e.numbers, v.isInfinite = false) := by
  have aligned := denotes_of_parse parsed
  refine ⟨aligned, ?_, ?_, ?_, printed_eq_iff⟩
  · intro v mem bounded
    obtain ⟨_, denoted⟩ := denoted_of_parse parsed mem
    exact ⟨v.text, rfl, text_of_denotes denoted bounded⟩
  · intro v _ infinite
    rw [eq_of_isInfinite infinite]
    exact ⟨by rfl, by rfl⟩
  · intro plain
    have back := parse_spell_printed parsed
    refine ⟨_, compile_eq_spell e plain, back, ?_⟩
    rw [← numbers_printed]
    exact denotes_of_parse back

/-- Digits in words and in strings are no numerals. -/
def mixedSource : String := "a1.b2 - 12 * [' 3 ', 1.50]"

theorem numbers_of_parse_mixed : ∃ e, parse mixedSource = .ok e ∧
    List.Forall₂ Numeral.Denotes ["12".toList, "1.50".toList] e.numbers ∧
    ∃ text, e.compile [] = .ok text ∧ parse text = .ok e.printed := by
  obtain ⟨e, parsed⟩ := Outcome.exists_of_isOk (x := parse mixedSource) (by decide +kernel)
  have calls : (parse mixedSource).toOption.map references = some [.variable "a1"] := by
    decide +kernel
  have found : Parser.numerals mixedSource.toList = ["12".toList, "1.50".toList] := by decide +kernel
  have plain : Plain [] e.references := by
    intro f mem
    rw [parsed] at calls
    rw [Option.some.inj calls] at mem
    simp at mem
  obtain ⟨aligned, _, _, printed, _⟩ := numbers_of_parse parsed []
  obtain ⟨text, compiled, back, _⟩ := printed plain
  exact ⟨e, parsed, found ▸ aligned, text, compiled, back⟩

def farDigits : List Char := '1' :: List.replicate 309 '0'

/-- A decimal beyond all finite numbers. -/
def farSource : String := String.ofList (farDigits ++ '.' :: ['0'])

theorem parse_far : parse farSource = .ok (literal (.float (.infinity false))) := by
  have written : Writes 0 (literal (.float (.infinity false))) (farDigits ++ '.' :: ['0']) :=
    .float 0 (by decide) (by decide) (List.all_eq_true.mp (by decide +kernel))
      (List.all_eq_true.mp (by decide)) (by decide +kernel)
  have read := written.run .nil .nil
  rw [List.nil_append, List.append_nil] at read
  exact parse_of_run read .nil

/-- A decimal out of range is read all the same, as infinity, and what is printed for it is no
numeral. -/
theorem not_finite_of_parse :
    (¬ ∀ (source : String) (e : Expr), parse source = .ok e →
      ∀ x, Value.float x ∈ e.literals → x.isFinite = true) ∧
    parse farSource = .ok (literal (.float (.infinity false))) ∧
    (∀ functions, (literal (.float (.infinity false))).compile functions = .ok "inf") ∧
    parse "inf" = .ok (name "inf" []) := by
  refine ⟨fun finite => ?_, parse_far, fun functions => by rfl, by rfl⟩
  have bounded := finite _ _ parse_far _ List.mem_cons_self
  exact absurd bounded (by decide)

end Expr

end RuleRegistry
