import RuleRegistry.Proofs.Reading

/-!
The texts of a tree. A binary operator stands at its own level or in parentheses, the right operand
stands one level higher than the operator, and there are blanks wherever they make no difference.
Every text of a tree is read as this tree.
-/

namespace RuleRegistry.Expr

open RuleRegistry.Expr.Parser

/-- One blank or more. -/
def Spaced (cs : List Char) : Prop := cs ≠ [] ∧ Blanks cs

/-- What a character stands for after a backslash. -/
def escapes : List (Char × Char) :=
  [('"', '"'), ('\'', '\''), ('\\', '\\'), ('n', '\n'), ('t', '\t')]

/-- The characters of a text as they stand between two quotes. -/
inductive WritesText (quote : Char) : List Char → List Char → Prop
  | nil : WritesText quote [] []
  | plain {c : Char} {s cs : List Char} (other : c ≠ quote) (slash : c ≠ '\\')
      (rest : WritesText quote s cs) : WritesText quote (c :: s) (c :: cs)
  | escaped {c e : Char} {s cs : List Char} (meant : (e, c) ∈ escapes) (rest : WritesText quote s cs) :
      WritesText quote (c :: s) ('\\' :: e :: cs)
  | slash {e : Char} {s cs : List Char} (free : e ∉ escapes.map Prod.fst) (rest : WritesText quote s cs) :
      WritesText quote ('\\' :: e :: s) ('\\' :: e :: cs)

def symbols : List (String × BinaryOp) :=
  [("||", .or), ("&&", .and), ("==", .compare .eq), ("!=", .compare .ne), ("<=", .compare .le),
    (">=", .compare .ge), ("<", .compare .lt), (">", .compare .gt), ("+", .add), ("-", .sub),
    ("~", .concat), ("*", .mul), ("/", .div), ("%", .mod)]

def operatorWords : List (String × BinaryOp) := [("or", .or), ("and", .and), ("in", .within)]

/-- A binary operator with the blanks around it. -/
inductive WritesOperator : BinaryOp → List Char → Prop
  | symbol {op : BinaryOp} {s : String} {before after : List Char} (meant : (s, op) ∈ symbols)
      (blank_before : Blanks before) (blank_after : Blanks after) :
      WritesOperator op (before ++ (s.toList ++ after))
  | word {op : BinaryOp} {w : String} {before after : List Char} (meant : (w, op) ∈ operatorWords)
      (blank_before : Spaced before) (blank_after : Spaced after) :
      WritesOperator op (before ++ (w.toList ++ after))
  | notWithin {before between after : List Char} (blank_before : Spaced before)
      (blank_between : Spaced between) (blank_after : Spaced after) :
      WritesOperator .notWithin
        (before ++ ("not".toList ++ (between ++ ("in".toList ++ after))))

/-- A prefix operator with the blanks after it. -/
inductive WritesPrefix : UnaryOp → List Char → Prop
  | word {after : List Char} (blank : Spaced after) : WritesPrefix .not ("not".toList ++ after)
  | bang {after : List Char} (blank : Blanks after) : WritesPrefix .not ('!' :: after)
  | minus {after : List Char} (blank : Blanks after) : WritesPrefix .neg ('-' :: after)

mutual

/-- A text of a tree at the place of a level. Parentheses may stand around every tree, and must stand
around a binary operator whose level is lower than that of the place. -/
inductive Writes : Nat → Expr → List Char → Prop
  | null (n : Nat) : Writes n (.literal .null) "null".toList
  | true (n : Nat) : Writes n (.literal (.bool true)) "true".toList
  | false (n : Nat) : Writes n (.literal (.bool false)) "false".toList
  | int (n : Nat) {k : Int64} {digits : List Char} (some_digit : digits ≠ [])
      (all : ∀ c ∈ digits, Numeral.isDigit c = true)
      (value : (Nat.ofDigitChars 10 digits 0 : Int) = k.toInt) : Writes n (.literal (.int k)) digits
  | float (n : Nat) {x : Binary64} {whole fraction : List Char} (some_whole : whole ≠ [])
      (some_fraction : fraction ≠ []) (whole_digits : ∀ c ∈ whole, Numeral.isDigit c = true)
      (fraction_digits : ∀ c ∈ fraction, Numeral.isDigit c = true)
      (value : Numeral.readBinary64 (whole ++ '.' :: fraction) = some x) :
      Writes n (.literal (.float x)) (whole ++ '.' :: fraction)
  | string (n : Nat) {quote : Char} {s cs : List Char} (quoted : quote = '"' ∨ quote = '\'')
      (text : WritesText quote s cs) :
      Writes n (.literal (.string (String.ofList s))) (quote :: (cs ++ [quote]))
  | name (n : Nat) {root : String} {keys : List String} (word : IsWord root.toList)
      (free : root ≠ "not") (single : keys = [] → literalWord? root = none ∧ root ∉ reserved)
      (words : ∀ k ∈ keys, IsWord k.toList) :
      Writes n (.name root keys) (Text.dotted (root :: keys)).toList
  | array (n : Nat) {items : List Expr} {cs : List Char} (inside : WritesItems items cs) :
      Writes n (.array items) ('[' :: (cs ++ [']']))
  | call (n : Nat) {function : String} {args : List Expr} {before cs : List Char}
      (word : IsWord function.toList) (meant : literalWord? function = none)
      (unreserved : function ∉ reserved) (blank : Blanks before) (inside : WritesItems args cs) :
      Writes n (.call function args) (function.toList ++ (before ++ '(' :: (cs ++ [')'])))
  | unary (n : Nat) {op : UnaryOp} {e : Expr} {mark cs : List Char} (marked : WritesPrefix op mark)
      (operand : Writes levels e cs) : Writes n (.unary op e) (mark ++ cs)
  | binary {n : Nat} {op : BinaryOp} {left right : Expr} {ls mark rs : List Char}
      (loose : n ≤ levelOf op) (first : Writes (levelOf op) left ls) (marked : WritesOperator op mark)
      (second : Writes (levelOf op + 1) right rs) :
      Writes n (.binary op left right) (ls ++ (mark ++ rs))
  | paren (n : Nat) {e : Expr} {before cs after : List Char} (blank_before : Blanks before)
      (inside : Writes 0 e cs) (blank_after : Blanks after) :
      Writes n e ('(' :: (before ++ (cs ++ (after ++ [')']))))

/-- What stands between the brackets of an array or a call. -/
inductive WritesItems : List Expr → List Char → Prop
  | nil {before : List Char} (blank : Blanks before) : WritesItems [] before
  | cons {e : Expr} {others : List Expr} {before cs more : List Char} (blank : Blanks before)
      (first : Writes 0 e cs) (rest : WritesMore others more) :
      WritesItems (e :: others) (before ++ (cs ++ more))

/-- What stands after an item. -/
inductive WritesMore : List Expr → List Char → Prop
  | nil {before : List Char} (blank : Blanks before) : WritesMore [] before
  | cons {e : Expr} {others : List Expr} {before after cs more : List Char}
      (blank_before : Blanks before) (blank_after : Blanks after) (first : Writes 0 e cs)
      (rest : WritesMore others more) :
      WritesMore (e :: others) (before ++ ',' :: (after ++ (cs ++ more)))

end

/-- The text begins with something to see that does not go on an operator. -/
def Shows (cs : List Char) : Prop := ∃ c rest, cs = c :: rest ∧ isBlankAscii c = false ∧ c ≠ '='

theorem Shows.append {cs : List Char} (h : Shows cs) (rest : List Char) : Shows (cs ++ rest) := by
  obtain ⟨c, behind, rfl, shown⟩ := h
  exact ⟨c, behind ++ rest, rfl, shown⟩

theorem Shows.skip {cs : List Char} (h : Shows cs) : skipBlanks cs = cs := by
  obtain ⟨c, behind, rfl, shown, _⟩ := h
  exact skipBlanks_shown shown behind

theorem shows_of_digits {digits : List Char} (some_digit : digits ≠ [])
    (all : ∀ c ∈ digits, Numeral.isDigit c = true) : Shows digits := by
  obtain ⟨c, behind, rfl⟩ := List.exists_cons_of_ne_nil some_digit
  have digit := all c List.mem_cons_self
  refine ⟨c, behind, rfl, not_blank (.inr digit), ?_⟩
  rintro rfl
  cases digit

theorem shows_of_word {w : List Char} (word : IsWord w) : Shows w := by
  obtain ⟨c, behind, rfl, start, _⟩ := word
  refine ⟨c, behind, rfl, not_blank (.inl start), ?_⟩
  rintro rfl
  cases start

theorem WritesPrefix.shows {op : UnaryOp} {mark : List Char} (h : WritesPrefix op mark) :
    Shows mark := by
  cases h with
  | word _ => exact ⟨'n', _, rfl, by decide⟩
  | bang _ => exact ⟨'!', _, rfl, by decide⟩
  | minus _ => exact ⟨'-', _, rfl, by decide⟩

theorem Shows.ne_nil {cs : List Char} (h : Shows cs) : cs ≠ [] := by
  obtain ⟨c, behind, rfl, _⟩ := h
  simp

theorem Spaced.apart {cs : List Char} (h : Spaced cs) (rest : List Char) : Apart (cs ++ rest) :=
  .behind h.2 fun bare => absurd bare h.1

theorem operator?_symbol {s : String} {op : BinaryOp} (meant : (s, op) ∈ symbols) {next : List Char}
    (free : ∀ rest, next ≠ '=' :: rest) {k : Nat} (below : k < levels) :
    operator? k (s.toList ++ next) = if k = levelOf op then some (op, next) else none := by
  have equals : symbol? ['='] next = none := by
    cases next with
    | nil => rfl
    | cons c rest =>
      have other : '=' ≠ c := fun same => free rest (by rw [same])
      simp [symbol?, other]
  have less : operator? 2 ('<' :: next) = some (.compare .lt, next) := by
    simp [operator?, skipBlanks, isBlankAscii, operatorsAt, firstOperator, symbolSpelling,
      Spelling.after?, symbol?, equals]
  have greater : operator? 2 ('>' :: next) = some (.compare .gt, next) := by
    simp [operator?, skipBlanks, isBlankAscii, operatorsAt, firstOperator, symbolSpelling,
      Spelling.after?, symbol?, equals]
  simp only [symbols, List.mem_cons, Prod.mk.injEq, List.not_mem_nil, or_false] at meant
  rcases meant with ⟨rfl, rfl⟩ | ⟨rfl, rfl⟩ | ⟨rfl, rfl⟩ | ⟨rfl, rfl⟩ | ⟨rfl, rfl⟩ | ⟨rfl, rfl⟩ |
    ⟨rfl, rfl⟩ | ⟨rfl, rfl⟩ | ⟨rfl, rfl⟩ | ⟨rfl, rfl⟩ | ⟨rfl, rfl⟩ | ⟨rfl, rfl⟩ | ⟨rfl, rfl⟩ |
    ⟨rfl, rfl⟩ <;>
    rcases lt_levels below with rfl | rfl | rfl | rfl | rfl | rfl <;>
    first | rfl | exact less | exact greater

theorem operator?_word {w : String} {op : BinaryOp} (meant : (w, op) ∈ operatorWords)
    {next : List Char} (stop : ∀ c rest, next = c :: rest → isWordChar c = false) {k : Nat}
    (below : k < levels) :
    operator? k (w.toList ++ next) = if k = levelOf op then some (op, next) else none := by
  have word : IsWord w.toList := by
    simp only [operatorWords, List.mem_cons, Prod.mk.injEq, List.not_mem_nil, or_false] at meant
    rcases meant with ⟨rfl, rfl⟩ | ⟨rfl, rfl⟩ | ⟨rfl, rfl⟩ <;> decide
  have found := fun expected => keyword?_append word expected stop
  simp only [operatorWords, List.mem_cons, Prod.mk.injEq, List.not_mem_nil, or_false] at meant
  rcases meant with ⟨rfl, rfl⟩ | ⟨rfl, rfl⟩ | ⟨rfl, rfl⟩ <;>
    rcases lt_levels below with rfl | rfl | rfl | rfl | rfl | rfl <;>
    simp [operator?, skipBlanks, isBlankAscii, operatorsAt, firstOperator, symbolSpelling,
      wordSpelling, Spelling.after?, symbol?, wordsAfter, levelOf] at found ⊢ <;>
    simp [found]

theorem operator?_notWithin {between : List Char} (spaced : Spaced between) {next : List Char}
    (stop : ∀ c rest, next = c :: rest → isWordChar c = false) {k : Nat} (below : k < levels) :
    operator? k ("not".toList ++ (between ++ ("in".toList ++ next))) =
      if k = levelOf .notWithin then some (.notWithin, next) else none := by
  have found := fun expected =>
    keyword?_append (show IsWord "not".toList by decide) expected
      (spaced.apart ("in".toList ++ next)).word
  have second := keyword?_append (show IsWord "in".toList by decide) "in".toList stop
  have skipped : skipBlanks (between ++ ("in".toList ++ next)) = "in".toList ++ next :=
    skipBlanks_append spaced.2 _
  rcases lt_levels below with rfl | rfl | rfl | rfl | rfl | rfl <;>
    simp [operator?, skipBlanks, isBlankAscii, operatorsAt, firstOperator, symbolSpelling,
      wordSpelling, Spelling.after?, symbol?, wordsAfter, levelOf] at found second skipped ⊢ <;>
    simp [found, second, skipped]

/-- What the reader finds at an operator before an operand: on the operator's own level the operator
and the text after it, on every other level nothing. -/
theorem WritesOperator.found {op : BinaryOp} {mark : List Char} (h : WritesOperator op mark) :
    ∃ after, Blanks after ∧ ∀ next, Shows next → ∀ k < levels, operator? k (mark ++ next) =
      if k = levelOf op then some (op, after ++ next) else none := by
  cases h with
  | @symbol _ s before after meant blank_before blank_after =>
    refine ⟨after, blank_after, fun next shows k below => ?_⟩
    have free : ∀ rest, after ++ next ≠ '=' :: rest := by
      intro rest eq
      cases after with
      | nil =>
        obtain ⟨c, behind, rfl, _, other⟩ := shows
        cases eq
        exact other rfl
      | cons d more =>
        cases eq
        cases blank_after '=' List.mem_cons_self
    rw [List.append_assoc, List.append_assoc, operator?_front blank_before]
    exact operator?_symbol meant free below
  | @word _ w before after meant blank_before blank_after =>
    refine ⟨after, blank_after.2, fun next _ k below => ?_⟩
    rw [List.append_assoc, List.append_assoc, operator?_front blank_before.2]
    exact operator?_word meant (blank_after.apart next).word below
  | @notWithin before between after blank_before blank_between blank_after =>
    refine ⟨after, blank_after.2, fun next _ k below => ?_⟩
    simp only [List.append_assoc]
    rw [operator?_front blank_before.2]
    exact operator?_notWithin blank_between (blank_after.apart next).word below

theorem symbol_start {s : String} {op : BinaryOp} (meant : (s, op) ∈ symbols) :
    ∃ c rest, s.toList = c :: rest ∧ isBlankAscii c = false ∧ c ≠ '(' ∧ isWordChar c = false ∧
      c ≠ '.' := by
  simp only [symbols, List.mem_cons, Prod.mk.injEq, List.not_mem_nil, or_false] at meant
  rcases meant with ⟨rfl, rfl⟩ | ⟨rfl, rfl⟩ | ⟨rfl, rfl⟩ | ⟨rfl, rfl⟩ | ⟨rfl, rfl⟩ | ⟨rfl, rfl⟩ |
    ⟨rfl, rfl⟩ | ⟨rfl, rfl⟩ | ⟨rfl, rfl⟩ | ⟨rfl, rfl⟩ | ⟨rfl, rfl⟩ | ⟨rfl, rfl⟩ | ⟨rfl, rfl⟩ |
    ⟨rfl, rfl⟩ <;>
    exact ⟨_, _, rfl, by decide⟩

theorem word_start {w : String} {op : BinaryOp} (meant : (w, op) ∈ operatorWords) :
    ∃ c rest, w.toList = c :: rest ∧ isBlankAscii c = false ∧ c ≠ '(' := by
  simp only [operatorWords, List.mem_cons, Prod.mk.injEq, List.not_mem_nil, or_false] at meant
  rcases meant with ⟨rfl, rfl⟩ | ⟨rfl, rfl⟩ | ⟨rfl, rfl⟩ <;> exact ⟨_, _, rfl, by decide⟩

theorem WritesOperator.ends {op : BinaryOp} {mark : List Char} (h : WritesOperator op mark)
    (next : List Char) : Ends (mark ++ next) := by
  cases h with
  | @symbol _ s before after meant blank_before blank_after =>
    obtain ⟨c, rest, eq, shown, call, apart⟩ := symbol_start meant
    rw [List.append_assoc, eq]
    exact .of_shown blank_before shown call (fun _ => apart) _
  | @word _ w before after meant blank_before blank_after =>
    obtain ⟨c, rest, eq, shown, call⟩ := word_start meant
    rw [List.append_assoc, eq]
    exact .of_shown blank_before.2 shown call (fun bare => absurd bare blank_before.1) _
  | notWithin blank_before _ _ =>
    rw [List.append_assoc]
    exact .of_shown blank_before.2 (by decide) (by decide) (fun bare => absurd bare blank_before.1) _

theorem WritesOperator.ne_nil {op : BinaryOp} {mark : List Char} (h : WritesOperator op mark) :
    mark ≠ [] := by
  cases h with
  | symbol meant _ _ =>
    obtain ⟨c, rest, eq, _⟩ := symbol_start meant
    simp [eq]
  | word _ blank_before _ => exact List.append_ne_nil_of_left_ne_nil blank_before.1 _
  | notWithin blank_before _ _ => exact List.append_ne_nil_of_left_ne_nil blank_before.1 _

theorem WritesText.reads {quote : Char} {s cs : List Char} (h : WritesText quote s cs)
    (slash : quote ≠ '\\') (rest : List Char) :
    textUntil quote (cs ++ quote :: rest) = .ok (s, rest) := by
  induction h with
  | nil => simp [textUntil.eq_def]
  | plain other plain _ ih =>
    rw [List.cons_append, textUntil.eq_def]
    simp [other, plain, ih, Except.map]
  | @escaped c e s cs meant _ ih =>
    simp only [escapes, List.mem_cons, Prod.mk.injEq, List.not_mem_nil, or_false] at meant
    rcases meant with ⟨rfl, rfl⟩ | ⟨rfl, rfl⟩ | ⟨rfl, rfl⟩ | ⟨rfl, rfl⟩ | ⟨rfl, rfl⟩ <;>
      simp [textUntil, slash.symm, ih, Except.map]
  | @slash e s cs free _ ih =>
    simp only [escapes, List.map_cons, List.map_nil, List.mem_cons, List.not_mem_nil, or_false,
      not_or] at free
    rw [List.cons_append, List.cons_append, textUntil.eq_def]
    simp [slash.symm, ih, Except.map, free]

theorem Writes.shows : ∀ {n : Nat} {e : Expr} {cs : List Char}, Writes n e cs → Shows cs
  | _, _, _, .null _ => ⟨'n', _, rfl, by decide⟩
  | _, _, _, .true _ => ⟨'t', _, rfl, by decide⟩
  | _, _, _, .false _ => ⟨'f', _, rfl, by decide⟩
  | _, _, _, .int _ some_digit all _ => shows_of_digits some_digit all
  | _, _, _, .float _ some_whole _ whole_digits _ _ =>
    (shows_of_digits some_whole whole_digits).append _
  | _, _, _, .string _ quoted _ => ⟨_, _, rfl, by rcases quoted with rfl | rfl <;> decide⟩
  | _, _, _, .name _ word _ _ _ => by
    rw [Text.dotted, String.toList_ofList, List.map_cons, joinSegments_cons]
    exact (shows_of_word word).append _
  | _, _, _, .array _ _ => ⟨'[', _, rfl, by decide⟩
  | _, _, _, .call _ word _ _ _ _ => (shows_of_word word).append _
  | _, _, _, .unary _ marked _ => marked.shows.append _
  | _, _, _, .binary _ first _ _ => first.shows.append _
  | _, _, _, .paren _ _ _ _ => ⟨'(', _, rfl, by decide⟩

section

variable {e : Expr} {cs : List Char} {cost : Nat}

/-- A text that begins neither a word nor a prefix operator is read where it is read below these. -/
theorem readsTight_of_primary {c : Char} {text : List Char} (shown : isBlankAscii c = false)
    (no_word : isWordStart c = false) (bang : c ≠ '!') (minus : c ≠ '-')
    (enough : cost + 14 ≤ 16 * (c :: text).length)
    (read : ∀ rest, Ends rest → Gets (primary · (c :: (text ++ rest))) cost e rest) :
    ReadsTight e (c :: text) := by
  intro front rest blank ends
  have skipped : skipBlanks (front ++ (c :: text ++ rest)) = c :: (text ++ rest) := by
    rw [skipBlanks_append blank]
    exact skipBlanks_shown shown _
  have free := keyword?_of_not_start no_word "not".toList (text ++ rest)
  exact (unary_of_primary skipped free bang minus (read rest ends)).mono (by omega)

theorem readsTight_of_word {w text : List Char} (word : IsWord w) (ne : w ≠ "not".toList)
    (stop : ∀ rest, Ends rest → ∀ c cs, text ++ rest = c :: cs → isWordChar c = false)
    (enough : cost + 15 ≤ 16 * (w ++ text).length)
    (read : ∀ rest, Ends rest → Gets (nameOrCall · (w ++ (text ++ rest))) cost e rest) :
    ReadsTight e (w ++ text) := by
  intro front rest blank ends
  have free : keyword? "not".toList (w ++ (text ++ rest)) = none :=
    (keyword?_append word _ (stop rest ends)).trans (if_neg ne)
  obtain ⟨c, behind, rfl, start, _⟩ := word
  have skipped : skipBlanks (front ++ (c :: behind ++ text ++ rest)) =
      c :: (behind ++ (text ++ rest)) := by
    rw [skipBlanks_append blank, List.append_assoc]
    exact skipBlanks_shown (not_blank (.inl start)) _
  have bang : c ≠ '!' := by
    rintro rfl
    cases start
  have minus : c ≠ '-' := by
    rintro rfl
    cases start
  have found := primary_word start (read rest ends)
  exact (unary_of_primary skipped free bang minus found).mono (by omega)

theorem readsTight_literal {w : String} {v : Value} (word : IsWord w.toList) (ne : w ≠ "not")
    (meant : literalWord? w = some v) : ReadsTight (.literal v) w.toList := by
  have ne_text : w.toList ≠ "not".toList := fun same => ne (String.toList_inj.mp same)
  have length := List.length_pos_iff.mpr (shows_of_word word).ne_nil
  have read : ReadsTight (.literal v) (w.toList ++ []) := by
    refine readsTight_of_word word ne_text (fun rest ends => ends.apart.word) ?_ fun rest ends =>
      nameOrCall_literal word meant ends
    simp only [List.append_nil]
    omega
  rwa [List.append_nil] at read

theorem readsTight_number {v : Value} (some_char : cs ≠ [])
    (digit : ∀ c text, cs = c :: text → Numeral.isDigit c = true)
    (read : ∀ rest, Ends rest → number? (cs ++ rest) = some (.ok (v, rest))) :
    ReadsTight (.literal v) cs := by
  obtain ⟨c, text, rfl⟩ := List.exists_cons_of_ne_nil some_char
  have first := digit c text rfl
  have no_word : isWordStart c = false := by
    cases start : isWordStart c with
    | false => rfl
    | true => cases (not_digit_of_wordStart start).symm.trans first
  have bang : c ≠ '!' := by
    rintro rfl
    cases first
  have minus : c ≠ '-' := by
    rintro rfl
    cases first
  refine readsTight_of_primary (not_blank (.inr first)) no_word bang minus ?_ fun rest ends =>
    primary_number first (read rest ends)
  simp only [List.length_cons]
  omega

theorem readsTight_int {k : Int64} {digits : List Char} (some_digit : digits ≠ [])
    (all : ∀ c ∈ digits, Numeral.isDigit c = true)
    (value : (Nat.ofDigitChars 10 digits 0 : Int) = k.toInt) : ReadsTight (.literal (.int k)) digits := by
  have read : Numeral.readInt64 10 digits = some k := by
    have whole : Numeral.readInt 10 digits = some k.toInt := by
      rw [Numeral.readInt_unsigned all, Numeral.readNat_eq some_digit all, ← value]
      rfl
    rw [Numeral.readInt64, whole]
    exact Numeral.toInt64?_toInt k
  refine readsTight_number some_digit ?_ fun rest ends => number?_int some_digit all read ends
  rintro c text rfl
  exact all c List.mem_cons_self

theorem readsTight_float {x : Binary64} {whole fraction : List Char} (some_whole : whole ≠ [])
    (some_fraction : fraction ≠ []) (whole_digits : ∀ c ∈ whole, Numeral.isDigit c = true)
    (fraction_digits : ∀ c ∈ fraction, Numeral.isDigit c = true)
    (value : Numeral.readBinary64 (whole ++ '.' :: fraction) = some x) :
    ReadsTight (.literal (.float x)) (whole ++ '.' :: fraction) := by
  refine readsTight_number (List.append_ne_nil_of_left_ne_nil some_whole _) ?_ fun rest ends => ?_
  · obtain ⟨d, behind, rfl⟩ := List.exists_cons_of_ne_nil some_whole
    rintro c text ⟨⟩
    exact whole_digits d List.mem_cons_self
  · rw [List.append_assoc]
    exact number?_float some_whole some_fraction whole_digits fraction_digits value ends

theorem readsTight_string {quote : Char} {s text : List Char} (quoted : quote = '"' ∨ quote = '\'')
    (written : WritesText quote s text) :
    ReadsTight (.literal (.string (String.ofList s))) (quote :: (text ++ [quote])) := by
  have mark : isBlankAscii quote = false ∧ isWordStart quote = false ∧ quote ≠ '!' ∧ quote ≠ '-' ∧
      quote ≠ '\\' := by
    rcases quoted with rfl | rfl <;> decide
  obtain ⟨shown, no_word, bang, minus, slash⟩ := mark
  have read : ∀ rest, Ends rest → Gets (primary · (quote :: (text ++ [quote] ++ rest))) 1
      (.literal (.string (String.ofList s))) rest := by
    intro rest _
    rw [List.append_assoc]
    exact primary_string quoted (written.reads slash rest)
  refine readsTight_of_primary shown no_word bang minus ?_ read
  simp only [List.length_cons]
  omega

theorem readsTight_name {root : String} {keys : List String} (word : IsWord root.toList)
    (free : root ≠ "not") (single : keys = [] → literalWord? root = none ∧ root ∉ reserved)
    (words : ∀ k ∈ keys, IsWord k.toList) :
    ReadsTight (.name root keys) (Text.dotted (root :: keys)).toList := by
  have ne : root.toList ≠ "not".toList := fun same => free (String.toList_inj.mp same)
  have words_spelled : ∀ k ∈ keys.map String.toList, IsWord k := by
    intro k listed
    obtain ⟨key, mem, rfl⟩ := List.mem_map.mp listed
    exact words key mem
  have same : (keys.map String.toList).map String.ofList = keys := by simp
  have read : ∀ rest, Ends rest →
      Gets (nameOrCall · (root.toList ++ (keysText (keys.map String.toList) ++ rest))) 1
        (.name root keys) rest := by
    intro rest ends
    have bare := fun none : keys.map String.toList = [] => single (List.map_eq_nil_iff.mp none)
    have found := nameOrCall_name word (by simpa using bare) words_spelled ends
    rwa [String.ofList_toList, same] at found
  rw [Text.dotted, String.toList_ofList, List.map_cons, joinSegments_cons]
  refine readsTight_of_word word ne (fun rest ends => keysText_stops ends.apart) ?_ read
  have length := List.length_pos_iff.mpr (shows_of_word word).ne_nil
  simp only [List.length_append]
  omega

theorem readsTight_array {items : List Expr}
    (read : ∀ rest, Gets (arguments · ']' (cs ++ ']' :: rest)) (16 * cs.length + 12) items rest) :
    ReadsTight (.array items) ('[' :: (cs ++ [']'])) := by
  have found : ∀ rest, Ends rest → Gets (primary · ('[' :: (cs ++ [']'] ++ rest)))
      (16 * cs.length + 12 + 1) (.array items) rest := by
    intro rest _
    rw [List.append_assoc]
    exact primary_array (read rest)
  refine readsTight_of_primary (by decide) (by decide) (by decide) (by decide) ?_ found
  simp only [List.length_cons, List.length_append, List.length_nil]
  omega

theorem readsTight_call {function : String} {args : List Expr} {before : List Char}
    (word : IsWord function.toList) (meant : literalWord? function = none)
    (unreserved : function ∉ reserved) (blank : Blanks before)
    (read : ∀ rest, Gets (arguments · ')' (cs ++ ')' :: rest)) (16 * cs.length + 12) args rest) :
    ReadsTight (.call function args) (function.toList ++ (before ++ '(' :: (cs ++ [')']))) := by
  have ne : function.toList ≠ "not".toList := by
    intro same
    rw [String.toList_inj.mp same] at unreserved
    exact unreserved (by decide)
  have text : ∀ rest, before ++ '(' :: (cs ++ [')']) ++ rest = before ++ '(' :: (cs ++ ')' :: rest) := by
    simp
  have found : ∀ rest, Ends rest →
      Gets (nameOrCall · (function.toList ++ (before ++ '(' :: (cs ++ [')']) ++ rest)))
        (16 * cs.length + 12 + 1) (.call function args) rest := by
    intro rest _
    rw [text]
    exact nameOrCall_call word meant unreserved blank (read rest)
  have apart : ∀ rest, ∀ c more, before ++ '(' :: (cs ++ [')']) ++ rest = c :: more →
      isWordChar c = false := by
    intro rest
    rw [text]
    exact (Apart.bracket blank _).word
  refine readsTight_of_word word ne (fun rest _ => apart rest) ?_ found
  simp only [List.length_append, List.length_cons, List.length_nil]
  omega

theorem readsTight_unary {op : UnaryOp} {mark : List Char} (marked : WritesPrefix op mark)
    (operand : ReadsAt levels e cs) : ReadsTight (.unary op e) (mark ++ cs) := by
  intro front rest blank ends
  have skipped : skipBlanks (front ++ (mark ++ cs ++ rest)) = mark ++ (cs ++ rest) := by
    rw [skipBlanks_append blank, List.append_assoc]
    exact (marked.shows.append _).skip
  cases marked with
  | @word after spaced =>
    have found : keyword? "not".toList (skipBlanks (front ++ ("not".toList ++ after ++ cs ++ rest))) =
        some (after ++ (cs ++ rest)) := by
      rw [skipped, List.append_assoc, keyword?_append (by decide) _ (spaced.apart _).word]
      rfl
    refine (unary_not found (operand.operand spaced.2 ends)).mono ?_
    have three : "not".toList.length = 3 := rfl
    simp only [List.length_append]
    omega
  | bang after_blank =>
    refine (unary_bang skipped (operand.operand after_blank ends)).mono ?_
    simp only [List.cons_append, List.length_cons, List.length_append]
    omega
  | minus after_blank =>
    refine (unary_neg skipped (operand.operand after_blank ends)).mono ?_
    simp only [List.cons_append, List.length_cons, List.length_append]
    omega

theorem readsTight_paren {before after : List Char} (blank_before : Blanks before)
    (inside : ReadsAt 0 e cs) (blank_after : Blanks after) :
    ReadsTight e ('(' :: (before ++ (cs ++ (after ++ [')'])))) := by
  have read : ∀ rest, Ends rest →
      Gets (primary · ('(' :: (before ++ (cs ++ (after ++ [')'])) ++ rest))) (1 + 16 * cs.length + 1) e
        rest := by
    intro rest _
    have closed := inside.expression blank_before (.mark blank_after (.inl rfl) rest)
    have text : before ++ (cs ++ (after ++ [')'])) ++ rest = before ++ (cs ++ (after ++ ')' :: rest)) := by
      simp
    rw [text]
    exact primary_paren closed (skipBlanks_append blank_after _)
  refine readsTight_of_primary (by decide) (by decide) (by decide) (by decide) ?_ read
  simp only [List.length_cons, List.length_append, List.length_nil]
  omega

end

theorem readsAt_binary {op : BinaryOp} {left right : Expr} {ls mark rs : List Char}
    (first : ReadsAt (levelOf op) left ls) (marked : WritesOperator op mark)
    (second : ReadsAt (levelOf op + 1) right rs) (shows : Shows rs) :
    ReadsAt (levelOf op) (.binary op left right) (ls ++ (mark ++ rs)) := by
  obtain ⟨after, blank, found⟩ := marked.found
  exact first.binary second marked.ne_nil blank (fun rest => marked.ends _)
    fun rest => found _ (shows.append rest)

theorem WritesMore.stops {others : List Expr} {more : List Char} (h : WritesMore others more)
    {close : Char} (closes : close = ')' ∨ close = ']') (rest : List Char) :
    Stops (more ++ close :: rest) := by
  cases h with
  | nil blank => exact .mark blank (closes.imp_right .inl) rest
  | cons blank_before _ _ _ =>
    rw [List.append_assoc]
    exact .mark blank_before (.inr (.inr rfl)) _

mutual

theorem Writes.reads : ∀ {n : Nat} {e : Expr} {cs : List Char}, Writes n e cs → n ≤ levels →
    ReadsAt n e cs
  | _, _, _, .null _, le =>
    (readsTight_literal (w := "null") (by decide) (by decide) rfl).at (by decide) le
  | _, _, _, .true _, le =>
    (readsTight_literal (w := "true") (by decide) (by decide) rfl).at (by decide) le
  | _, _, _, .false _, le =>
    (readsTight_literal (w := "false") (by decide) (by decide) rfl).at (by decide) le
  | _, _, _, .int _ some_digit all value, le => (readsTight_int some_digit all value).at some_digit le
  | _, _, _, .float _ some_whole some_fraction whole_digits fraction_digits value, le =>
    (readsTight_float some_whole some_fraction whole_digits fraction_digits value).at
      (List.append_ne_nil_of_left_ne_nil some_whole _) le
  | _, _, _, .string _ quoted text, le =>
    (readsTight_string quoted text).at (List.cons_ne_nil _ _) le
  | n, _, _, .name _ word free single words, le =>
    (readsTight_name word free single words).at (Writes.name n word free single words).shows.ne_nil le
  | _, _, _, .array _ inside, le =>
    (readsTight_array (inside.reads (.inr rfl))).at (List.cons_ne_nil _ _) le
  | _, _, _, .call _ word meant unreserved blank inside, le =>
    (readsTight_call word meant unreserved blank (inside.reads (.inl rfl))).at
      ((shows_of_word word).append _).ne_nil le
  | _, _, _, .unary _ marked operand, le =>
    (readsTight_unary marked (operand.reads (Nat.le_refl levels))).at
      (marked.shows.append _).ne_nil le
  | _, _, _, .binary loose first marked second, _ =>
    have own := levelOf_lt _
    (readsAt_binary (first.reads (Nat.le_of_lt own)) marked (second.reads own) second.shows).down
      (first.shows.append _).ne_nil (Nat.le_of_lt own) loose
  | _, _, _, .paren _ blank_before inside blank_after, le =>
    (readsTight_paren blank_before (inside.reads (Nat.zero_le _)) blank_after).at
      (List.cons_ne_nil _ _) le

theorem WritesItems.reads : ∀ {items : List Expr} {cs : List Char}, WritesItems items cs →
    ∀ {close : Char}, close = ')' ∨ close = ']' → ∀ rest,
      Gets (arguments · close (cs ++ close :: rest)) (16 * cs.length + 12) items rest
  | _, _, @WritesItems.nil before blank, close, closes, rest => by
    have here : skipBlanks (before ++ close :: rest) = close :: rest := by
      rw [skipBlanks_append blank]
      rcases closes with rfl | rfl <;> rfl
    exact (arguments_nil closes here).mono (by omega)
  | _, _, @WritesItems.cons e others before cs more blank first rest, close, closes, behind => by
    obtain ⟨tail, here, others_read⟩ := rest.reads closes behind
    have read := (first.reads (Nat.zero_le _)).expression blank (rest.stops closes behind)
    have all := arguments_cons (read.mono (Nat.le_add_right _ (16 * more.length)))
      (others_read.mono (by omega)) here
    rw [List.append_assoc, List.append_assoc]
    refine all.mono ?_
    simp only [List.length_append]
    omega

theorem WritesMore.reads : ∀ {items : List Expr} {cs : List Char}, WritesMore items cs →
    ∀ {close : Char}, close = ')' ∨ close = ']' → ∀ rest, ∃ tail,
      skipBlanks tail = close :: rest ∧
        Gets (argumentsFrom · (cs ++ close :: rest)) (16 * cs.length + 1) items tail
  | _, _, @WritesMore.nil before blank, close, closes, rest => by
    have here : skipBlanks (before ++ close :: rest) = close :: rest := by
      rw [skipBlanks_append blank]
      rcases closes with rfl | rfl <;> rfl
    exact ⟨_, here, (argumentsFrom_nil closes here).mono (by omega)⟩
  | _, _, @WritesMore.cons e others before after cs more blank_before blank_after first rest, close,
    closes, behind => by
    obtain ⟨tail, here, others_read⟩ := rest.reads closes behind
    have read := (first.reads (Nat.zero_le _)).expression blank_after (rest.stops closes behind)
    have comma : skipBlanks (before ++ ',' :: (after ++ (cs ++ more)) ++ close :: behind) =
        ',' :: (after ++ (cs ++ (more ++ close :: behind))) := by
      rw [List.append_assoc, skipBlanks_append blank_before]
      simp [skipBlanks, isBlankAscii]
    have all := argumentsFrom_cons comma (read.mono (Nat.le_add_right _ (16 * more.length)))
      (others_read.mono (by omega))
    refine ⟨tail, here, all.mono ?_⟩
    simp only [List.length_append, List.length_cons]
    omega

end

theorem Writes.run {e : Expr} {before cs after : List Char} (written : Writes 0 e cs)
    (blank_before : Blanks before) (blank_after : Blanks after) :
    run (before ++ (cs ++ after)) = .ok (e, after) := by
  have read := (written.reads (Nat.zero_le _)).expression blank_before (.ending blank_after)
  refine read _ ?_
  simp only [stepsPerChar, List.length_append]
  omega

theorem parse_of_run {e : Expr} {cs rest : List Char} (read : run cs = .ok (e, rest))
    (blank : Blanks rest) : parse (String.ofList cs) = .ok e := by
  simp only [parse, String.toList_ofList, read, skipBlanks_blanks blank]

/-- Each text of a tree, with whatever blanks around it, is read as the tree. -/
theorem parse_of_writes {e : Expr} {before cs after : List Char} (written : Writes 0 e cs)
    (blank_before : Blanks before) (blank_after : Blanks after) :
    parse (String.ofList (before ++ (cs ++ after))) = .ok e :=
  parse_of_run (written.run blank_before blank_after) blank_after

/-- A whole number is written with the digits that it is printed with, among others. -/
theorem writes_int (n : Nat) {k : Int64} (unsigned : 0 ≤ k.toInt) :
    Writes n (.literal (.int k)) (Nat.toDigits 10 k.toInt.toNat) := by
  refine .int n Nat.toDigits_ne_nil (Numeral.isDigit_toDigits _) ?_
  rw [Nat.ofDigitChars_ten_toDigits]
  exact Int.toNat_of_nonneg unsigned

def differenceTree : Expr :=
  .binary .or (.unary .not (.name "a" []))
    (.binary .sub (.binary .sub (.name "b" []) (.literal (.int 1)))
      (.binary (.compare .le) (.name "c" []) (.literal (.int 2))))

def differenceText : List Char :=
  ['n', 'o', 't', ' ', 'a', '|', '|', 'b', ' ', '-', '1', '-', '(', 'c', '<', '=', '\t', '2', ')']

theorem writes_difference : Writes 0 differenceTree differenceText := by
  have tab : Blanks ['\t'] := by simp [Blanks, isBlankAscii]
  have a : Writes 6 (.name "a" []) ['a'] := .name 6 (by decide) (by decide) (by decide) (by decide)
  have b : Writes 3 (.name "b" []) ['b'] := .name 3 (by decide) (by decide) (by decide) (by decide)
  have c : Writes 2 (.name "c" []) ['c'] := .name 2 (by decide) (by decide) (by decide) (by decide)
  have one : Writes 4 (.literal (.int 1)) ['1'] := writes_int 4 (by decide)
  have two : Writes 3 (.literal (.int 2)) ['2'] := writes_int 3 (by decide)
  have not_a : Writes 0 (.unary .not (.name "a" [])) (['n', 'o', 't', ' '] ++ ['a']) :=
    .unary 0 (.word ⟨by decide, .one⟩) a
  have first : Writes 3 (.binary .sub (.name "b" []) (.literal (.int 1)))
      (['b'] ++ ([' ', '-'] ++ ['1'])) :=
    .binary (by decide) b (.symbol (s := "-") (by decide) .one .nil) one
  have compared : Writes 0 (.binary (.compare .le) (.name "c" []) (.literal (.int 2)))
      (['c'] ++ (['<', '=', '\t'] ++ ['2'])) :=
    .binary (by decide) c (.symbol (s := "<=") (by decide) .nil tab) two
  have second : Writes 1 (.binary .sub _ _) (_ ++ (['-'] ++ _)) :=
    .binary (by decide) first (.symbol (s := "-") (by decide) .nil .nil) (.paren 4 .nil compared .nil)
  have whole : Writes 0 (.binary .or _ _) (_ ++ (['|', '|'] ++ _)) :=
    .binary (by decide) not_a (.symbol (s := "||") (by decide) .nil .nil) second
  exact whole

theorem parse_of_writes_difference :
    parse " not a||b -1-(c<=\t2)\n" = .ok differenceTree := by
  have last : Blanks ['\n'] := by simp [Blanks, isBlankAscii]
  have text : " not a||b -1-(c<=\t2)\n" = String.ofList ([' '] ++ (differenceText ++ ['\n'])) := rfl
  rw [text]
  exact parse_of_writes writes_difference .one last

end RuleRegistry.Expr
