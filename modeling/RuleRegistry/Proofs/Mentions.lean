import RuleRegistry.Proofs.Readable

/-!
What a text mentions. A scan from left to right finds the words outside of strings that are neither
keywords nor literals: a word before an opening bracket is a function, any other is the root of a
variable. A text that can be read mentions what its tree refers to, in the same order.
-/

namespace RuleRegistry.Expr

namespace Parser

/-- The text behind a closing quote. What follows a backslash does not close. -/
def afterQuote (quote : Char) : Bool → List Char → List Char
  | _, [] => []
  | true, _ :: rest => afterQuote quote false rest
  | false, c :: rest => if c = quote then rest else afterQuote quote (c == '\\') rest

/-- What a word with its keys stands for, given the text behind them. -/
def meaning (root : String) (keys : List (List Char)) (behind : List Char) : List Reference :=
  if keys = [] ∧ ((literalWord? root).isSome ∨ root ∈ reserved) then []
  else match skipBlanks behind with
    | '(' :: _ => [.function root]
    | _ => [.variable root]

theorem length_afterQuote (quote : Char) (escaped : Bool) (cs : List Char) :
    (afterQuote quote escaped cs).length ≤ cs.length := by
  fun_induction afterQuote quote escaped cs with
  | case1 | case3 => simp
  | case2 _ rest ih | case4 _ rest _ ih => exact Nat.le_succ_of_le ih

theorem length_word? {cs root behind : List Char} (h : word? cs = some (root, behind)) :
    behind.length < cs.length := by
  cases cs with
  | nil => cases h
  | cons c rest =>
    simp only [word?] at h
    split at h
    · cases h
      exact Nat.lt_succ_of_le (List.dropWhile_sublist _).length_le
    · cases h

theorem length_keysAfter (fuel : Nat) (cs : List Char) :
    (keysAfter fuel cs).2.length ≤ cs.length := by
  fun_induction keysAfter fuel cs with
  | case2 fuel cs key rest hw keys rest' hk ih =>
    have shorter := length_word? hw
    rw [hk] at ih
    exact Nat.le_trans ih (Nat.le_succ_of_le (Nat.le_of_lt shorter))
  | _ => exact Nat.le_refl _

/-- The references of a text, from left to right. -/
def mentioned : List Char → List Reference
  | [] => []
  | c :: rest =>
    if isQuote c then mentioned (afterQuote c false rest)
    else match _ : word? (c :: rest) with
      | none => mentioned rest
      | some (root, behind) =>
        meaning (String.ofList root) (keysAfter behind.length behind).1
            (keysAfter behind.length behind).2 ++
          mentioned (keysAfter behind.length behind).2
termination_by cs => cs.length
decreasing_by
  · exact Nat.lt_succ_of_le (length_afterQuote c false rest)
  · exact Nat.lt_succ_self _
  · exact Nat.lt_of_le_of_lt (length_keysAfter _ _) (length_word? ‹_›)

/-- A character that is passed over. -/
def isPassed (c : Char) : Bool := !isQuote c && !isWordStart c

theorem mentioned_pass {c : Char} (passed : isPassed c = true) (rest : List Char) :
    mentioned (c :: rest) = mentioned rest := by
  simp only [isPassed, Bool.and_eq_true, Bool.not_eq_true'] at passed
  have no_word : word? (c :: rest) = none := by simp [word?, passed.2]
  rw [mentioned]
  simp only [passed.1, Bool.false_eq_true, if_false]
  split
  · rfl
  · rename_i found
    rw [no_word] at found
    cases found

theorem mentioned_append {front : List Char} (passed : front.all isPassed = true)
    (rest : List Char) : mentioned (front ++ rest) = mentioned rest := by
  induction front with
  | nil => rfl
  | cons c front ih =>
    rw [List.all_cons, Bool.and_eq_true] at passed
    rw [List.cons_append, mentioned_pass passed.1, ih passed.2]

theorem mentioned_quote {quote : Char} (quotes : isQuote quote = true) (rest : List Char) :
    mentioned (quote :: rest) = mentioned (afterQuote quote false rest) := by
  rw [mentioned, if_pos quotes]

theorem not_quote_of_wordStart {c : Char} (start : isWordStart c = true) : isQuote c = false := by
  rw [Bool.eq_false_iff]
  intro quotes
  rcases Bool.or_eq_true_iff.mp quotes with same | same
  · rw [eq_of_beq same] at start
    cases start
  · rw [eq_of_beq same] at start
    cases start

theorem mentioned_word {cs root behind : List Char} (word : word? cs = some (root, behind)) :
    mentioned cs = meaning (String.ofList root) (keysAfter behind.length behind).1
        (keysAfter behind.length behind).2 ++
      mentioned (keysAfter behind.length behind).2 := by
  cases cs with
  | nil => cases word
  | cons c rest =>
    have start : isWordStart c = true := by
      simp only [word?] at word
      split at word
      · assumption
      · cases word
    rw [mentioned]
    simp only [not_quote_of_wordStart start, Bool.false_eq_true, if_false]
    split
    · rename_i none_found
      rw [word] at none_found
      cases none_found
    · rename_i found
      rw [word, Option.some.injEq, Prod.mk.injEq] at found
      obtain ⟨rfl, rfl⟩ := found
      rfl

theorem keysAfter_of_head {cs : List Char} (plain : cs.head? ≠ some '.') (fuel : Nat) :
    keysAfter fuel cs = ([], cs) := by
  cases fuel with
  | zero => rfl
  | succ fuel =>
    cases cs with
    | nil => rfl
    | cons c rest =>
      have other : c ≠ '.' := fun same => plain (congrArg some same)
      simp [keysAfter, other]

theorem mentioned_keyword {w cs rest : List Char} (word : String.ofList w ∈ reserved)
    (found : keyword? w cs = some rest) (plain : rest.head? ≠ some '.') :
    mentioned cs = mentioned rest := by
  unfold keyword? at found
  split at found
  · rename_i w' rest' first
    split at found
    · rename_i same
      cases found
      subst same
      rw [mentioned_word first, keysAfter_of_head plain, meaning, if_pos ⟨rfl, .inr word⟩,
        List.nil_append]
    · cases found
  · cases found

theorem isPassed_of_isMark {c : Char} (mark : isMark c = true) : isPassed c = true := by
  simp only [isMark, isWordChar, Bool.and_eq_true, Bool.not_eq_true', Bool.or_eq_false_iff] at mark
  simp [isPassed, mark]

theorem skims_mentioned : Skims mentioned where
  mark mark := mentioned_pass (isPassed_of_isMark mark) _
  slash _ := mentioned_pass (by decide) _
  keyword := mentioned_keyword

theorem afterQuote_of_textUntil {quote : Char} {cs s rest : List Char}
    (read : textUntil quote cs = .ok (s, rest)) : afterQuote quote false cs = rest := by
  fun_induction textUntil quote cs generalizing s with
  | case1 => cases read
  | case2 rest =>
    cases read
    rw [afterQuote, if_pos rfl]
  | case3 => cases read
  | case4 e rest _ other =>
    rename_i ih
    obtain ⟨⟨s, mid⟩, behind, same⟩ := Outcome.map_ok_iff.mp read
    cases same
    rw [afterQuote, if_neg other]
    exact ih behind
  | case5 c rest other plain ih =>
    obtain ⟨⟨s, mid⟩, behind, same⟩ := Outcome.map_ok_iff.mp read
    cases same
    rw [afterQuote, if_neg other, beq_eq_false_iff_ne.mpr plain]
    exact ih behind

theorem isPassed_of_isDigit {c : Char} (digit : Numeral.isDigit c = true) : isPassed c = true := by
  have no_start : isWordStart c = false := by
    rw [Bool.eq_false_iff]
    intro start
    rw [not_digit_of_wordStart start] at digit
    cases digit
  have no_quote : isQuote c = false := by
    rw [Bool.eq_false_iff]
    intro quotes
    rcases Bool.or_eq_true_iff.mp quotes with same | same
    · rw [eq_of_beq same] at digit
      cases digit
    · rw [eq_of_beq same] at digit
      cases digit
  rw [isPassed, no_start, no_quote]
  rfl

theorem mentioned_digits (cs : List Char) :
    mentioned cs = mentioned (cs.dropWhile Numeral.isDigit) := by
  have digits : (cs.takeWhile Numeral.isDigit).all isPassed = true :=
    List.all_eq_true.mpr fun c mem => isPassed_of_isDigit (List.all_eq_true.mp List.all_takeWhile c mem)
  calc mentioned cs
    _ = mentioned (cs.takeWhile Numeral.isDigit ++ cs.dropWhile Numeral.isDigit) := by
      rw [List.takeWhile_append_dropWhile]
    _ = mentioned (cs.dropWhile Numeral.isDigit) := mentioned_append digits _

theorem mentioned_number {cs rest : List Char} {v : Value} (read : ReadsNumber cs v rest) :
    mentioned cs = mentioned rest := by
  cases read with
  | whole _ _ _ => exact mentioned_digits cs
  | decimal _ point _ _ =>
    rw [mentioned_digits, point, mentioned_pass (by decide)]
    exact mentioned_digits _

theorem mentioned_quoted {quote : Char} {behind s rest : List Char} (quoted : quote = '"' ∨ quote = '\'')
    (text : textUntil quote behind = .ok (s, rest)) :
    mentioned (quote :: behind) = mentioned rest := by
  have quotes : isQuote quote = true := by rcases quoted with rfl | rfl <;> decide
  rw [mentioned_quote quotes, afterQuote_of_textUntil text]

section

variable {cs root behind : List Char} {keys : List (List Char)} {rest : List Char}

/-- Words other than keywords and literals are mentioned, as functions before a bracket. -/
theorem mentioned_path (word : word? cs = some (root, behind))
    (dotted : keysAfter behind.length behind = (keys, rest)) :
    mentioned cs = meaning (String.ofList root) keys rest ++ mentioned rest := by
  rw [mentioned_word word, dotted]

theorem meaning_free (single : keys = [] →
    literalWord? (String.ofList root) = none ∧ String.ofList root ∉ reserved) :
    meaning (String.ofList root) keys rest = match skipBlanks rest with
      | '(' :: _ => [.function (String.ofList root)]
      | _ => [.variable (String.ofList root)] := by
  apply if_neg
  rintro ⟨none_behind, literal | word⟩
  · rw [(single none_behind).1] at literal
    cases literal
  · exact (single none_behind).2 word

end

mutual

/-- What is derived mentions the references of its tree, in the order of the tree. -/
theorem Derives.mentioned_eq : ∀ {cs : List Char} {e : Expr} {rest : List Char}, Derives cs e rest →
    mentioned cs = e.references ++ mentioned rest
  | cs, _, _, .blanks behind => (skims_mentioned.skipBlanks cs).symm.trans behind.mentioned_eq
  | _, _, _, .binary first found second => by
    rw [first.mentioned_eq, skims_mentioned.operator found second.not_stray, second.mentioned_eq,
      references, List.append_assoc]
  | _, _, _, .not found operand =>
    (mentioned_keyword (by decide) found operand.plain_head).trans operand.mentioned_eq
  | _, _, _, .bang operand => (mentioned_pass (by decide) _).trans operand.mentioned_eq
  | _, _, _, .minus operand => (mentioned_pass (by decide) _).trans operand.mentioned_eq
  | _, _, _, .paren inside closed => by
    rw [mentioned_pass (by decide), inside.mentioned_eq, skims_mentioned.close (.inl rfl) closed]
  | _, _, _, .array inside => (mentioned_pass (by decide) _).trans (inside.mentioned_eq (.inr rfl))
  | _, _, _, .string quoted text => mentioned_quoted quoted text
  | _, _, _, .number read => mentioned_number read
  | _, _, _, .meant word single meaning => by
    rw [mentioned_path word single, Parser.meaning, meaning, if_pos ⟨rfl, .inl rfl⟩]
    rfl
  | _, _, _, .name word _ dotted single no_call => by
    rw [mentioned_path word dotted, meaning_free single]
    split
    · rename_i opened
      exact absurd opened (no_call _)
    · rfl
  | _, _, _, .call word single meaning unreserved opened inside => by
    rw [mentioned_path word single, meaning_free fun _ => ⟨meaning, unreserved⟩, opened,
      skims_mentioned.token opened (by decide), inside.mentioned_eq (.inl rfl)]
    rfl

theorem DerivesItems.mentioned_eq : ∀ {close : Char} {cs : List Char} {items : List Expr}
    {rest : List Char}, DerivesItems close cs items rest → close = ')' ∨ close = ']' →
      mentioned cs = referencesAll items ++ mentioned rest
  | _, _, _, _, .nil closed, closes => skims_mentioned.close closes closed
  | _, _, _, _, .cons first more closed, closes => by
    rw [first.mentioned_eq, more.mentioned_eq, skims_mentioned.close closes closed, referencesAll,
      List.append_assoc]

theorem DerivesMore.mentioned_eq : ∀ {cs : List Char} {items : List Expr} {rest : List Char},
    DerivesMore cs items rest → mentioned cs = referencesAll items ++ mentioned rest
  | _, _, _, .nil _ => rfl
  | _, _, _, .cons comma first more => by
    rw [skims_mentioned.token comma (by decide), first.mentioned_eq, more.mentioned_eq, referencesAll,
      List.append_assoc]

end

end Parser

/-- A text mentions the references of its tree, in the order of the tree. -/
theorem mentioned_of_parse {source : String} {e : Expr} (h : parse source = .ok e) :
    Parser.mentioned source.toList = e.references := by
  obtain ⟨rest, derived, ended⟩ := derives_of_parse h
  rw [derived.mentioned_eq, ← Parser.skims_mentioned.skipBlanks rest, ended, Parser.mentioned,
    List.append_nil]

/-- A function comes before its arguments; keywords, literals, keys and strings are passed over. -/
example : Parser.mentioned "not f( a.and, 'b(\\'' ~ g()) or true in c.d".toList =
    [.function "f", .variable "a", .function "g", .variable "c"] := by cbv

end RuleRegistry.Expr
