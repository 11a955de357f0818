import RuleRegistry.Expr.Parser
import RuleRegistry.Proofs.Outcome

/-!
The grammar as a relation. It holds of a text, a tree at the beginning of it and what is left of the
text; precedence is left open. Whatever the parser reads is derived so, and what all derivations have
in common is shown by induction on them, without the steps of the parser. A scan of the text needs a
few properties only to pass over all that is between names, strings and numbers.
-/

namespace RuleRegistry.Expr

open Outcome

namespace Parser

/-- A number at the beginning of a text and the text behind it: digits alone, or digits on both sides
of a point. -/
inductive ReadsNumber (cs : List Char) : Value → List Char → Prop
  | whole {n : Int64} (some_digit : cs.takeWhile Numeral.isDigit ≠ [])
      (bare : ∀ after, cs.dropWhile Numeral.isDigit = '.' :: after →
        after.takeWhile Numeral.isDigit = [])
      (read : Numeral.readInt64 10 (cs.takeWhile Numeral.isDigit) = some n) :
      ReadsNumber cs (.int n) (cs.dropWhile Numeral.isDigit)
  | decimal {after : List Char} {x : Binary64} (some_digit : cs.takeWhile Numeral.isDigit ≠ [])
      (point : cs.dropWhile Numeral.isDigit = '.' :: after)
      (some_fraction : after.takeWhile Numeral.isDigit ≠ [])
      (read : Numeral.readBinary64
        (cs.takeWhile Numeral.isDigit ++ '.' :: after.takeWhile Numeral.isDigit) = some x) :
      ReadsNumber cs (.float x) (after.dropWhile Numeral.isDigit)

theorem ReadsNumber.head {cs : List Char} {v : Value} {rest : List Char} (h : ReadsNumber cs v rest) :
    ∃ c behind, cs = c :: behind ∧ Numeral.isDigit c = true := by
  have some_digit : cs.takeWhile Numeral.isDigit ≠ [] := by
    cases h with
    | whole some_digit _ _ => exact some_digit
    | decimal some_digit _ _ _ => exact some_digit
  cases cs with
  | nil => exact absurd rfl some_digit
  | cons c behind =>
    refine ⟨c, behind, rfl, ?_⟩
    cases digit : Numeral.isDigit c with
    | true => rfl
    | false => exact absurd (List.takeWhile_cons_of_neg (by simp [digit])) some_digit

mutual

/-- A tree that stands at the beginning of a text, and the text behind it. -/
inductive Derives : List Char → Expr → List Char → Prop
  | blanks {cs : List Char} {e : Expr} {rest : List Char} (behind : Derives (skipBlanks cs) e rest) :
      Derives cs e rest
  | binary {n : Nat} {op : BinaryOp} {cs mid behind : List Char} {left right : Expr}
      {rest : List Char} (first : Derives cs left mid) (found : operator? n mid = some (op, behind))
      (second : Derives behind right rest) : Derives cs (.binary op left right) rest
  | not {cs behind : List Char} {e : Expr} {rest : List Char}
      (found : keyword? "not".toList cs = some behind) (operand : Derives behind e rest) :
      Derives cs (.unary .not e) rest
  | bang {behind : List Char} {e : Expr} {rest : List Char} (operand : Derives behind e rest) :
      Derives ('!' :: behind) (.unary .not e) rest
  | minus {behind : List Char} {e : Expr} {rest : List Char} (operand : Derives behind e rest) :
      Derives ('-' :: behind) (.unary .neg e) rest
  | paren {behind mid : List Char} {e : Expr} {rest : List Char} (inside : Derives behind e mid)
      (closed : skipBlanks mid = ')' :: rest) : Derives ('(' :: behind) e rest
  | array {behind : List Char} {items : List Expr} {rest : List Char}
      (inside : DerivesItems ']' behind items rest) : Derives ('[' :: behind) (.array items) rest
  | string {quote : Char} {behind s rest : List Char} (quoted : quote = '"' ∨ quote = '\'')
      (text : textUntil quote behind = .ok (s, rest)) :
      Derives (quote :: behind) (.literal (.string (String.ofList s))) rest
  | number {cs : List Char} {v : Value} {rest : List Char}
      (read : ReadsNumber cs v rest) : Derives cs (.literal v) rest
  | meant {cs root behind : List Char} {v : Value} {rest : List Char}
      (word : word? cs = some (root, behind)) (single : keysAfter behind.length behind = ([], rest))
      (meaning : literalWord? (String.ofList root) = some v) : Derives cs (.literal v) rest
  | name {cs root behind : List Char} {keys : List (List Char)} {rest : List Char}
      (word : word? cs = some (root, behind)) (free : keyword? "not".toList cs = none)
      (dotted : keysAfter behind.length behind = (keys, rest))
      (single : keys = [] →
        literalWord? (String.ofList root) = none ∧ String.ofList root ∉ reserved)
      (no_call : ∀ inner, skipBlanks rest ≠ '(' :: inner) :
      Derives cs (.name (String.ofList root) (keys.map String.ofList)) rest
  | call {cs root behind mid inner : List Char} {args : List Expr} {rest : List Char}
      (word : word? cs = some (root, behind)) (single : keysAfter behind.length behind = ([], mid))
      (meaning : literalWord? (String.ofList root) = none) (unreserved : String.ofList root ∉ reserved)
      (opened : skipBlanks mid = '(' :: inner) (inside : DerivesItems ')' inner args rest) :
      Derives cs (.call (String.ofList root) args) rest

/-- Items up to a closing bracket. -/
inductive DerivesItems : Char → List Char → List Expr → List Char → Prop
  | nil {close : Char} {cs rest : List Char} (closed : skipBlanks cs = close :: rest) :
      DerivesItems close cs [] rest
  | cons {close : Char} {cs mid behind : List Char} {e : Expr} {others : List Expr}
      {rest : List Char} (first : Derives cs e mid) (more : DerivesMore mid others behind)
      (closed : skipBlanks behind = close :: rest) : DerivesItems close cs (e :: others) rest

/-- Further items, each after a comma. -/
inductive DerivesMore : List Char → List Expr → List Char → Prop
  | nil (cs : List Char) : DerivesMore cs [] cs
  | cons {cs behind mid : List Char} {e : Expr} {others : List Expr} {rest : List Char}
      (comma : skipBlanks cs = ',' :: behind) (first : Derives behind e mid)
      (more : DerivesMore mid others rest) : DerivesMore cs (e :: others) rest

end

theorem readsNumber_of_whole {cs rest : List Char} {v : Value}
    (some_digit : cs.takeWhile Numeral.isDigit ≠ [])
    (bare : ∀ after, cs.dropWhile Numeral.isDigit = '.' :: after → after.takeWhile Numeral.isDigit = [])
    (h : (match Numeral.readInt64 10 (cs.takeWhile Numeral.isDigit) with
      | some n => .ok (.int n, cs.dropWhile Numeral.isDigit)
      | none => .error ⟨true, 0, cs.dropWhile Numeral.isDigit⟩ : Step Value) = .ok (v, rest)) :
    ReadsNumber cs v rest := by
  split at h
  · rename_i read
    cases h
    exact .whole some_digit bare read
  · cases h

theorem readsNumber_of_number? {cs rest : List Char} {v : Value}
    (h : number? cs = some (.ok (v, rest))) : ReadsNumber cs v rest := by
  unfold number? at h
  dsimp only at h
  split at h
  · cases h
  · rename_i some_digit
    split at h
    · rename_i after point
      split at h
      · rename_i bare
        refine readsNumber_of_whole some_digit (fun other same => ?_) (Option.some.inj h)
        rw [point] at same
        cases same
        exact bare
      · rename_i some_fraction
        split at h
        · rename_i read
          cases h
          exact .decimal some_digit point some_fraction read
        · cases h
    · rename_i no_point
      exact readsNumber_of_whole some_digit (fun after point => absurd point (no_point after))
        (Option.some.inj h)

/-- What every part of the parser reads with some fuel is derived. -/
structure Sound (fuel : Nat) : Prop where
  level : ∀ {n cs e rest}, level fuel n cs = .ok (e, rest) → Derives cs e rest
  levelFrom : ∀ {n front left cs e rest}, Derives front left cs →
    levelFrom fuel n left cs = .ok (e, rest) → Derives front e rest
  unary : ∀ {cs e rest}, unary fuel cs = .ok (e, rest) → Derives cs e rest
  primary : ∀ {cs e rest}, keyword? "not".toList cs = none → primary fuel cs = .ok (e, rest) →
    Derives cs e rest
  nameOrCall : ∀ {cs e rest}, keyword? "not".toList cs = none →
    nameOrCall fuel cs = .ok (e, rest) → Derives cs e rest
  arguments : ∀ {close cs items rest}, arguments fuel close cs = .ok (items, rest) →
    DerivesItems close cs items rest
  argumentsFrom : ∀ {cs items rest}, argumentsFrom fuel cs = .ok (items, rest) →
    DerivesMore cs items rest

namespace Sound

variable {fuel : Nat} {cs rest : List Char} {e : Expr} {items : List Expr} (ih : Sound fuel)

include ih

theorem level_succ {n : Nat} (h : Parser.level (fuel + 1) n cs = .ok (e, rest)) :
    Derives cs e rest := by
  rw [Parser.level] at h
  split at h
  · split at h
    · rename_i first
      exact ih.levelFrom (ih.level first) h
    · cases h
  · exact ih.unary h

theorem levelFrom_succ {n : Nat} {front : List Char} {left : Expr} (first : Derives front left cs)
    (h : Parser.levelFrom (fuel + 1) n left cs = .ok (e, rest)) : Derives front e rest := by
  rw [Parser.levelFrom] at h
  split at h
  · cases h
    exact first
  · rename_i found
    split at h
    · rename_i second
      exact ih.levelFrom (.binary first found (ih.level second)) h
    · cases h

theorem operand {op : UnaryOp} (h : (match Parser.unary fuel cs with
      | .ok (e, rest) => .ok (.unary op e, rest)
      | .error f => .error f.commit : Step Expr) = .ok (e, rest)) :
    ∃ inner, e = .unary op inner ∧ Derives cs inner rest := by
  split at h
  · rename_i inner mid read
    cases h
    exact ⟨inner, rfl, ih.unary read⟩
  · cases h

theorem unary_succ (h : Parser.unary (fuel + 1) cs = .ok (e, rest)) : Derives cs e rest := by
  apply Derives.blanks
  rw [Parser.unary] at h
  dsimp only at h
  generalize skipBlanks cs = cs at h ⊢
  split at h
  · rename_i behind found
    obtain ⟨inner, rfl, operand⟩ := ih.operand h
    exact .not found operand
  · rename_i free
    split at h
    · obtain ⟨inner, rfl, operand⟩ := ih.operand h
      exact .bang operand
    · obtain ⟨inner, rfl, operand⟩ := ih.operand h
      exact .minus operand
    · exact ih.primary free h

theorem primary_succ (free : keyword? "not".toList cs = none)
    (h : Parser.primary (fuel + 1) cs = .ok (e, rest)) : Derives cs e rest := by
  unfold Parser.primary at h
  dsimp only at h
  split at h
  · rename_i read
    cases h
    split at read
    · split at read
      · rename_i inside
        split at read
        · rename_i closed
          cases read
          exact .paren (ih.level inside) closed
        · cases read
      · split at read <;> cases read
    · split at read
      · rename_i inside
        cases read
        exact .array (ih.arguments inside)
      · cases read
    · obtain ⟨⟨s, behind⟩, text, same⟩ := map_ok_iff.mp read
      cases same
      exact .string (.inl rfl) text
    · obtain ⟨⟨s, behind⟩, text, same⟩ := map_ok_iff.mp read
      cases same
      exact .string (.inr rfl) text
    · split at read
      · rename_i number
        obtain ⟨⟨v, behind⟩, rfl, same⟩ := map_ok_iff.mp read
        cases same
        exact .number (readsNumber_of_number? number)
      · exact ih.nameOrCall free read
  · cases h

theorem nameOrCall_succ (free : keyword? "not".toList cs = none)
    (h : Parser.nameOrCall (fuel + 1) cs = .ok (e, rest)) : Derives cs e rest := by
  rw [Parser.nameOrCall] at h
  split at h
  · cases h
  · rename_i root behind word
    split at h
    rename_i keys mid dotted
    dsimp only at h
    split at h
    · rename_i literal
      obtain ⟨rfl, some_value⟩ := literal
      obtain ⟨v, meaning⟩ := Option.isSome_iff_exists.mp some_value
      rw [meaning] at h
      cases h
      exact .meant word dotted meaning
    · rename_i no_literal
      split at h
      · cases h
      · rename_i not_reserved
        have single : keys = [] → literalWord? (String.ofList root) = none ∧
            String.ofList root ∉ reserved := by
          intro none_behind
          constructor
          · rw [← Option.not_isSome_iff_eq_none]
            exact fun literal => no_literal ⟨none_behind, literal⟩
          · exact fun mem => not_reserved ⟨none_behind, mem⟩
        split at h
        · rename_i opened
          split at h
          · rename_i none_behind
            subst none_behind
            obtain ⟨meaning, unreserved⟩ := single rfl
            split at h
            · rename_i inside
              cases h
              exact .call word dotted meaning unreserved opened (ih.arguments inside)
            · cases h
          · cases h
        · rename_i no_call
          cases h
          exact .name word free dotted single no_call

theorem arguments_succ {close : Char} (h : Parser.arguments (fuel + 1) close cs = .ok (items, rest)) :
    DerivesItems close cs items rest := by
  rw [Parser.arguments] at h
  dsimp only at h
  split at h
  · split at h
    · cases h
    · split at h
      · rename_i closed
        split at h
        · rename_i same
          cases h
          exact .nil (same ▸ closed)
        · cases h
      · cases h
  · rename_i first
    split at h
    · cases h
    · rename_i more
      split at h
      · rename_i closed
        split at h
        · rename_i same
          cases h
          exact .cons (ih.level first) (ih.argumentsFrom more) (same ▸ closed)
        · cases h
      · cases h

theorem argumentsFrom_succ (h : Parser.argumentsFrom (fuel + 1) cs = .ok (items, rest)) :
    DerivesMore cs items rest := by
  rw [Parser.argumentsFrom] at h
  split at h
  · rename_i comma
    split at h
    · split at h
      · cases h
      · cases h
        exact .nil _
    · rename_i first
      split at h
      · cases h
      · rename_i more
        cases h
        exact .cons comma (ih.level first) (ih.argumentsFrom more)
  · cases h
    exact .nil _

end Sound

theorem sound (fuel : Nat) : Sound fuel := by
  induction fuel with
  | zero =>
    exact ⟨fun h => (nomatch h), fun _ h => (nomatch h), fun h => (nomatch h),
      fun _ h => (nomatch h), fun _ h => (nomatch h), fun h => (nomatch h), fun h => (nomatch h)⟩
  | succ fuel ih =>
    exact ⟨ih.level_succ, ih.levelFrom_succ, ih.unary_succ, ih.primary_succ, ih.nameOrCall_succ,
      ih.arguments_succ, ih.argumentsFrom_succ⟩

/-- At the end of a text, at a dot and at a slash no expression begins. -/
inductive Stray : List Char → Prop
  | ended : Stray []
  | dot (rest : List Char) : Stray ('.' :: rest)
  | slash (rest : List Char) : Stray ('/' :: rest)

theorem Stray.skip {cs : List Char} (stray : Stray cs) : Stray (skipBlanks cs) := by
  cases stray with
  | ended => exact .ended
  | dot rest => exact .dot rest
  | slash rest => exact .slash rest

theorem Derives.not_stray {cs : List Char} {e : Expr} {rest : List Char} :
    Derives cs e rest → ¬ Stray cs
  | .blanks behind, stray => behind.not_stray stray.skip
  | .binary first _ _, stray => first.not_stray stray
  | .not found _, stray => by cases stray <;> cases found
  | .bang _, stray => by cases stray
  | .minus _, stray => by cases stray
  | .paren _ _, stray => by cases stray
  | .array _, stray => by cases stray
  | .string quoted _, stray => by cases stray <;> simp at quoted
  | .number read, stray => by
    obtain ⟨c, behind, rfl, digit⟩ := read.head
    cases stray <;> cases digit
  | .meant word _ _, stray => by cases stray <;> cases word
  | .name word _ _ _ _, stray => by cases stray <;> cases word
  | .call word _ _ _ _ _, stray => by cases stray <;> cases word

theorem Derives.plain_head {cs : List Char} {e : Expr} {rest : List Char} (h : Derives cs e rest) :
    cs.head? ≠ some '.' := by
  intro dot
  obtain ⟨behind, rfl⟩ := List.head?_eq_some_iff.mp dot
  exact h.not_stray (.dot behind)

def isQuote (c : Char) : Bool := c == '"' || c == '\''

/-- A character that belongs to no string, word or number, other than a slash. -/
def isMark (c : Char) : Bool := c != '/' && !isQuote c && !isWordChar c

theorem isMark_of_isBlankAscii {c : Char} (blank : isBlankAscii c = true) : isMark c = true := by
  simp only [isBlankAscii, Bool.or_eq_true, beq_iff_eq] at blank
  rcases blank with (((rfl | rfl) | rfl) | rfl) | rfl <;> decide

/-- A scan that passes over marks and the words of operators, and over a slash where an expression
follows. -/
structure Skims {α : Type} (f : List Char → α) : Prop where
  mark : ∀ {c rest}, isMark c = true → f (c :: rest) = f rest
  slash : ∀ {rest}, ¬ Stray rest → f ('/' :: rest) = f rest
  keyword : ∀ {w cs rest}, String.ofList w ∈ reserved → keyword? w cs = some rest →
    rest.head? ≠ some '.' → f cs = f rest

/-- An operator of marks or of reserved words, or the slash. -/
def Spelling.isSkimmed : Spelling → Bool
  | .symbol s => s.all isMark || s == ['/']
  | .words ws => ws.all fun w => decide (String.ofList w ∈ reserved)

theorem isSkimmed_operatorsAt (n : Nat) : (operatorsAt n).all (fun o => o.1.isSkimmed) = true := by
  match n with
  | 0 | 1 | 2 | 3 | 4 | 5 => decide
  | _ + 6 => rfl

theorem append_of_symbol? {s cs rest : List Char} (found : symbol? s cs = some rest) :
    cs = s ++ rest := by
  induction s generalizing cs with
  | nil =>
    cases found
    rfl
  | cons c s ih =>
    cases cs with
    | nil => cases found
    | cons d cs =>
      simp only [symbol?] at found
      split at found
      · rename_i same
        rw [same, ih found, List.cons_append]
      · cases found

namespace Skims

variable {α : Type} {f : List Char → α} (skims : Skims f)

include skims

theorem marks {front : List Char} (all : front.all isMark = true) (rest : List Char) :
    f (front ++ rest) = f rest := by
  induction front with
  | nil => rfl
  | cons c front ih =>
    rw [List.all_cons, Bool.and_eq_true] at all
    rw [List.cons_append, skims.mark all.1, ih all.2]

theorem skipBlanks (cs : List Char) : f (Parser.skipBlanks cs) = f cs := by
  have blanks : (cs.takeWhile isBlankAscii).all isMark = true :=
    List.all_eq_true.mpr fun c mem =>
      isMark_of_isBlankAscii (List.all_eq_true.mp List.all_takeWhile c mem)
  calc f (Parser.skipBlanks cs)
    _ = f (cs.takeWhile isBlankAscii ++ cs.dropWhile isBlankAscii) := (skims.marks blanks _).symm
    _ = f cs := by rw [List.takeWhile_append_dropWhile]

theorem token {c : Char} {cs rest : List Char} (skipped : Parser.skipBlanks cs = c :: rest)
    (mark : isMark c = true) : f cs = f rest := by
  rw [← skims.skipBlanks, skipped, skims.mark mark]

theorem close {close : Char} (closes : close = ')' ∨ close = ']') {cs rest : List Char}
    (skipped : Parser.skipBlanks cs = close :: rest) : f cs = f rest := by
  apply skims.token skipped
  rcases closes with rfl | rfl <;> decide

theorem words {ws : List (List Char)} (reserved_words : ∀ w ∈ ws, String.ofList w ∈ reserved)
    {cs rest : List Char} (found : wordsAfter ws cs = some rest) (plain : rest.head? ≠ some '.') :
    f cs = f rest := by
  induction ws generalizing cs with
  | nil =>
    cases found
    rfl
  | cons w ws ih =>
    obtain ⟨first, others⟩ := List.forall_mem_cons.mp reserved_words
    obtain ⟨mid, keyword, found⟩ := Option.bind_eq_some_iff.mp found
    have mid_plain : mid.head? ≠ some '.' := by
      intro dot
      obtain ⟨behind, rfl⟩ := List.head?_eq_some_iff.mp dot
      cases ws with
      | nil =>
        cases found
        exact plain rfl
      | cons _ _ => cases found
    rw [← skims.skipBlanks, skims.keyword first keyword mid_plain]
    exact ih others found

theorem spelling {spelling : Spelling} (skimmed : spelling.isSkimmed = true) {cs rest : List Char}
    (found : spelling.after? cs = some rest) (start : ¬ Stray rest) : f cs = f rest := by
  cases spelling with
  | symbol s =>
    rw [append_of_symbol? found]
    rcases Bool.or_eq_true_iff.mp skimmed with all | slash
    · exact skims.marks all rest
    · rw [eq_of_beq slash]
      exact skims.slash start
  | words ws =>
    refine skims.words (fun w mem => ?_) found fun dot => ?_
    · exact of_decide_eq_true (List.all_eq_true.mp skimmed w mem)
    · obtain ⟨behind, rfl⟩ := List.head?_eq_some_iff.mp dot
      exact start (.dot behind)

/-- A scan passes over an operator before an operand. -/
theorem operator {n : Nat} {cs rest : List Char} {op : BinaryOp}
    (found : operator? n cs = some (op, rest)) (start : ¬ Stray rest) : f cs = f rest := by
  rw [← skims.skipBlanks]
  unfold operator? at found
  have skimmed := isSkimmed_operatorsAt n
  generalize operatorsAt n = table at found skimmed
  induction table with
  | nil => cases found
  | cons entry others ih =>
    rw [List.all_cons, Bool.and_eq_true] at skimmed
    rw [firstOperator] at found
    split at found
    · rename_i behind
      cases found
      exact skims.spelling skimmed.1 behind start
    · exact ih found skimmed.2

end Skims

/-- A scan that passes over all words as well. -/
structure SkimsWords {α : Type} (f : List Char → α) : Prop where
  mark : ∀ {c rest}, isMark c = true → f (c :: rest) = f rest
  slash : ∀ {rest}, ¬ Stray rest → f ('/' :: rest) = f rest
  word : ∀ {cs root behind}, word? cs = some (root, behind) → f cs = f behind

namespace SkimsWords

variable {α : Type} {f : List Char → α} (words : SkimsWords f)

include words

theorem keyword {w cs rest : List Char} (found : keyword? w cs = some rest) : f cs = f rest := by
  unfold keyword? at found
  split at found
  · rename_i word
    split at found
    · cases found
      exact words.word word
    · cases found
  · cases found

theorem keysAfter (fuel : Nat) (cs : List Char) : f (Parser.keysAfter fuel cs).2 = f cs := by
  fun_induction Parser.keysAfter fuel cs with
  | case2 fuel cs key rest word keys rest' found ih =>
    rw [found] at ih
    rw [words.mark (by decide), words.word word]
    exact ih
  | _ => rfl

theorem path {cs root behind : List Char} {keys : List (List Char)} {rest : List Char}
    (word : word? cs = some (root, behind))
    (dotted : Parser.keysAfter behind.length behind = (keys, rest)) : f cs = f rest := by
  rw [words.word word, ← words.keysAfter behind.length, dotted]

theorem skims : Skims f where
  mark := words.mark
  slash := words.slash
  keyword _ found _ := words.keyword found

end SkimsWords

end Parser

/-- A text that can be read has its tree at the beginning, and nothing but blanks behind it. -/
theorem derives_of_parse {source : String} {e : Expr} (h : parse source = .ok e) :
    ∃ rest, Parser.Derives source.toList e rest ∧ Parser.skipBlanks rest = [] := by
  unfold parse at h
  dsimp only at h
  split at h
  · cases h
  · rename_i rest read
    split at h
    · rename_i ended
      cases h
      exact ⟨rest, (Parser.sound _).level read, ended⟩
    · cases h

end RuleRegistry.Expr
