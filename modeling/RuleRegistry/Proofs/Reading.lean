import RuleRegistry.Proofs.Readable

/-!
The steps of the reader. From some fuel on a step reads a text up to the place where its part ends,
whatever follows it there: the end, a closing mark, a comma, or an operator that binds less.
-/

namespace RuleRegistry.Expr

open RuleRegistry.Expr.Parser

def levelOf : BinaryOp → Nat
  | .or => 0
  | .and => 1
  | .compare _ | .within | .notWithin => 2
  | .add | .sub => 3
  | .concat => 4
  | .mul | .div | .mod => 5

namespace Parser

def Blanks (cs : List Char) : Prop := ∀ c ∈ cs, isBlankAscii c = true

theorem Blanks.nil : Blanks [] := by simp [Blanks]

theorem Blanks.one : Blanks [' '] := by simp [Blanks, isBlankAscii]

theorem skipBlanks_append {front : List Char} (blank : Blanks front) (cs : List Char) :
    skipBlanks (front ++ cs) = skipBlanks cs :=
  List.dropWhile_append_of_pos blank

theorem skipBlanks_blanks {front : List Char} (blank : Blanks front) : skipBlanks front = [] := by
  have skipped := skipBlanks_append blank []
  rwa [List.append_nil] at skipped

theorem skipBlanks_shown {c : Char} (shown : isBlankAscii c = false) (cs : List Char) :
    skipBlanks (c :: cs) = c :: cs := by
  simp [skipBlanks, shown]

theorem start_of_blank {c : Char} (blank : isBlankAscii c = true) :
    isWordStart c = false ∧ Numeral.isDigit c = false := by
  simp only [isBlankAscii, Bool.or_eq_true, beq_iff_eq] at blank
  rcases blank with (((rfl | rfl) | rfl) | rfl) | rfl <;> decide

theorem not_blank {c : Char} (h : isWordStart c = true ∨ Numeral.isDigit c = true) :
    isBlankAscii c = false := by
  cases blank : isBlankAscii c with
  | false => rfl
  | true =>
    obtain ⟨no_word, no_digit⟩ := start_of_blank blank
    simp [no_word, no_digit] at h

/-- A text that does not go on a word, a number or a dotted name. -/
def Apart (rest : List Char) : Prop := ∀ c cs, rest = c :: cs → isWordChar c = false ∧ c ≠ '.'

/-- A text before which a part of an expression ends: it is no call of a name, either. -/
structure Ends (rest : List Char) : Prop where
  apart : Apart rest
  call : ∀ inner, skipBlanks rest ≠ '(' :: inner

/-- What may come after a whole expression. -/
inductive Stops : List Char → Prop
  | ending {front : List Char} (blank : Blanks front) : Stops front
  | mark {front : List Char} {c : Char} (blank : Blanks front) (closes : c = ')' ∨ c = ']' ∨ c = ',')
      (rest : List Char) : Stops (front ++ c :: rest)

section

variable {front rest : List Char} {c : Char}

theorem Apart.word (h : Apart rest) : ∀ c cs, rest = c :: cs → isWordChar c = false :=
  fun c cs eq => (h c cs eq).1

theorem Apart.digit (h : Apart rest) : ∀ c cs, rest = c :: cs → Numeral.isDigit c = false := by
  intro c cs eq
  have word := h.word c cs eq
  simp only [isWordChar, Bool.or_eq_false_iff] at word
  exact word.2

theorem Apart.mark (h : isWordChar c = false ∧ c ≠ '.') (cs : List Char) : Apart (c :: cs) := by
  rintro d more ⟨⟩
  exact h

theorem Apart.behind (blank : Blanks front) (bare : front = [] → Apart rest) : Apart (front ++ rest) := by
  cases front with
  | nil => exact bare rfl
  | cons c more =>
    have first := blank c List.mem_cons_self
    obtain ⟨no_word, no_digit⟩ := start_of_blank first
    apply Apart.mark
    constructor
    · simp [isWordChar, no_word, no_digit]
    · rintro rfl
      cases first

theorem Apart.bracket (blank : Blanks front) (cs : List Char) : Apart (front ++ '(' :: cs) :=
  .behind blank fun _ => .mark (by decide) cs

theorem Ends.of_shown (blank : Blanks front) (shown : isBlankAscii c = false) (other : c ≠ '(')
    (bare : front = [] → isWordChar c = false ∧ c ≠ '.') (rest : List Char) :
    Ends (front ++ c :: rest) where
  apart := .behind blank fun none => .mark (bare none) rest
  call := by
    intro inner
    rw [skipBlanks_append blank, skipBlanks_shown shown]
    simp [other]

theorem Ends.of_blanks (blank : Blanks front) : Ends front where
  apart := by
    have apart : Apart (front ++ []) := .behind blank fun _ => nofun
    rwa [List.append_nil] at apart
  call := by simp [skipBlanks_blanks blank]

theorem Stops.ends (h : Stops rest) : Ends rest := by
  cases h with
  | ending blank => exact .of_blanks blank
  | mark blank closes rest =>
    rcases closes with rfl | rfl | rfl <;>
      exact .of_shown blank (by decide) (by decide) (fun _ => by decide) rest

end

theorem lt_levels {n : Nat} (h : n < levels) : n = 0 ∨ n = 1 ∨ n = 2 ∨ n = 3 ∨ n = 4 ∨ n = 5 := by
  simp only [levels] at h
  omega

theorem levelOf_lt (op : BinaryOp) : levelOf op < levels := by
  cases op <;> simp [levelOf, levels]

theorem operator?_front {front : List Char} (blank : Blanks front) (n : Nat) (cs : List Char) :
    operator? n (front ++ cs) = operator? n cs := by
  rw [operator?, skipBlanks_append blank, operator?]

theorem operator?_levels (cs : List Char) : operator? levels cs = none := rfl

theorem Stops.operator? {rest : List Char} (h : Stops rest) {n : Nat} (below : n < levels) :
    operator? n rest = none := by
  cases h with
  | ending blank =>
    rw [Parser.operator?, skipBlanks_blanks blank]
    rcases lt_levels below with rfl | rfl | rfl | rfl | rfl | rfl <;> rfl
  | mark blank closes rest =>
    rw [operator?_front blank]
    rcases closes with rfl | rfl | rfl <;>
      rcases lt_levels below with rfl | rfl | rfl | rfl | rfl | rfl <;> rfl

/-- From some fuel on, a step reads a text to this end. -/
def Gets {α : Type} (step : Nat → Step α) (cost : Nat) (x : α) (rest : List Char) : Prop :=
  ∀ fuel, cost ≤ fuel → step fuel = .ok (x, rest)

theorem Gets.mono {α : Type} {step : Nat → Step α} {cost cost' : Nat} {x : α} {rest : List Char}
    (h : Gets step cost x rest) (le : cost ≤ cost') : Gets step cost' x rest :=
  fun fuel enough => h fuel (Nat.le_trans le enough)

variable {cs rest behind : List Char} {e e' : Expr} {cost cost' n : Nat}

theorem level_top (h : Gets (unary · cs) cost e rest) : Gets (level · levels cs) (cost + 1) e rest := by
  intro fuel enough
  obtain ⟨fuel, rfl⟩ : ∃ less, fuel = less + 1 := ⟨fuel - 1, by omega⟩
  change level (fuel + 1) levels cs = _
  rw [level, if_neg (Nat.lt_irrefl _)]
  exact h fuel (by omega)

theorem levelFrom_stop (stop : operator? n rest = none) : Gets (levelFrom · n e rest) 1 e rest := by
  intro fuel enough
  obtain ⟨fuel, rfl⟩ : ∃ less, fuel = less + 1 := ⟨fuel - 1, by omega⟩
  change levelFrom (fuel + 1) n e rest = _
  rw [levelFrom, stop]

theorem levelFrom_operator {op : BinaryOp} {left right : Expr} {text mid : List Char}
    (found : operator? n cs = some (op, text)) (operand : Gets (level · (n + 1) text) cost right mid)
    (others : Gets (levelFrom · n (.binary op left right) mid) cost e rest) :
    Gets (levelFrom · n left cs) (cost + 1) e rest := by
  intro fuel enough
  obtain ⟨fuel, rfl⟩ : ∃ less, fuel = less + 1 := ⟨fuel - 1, by omega⟩
  have read : level fuel (n + 1) text = .ok (right, mid) := operand fuel (by omega)
  change levelFrom (fuel + 1) n left cs = _
  rw [levelFrom, found]
  simp only [read]
  exact others fuel (by omega)

theorem level_then {left : Expr} {mid : List Char} (below : n < levels)
    (first : Gets (level · (n + 1) cs) cost left mid) (others : Gets (levelFrom · n left mid) cost e rest) :
    Gets (level · n cs) (cost + 1) e rest := by
  intro fuel enough
  obtain ⟨fuel, rfl⟩ : ∃ less, fuel = less + 1 := ⟨fuel - 1, by omega⟩
  have read : level fuel (n + 1) cs = .ok (left, mid) := first fuel (by omega)
  change level (fuel + 1) n cs = _
  rw [level, if_pos below, read]
  exact others fuel (by omega)

/-- Every level fails where the prefix operators fail. -/
theorem level_error {fuel : Nat} {f : Failure} (failed : unary fuel cs = .error f) (d : Nat)
    (far : n + d = levels) : level (fuel + d + 1) n cs = .error f := by
  induction d generalizing n with
  | zero =>
    subst far
    rw [level, if_neg (Nat.lt_irrefl _)]
    exact failed
  | succ d ih =>
    have above : level (fuel + (d + 1)) (n + 1) cs = .error f := ih (by omega)
    rw [level, if_pos (by omega), above]

/-- At the place of a level a text is read as a tree, and the reader goes on from there as it would
from the tree: what it gives then is what it gives for both texts. A step down from a level to the
next takes two of the fuel. -/
def ReadsAt (n : Nat) (e : Expr) (cs : List Char) : Prop :=
  ∀ ⦃front rest behind : List Char⦄ ⦃e' : Expr⦄ ⦃cost : Nat⦄, Blanks front → Ends rest →
    (∀ k < levels, n < k → operator? k rest = none) → Gets (levelFrom · n e rest) cost e' behind →
    Gets (level · n (front ++ (cs ++ rest))) (cost + 16 * cs.length - 2 * n) e' behind

/-- In every place a text is read as a tree, up to what follows. -/
def ReadsTight (e : Expr) (cs : List Char) : Prop :=
  ∀ ⦃front rest : List Char⦄, Blanks front → Ends rest →
    Gets (unary · (front ++ (cs ++ rest))) (16 * cs.length - 13) e rest

theorem ReadsAt.complete (h : ReadsAt n e cs) (top : n ≤ levels) {front : List Char}
    (blank : Blanks front) (ends : Ends rest) (stop : ∀ k < levels, n ≤ k → operator? k rest = none) :
    Gets (level · n (front ++ (cs ++ rest))) (1 + 16 * cs.length - 2 * n) e rest := by
  have own : operator? n rest = none := by
    rcases Nat.lt_or_eq_of_le top with below | rfl
    · exact stop n below (Nat.le_refl n)
    · exact operator?_levels rest
  exact h blank ends (fun k hk above => stop k hk (by omega)) (levelFrom_stop own)

theorem ReadsAt.expression (h : ReadsAt 0 e cs) {front : List Char} (blank : Blanks front)
    (stops : Stops rest) : Gets (level · 0 (front ++ (cs ++ rest))) (1 + 16 * cs.length) e rest :=
  h.complete (Nat.zero_le _) blank stops.ends fun _ hk _ => stops.operator? hk

/-- The operand of a prefix operator is one itself or what is read below these. -/
theorem ReadsAt.operand (h : ReadsAt levels e cs) {front : List Char} (blank : Blanks front)
    (ends : Ends rest) : Gets (unary · (front ++ (cs ++ rest))) (16 * cs.length) e rest := by
  intro fuel enough
  have read := h.complete (Nat.le_refl levels) blank ends fun k below above => by omega
  have found : level (fuel + 1) levels (front ++ (cs ++ rest)) = .ok (e, rest) :=
    read (fuel + 1) (by omega)
  rwa [level, if_neg (Nat.lt_irrefl _)] at found

theorem ReadsAt.down_one (some_char : cs ≠ []) (below : n < levels) (h : ReadsAt (n + 1) e cs) :
    ReadsAt n e cs := by
  intro front rest behind e' cost blank ends stop others
  have length := List.length_pos_iff.mpr some_char
  have six : levels = 6 := rfl
  have first : Gets (level · (n + 1) (front ++ (cs ++ rest))) (cost + 16 * cs.length - 2 * n - 1) e
      rest :=
    (h.complete below blank ends fun k hk above => stop k hk (by omega)).mono (by omega)
  exact (level_then below first (others.mono (by omega))).mono (by omega)

theorem ReadsAt.down {m : Nat} (some_char : cs ≠ []) (top : m ≤ levels) (h : ReadsAt m e cs)
    (le : n ≤ m) : ReadsAt n e cs := by
  induction le with
  | refl => exact h
  | step _ ih => exact ih (Nat.le_of_succ_le top) (h.down_one some_char top)

theorem ReadsTight.top (some_char : cs ≠ []) (h : ReadsTight e cs) : ReadsAt levels e cs := by
  intro front rest behind e' cost blank ends _ others
  have length := List.length_pos_iff.mpr some_char
  have stopped := levelFrom_stop (e := e) (operator?_levels rest)
  -- There are no operators on this level, so nothing is read after the tree.
  have same := (others (cost + 1) (by omega)).symm.trans (stopped (cost + 1) (by omega))
  cases same
  refine (level_top (h blank ends)).mono ?_
  simp only [levels]
  omega

theorem ReadsTight.at (some_char : cs ≠ []) (h : ReadsTight e cs) (le : n ≤ levels) :
    ReadsAt n e cs :=
  (h.top some_char).down some_char (Nat.le_refl levels) le

/-- An operator on its own level, after a left operand of the level and before a right operand of the
next. -/
theorem ReadsAt.binary {op : BinaryOp} {left right : Expr} {ls mid after rs : List Char}
    (first : ReadsAt (levelOf op) left ls) (second : ReadsAt (levelOf op + 1) right rs)
    (some_char : mid ≠ []) (blank : Blanks after) (ends : ∀ rest, Ends (mid ++ (rs ++ rest)))
    (found : ∀ rest, ∀ k < levels, operator? k (mid ++ (rs ++ rest)) =
      if k = levelOf op then some (op, after ++ (rs ++ rest)) else none) :
    ReadsAt (levelOf op) (.binary op left right) (ls ++ (mid ++ rs)) := by
  intro front rest behind e' cost front_blank rest_ends stop others
  have length := List.length_pos_iff.mpr some_char
  have own := levelOf_lt op
  have right_read : Gets (level · (levelOf op + 1) (after ++ (rs ++ rest))) (cost + 16 * rs.length + 1)
      right rest :=
    (second.complete own blank rest_ends fun k hk above => stop k hk (by omega)).mono (by omega)
  have operator_read : Gets (levelFrom · (levelOf op) left (mid ++ (rs ++ rest)))
      (cost + 16 * rs.length + 2) e' behind :=
    levelFrom_operator ((found rest _ own).trans (if_pos rfl)) right_read (others.mono (by omega))
  have read := first front_blank (ends rest)
    (fun k hk above => (found rest k hk).trans (if_neg (by omega))) operator_read
  rw [List.append_assoc, List.append_assoc]
  refine read.mono ?_
  simp only [List.length_append]
  omega

theorem word?_append {w rest : List Char} (word : IsWord w)
    (stop : ∀ c cs, rest = c :: cs → isWordChar c = false) : word? (w ++ rest) = some (w, rest) := by
  obtain ⟨c, behind, rfl, start, all⟩ := word
  have cut : rest.takeWhile isWordChar = [] ∧ rest.dropWhile isWordChar = rest := by
    cases rest with
    | nil => exact ⟨rfl, rfl⟩
    | cons d more => simp [stop d more rfl]
  rw [List.cons_append, word?, if_pos start, List.takeWhile_append_of_pos all,
    List.dropWhile_append_of_pos all, cut.1, cut.2, List.append_nil]

theorem keyword?_append {w rest : List Char} (word : IsWord w) (expected : List Char)
    (stop : ∀ c cs, rest = c :: cs → isWordChar c = false) :
    keyword? expected (w ++ rest) = if w = expected then some rest else none := by
  rw [keyword?, word?_append word stop]

theorem keyword?_of_not_start {c : Char} (h : isWordStart c = false) (expected text : List Char) :
    keyword? expected (c :: text) = none := by
  simp [keyword?, word?, h]

def keysText (keys : List (List Char)) : List Char := keys.flatMap fun k => '.' :: k

theorem joinSegments_cons (root : List Char) (keys : List (List Char)) :
    Text.joinSegments (root :: keys) = root ++ keysText keys := by
  induction keys generalizing root with
  | nil => simp [Text.joinSegments, keysText]
  | cons k rest ih => simp [Text.joinSegments, ih, keysText]

theorem length_keysText (keys : List (List Char)) : keys.length ≤ (keysText keys).length := by
  induction keys with
  | nil => exact Nat.le_refl _
  | cons k rest ih =>
    simp only [keysText, List.flatMap_cons, List.length_append, List.length_cons] at ih ⊢
    omega

theorem keysText_stops {keys : List (List Char)} {rest : List Char} (apart : Apart rest) :
    ∀ c cs, keysText keys ++ rest = c :: cs → isWordChar c = false := by
  intro c cs eq
  cases keys with
  | nil => exact apart.word c cs eq
  | cons k others =>
    cases eq
    decide

theorem keysAfter_stop {rest : List Char} (apart : Apart rest) (fuel : Nat) :
    keysAfter fuel rest = ([], rest) := by
  cases fuel with
  | zero => rfl
  | succ fuel =>
    cases rest with
    | nil => rfl
    | cons c cs => simp [keysAfter, (apart c cs rfl).2]

theorem keysAfter_keysText {keys : List (List Char)} {rest : List Char} (apart : Apart rest)
    (words : ∀ k ∈ keys, IsWord k) {fuel : Nat} (enough : keys.length ≤ fuel) :
    keysAfter fuel (keysText keys ++ rest) = (keys, rest) := by
  induction keys generalizing fuel with
  | nil => exact keysAfter_stop apart fuel
  | cons k others ih =>
    obtain ⟨first, more⟩ := List.forall_mem_cons.mp words
    obtain ⟨fuel, rfl⟩ : ∃ less, fuel = less + 1 := ⟨fuel - 1, by simp at enough; omega⟩
    have text : keysText (k :: others) ++ rest = '.' :: (k ++ (keysText others ++ rest)) := by
      simp [keysText]
    rw [text, keysAfter, word?_append first (keysText_stops apart)]
    simp only [ih more (by simpa using enough)]

theorem unary_of_primary {c : Char} {text : List Char} (start : skipBlanks cs = c :: text)
    (free : keyword? "not".toList (c :: text) = none) (bang : c ≠ '!') (minus : c ≠ '-')
    (read : Gets (primary · (c :: text)) cost e rest) : Gets (unary · cs) (cost + 1) e rest := by
  intro fuel enough
  obtain ⟨fuel, rfl⟩ : ∃ less, fuel = less + 1 := ⟨fuel - 1, by omega⟩
  change unary (fuel + 1) cs = _
  rw [unary]
  dsimp only
  rw [start, free]
  dsimp only
  split
  · rename_i eq
    cases eq
    exact absurd rfl bang
  · rename_i eq
    cases eq
    exact absurd rfl minus
  · exact read fuel (by omega)

theorem unary_not {text : List Char} (word : keyword? "not".toList (skipBlanks cs) = some text)
    (read : Gets (unary · text) cost e rest) : Gets (unary · cs) (cost + 1) (.unary .not e) rest := by
  intro fuel enough
  obtain ⟨fuel, rfl⟩ : ∃ less, fuel = less + 1 := ⟨fuel - 1, by omega⟩
  have operand : unary fuel text = .ok (e, rest) := read fuel (by omega)
  change unary (fuel + 1) cs = _
  rw [unary]
  simp only [word, operand]

theorem unary_bang {text : List Char} (skipped : skipBlanks cs = '!' :: text)
    (read : Gets (unary · text) cost e rest) : Gets (unary · cs) (cost + 1) (.unary .not e) rest := by
  intro fuel enough
  obtain ⟨fuel, rfl⟩ : ∃ less, fuel = less + 1 := ⟨fuel - 1, by omega⟩
  have operand : unary fuel text = .ok (e, rest) := read fuel (by omega)
  have no_word : keyword? "not".toList ('!' :: text) = none := rfl
  change unary (fuel + 1) cs = _
  rw [unary]
  simp only [skipped, no_word, operand]

theorem unary_neg {text : List Char} (skipped : skipBlanks cs = '-' :: text)
    (read : Gets (unary · text) cost e rest) : Gets (unary · cs) (cost + 1) (.unary .neg e) rest := by
  intro fuel enough
  obtain ⟨fuel, rfl⟩ : ∃ less, fuel = less + 1 := ⟨fuel - 1, by omega⟩
  have operand : unary fuel text = .ok (e, rest) := read fuel (by omega)
  have no_word : keyword? "not".toList ('-' :: text) = none := rfl
  change unary (fuel + 1) cs = _
  rw [unary]
  simp only [skipped, no_word, operand]

theorem primary_paren {text mid : List Char} (read : Gets (level · 0 text) cost e mid)
    (close : skipBlanks mid = ')' :: rest) : Gets (primary · ('(' :: text)) (cost + 1) e rest := by
  intro fuel enough
  obtain ⟨fuel, rfl⟩ : ∃ less, fuel = less + 1 := ⟨fuel - 1, by omega⟩
  have inner : level fuel 0 text = .ok (e, mid) := read fuel (by omega)
  change primary (fuel + 1) ('(' :: text) = _
  unfold primary
  simp only [inner, close]

theorem primary_array {text : List Char} {items : List Expr}
    (read : Gets (arguments · ']' text) cost items rest) :
    Gets (primary · ('[' :: text)) (cost + 1) (.array items) rest := by
  intro fuel enough
  obtain ⟨fuel, rfl⟩ : ∃ less, fuel = less + 1 := ⟨fuel - 1, by omega⟩
  have inner : arguments fuel ']' text = .ok (items, rest) := read fuel (by omega)
  change primary (fuel + 1) ('[' :: text) = _
  unfold primary
  simp only [inner]

theorem primary_string {quote : Char} (quoted : quote = '"' ∨ quote = '\'') {text s : List Char}
    (read : textUntil quote text = .ok (s, rest)) :
    Gets (primary · (quote :: text)) 1 (.literal (.string (String.ofList s))) rest := by
  intro fuel enough
  obtain ⟨fuel, rfl⟩ : ∃ less, fuel = less + 1 := ⟨fuel - 1, by omega⟩
  change primary (fuel + 1) (quote :: text) = _
  unfold primary
  rcases quoted with rfl | rfl <;> simp only [read, Except.map]

theorem primary_number {c : Char} {text : List Char} {v : Value} (digit : Numeral.isDigit c = true)
    (read : number? (c :: text) = some (.ok (v, rest))) :
    Gets (primary · (c :: text)) 1 (.literal v) rest := by
  intro fuel enough
  obtain ⟨fuel, rfl⟩ : ∃ less, fuel = less + 1 := ⟨fuel - 1, by omega⟩
  change primary (fuel + 1) (c :: text) = _
  unfold primary
  have plain : c ≠ '(' ∧ c ≠ '[' ∧ c ≠ '"' ∧ c ≠ '\'' := by
    refine ⟨?_, ?_, ?_, ?_⟩ <;> rintro rfl <;> exact absurd digit (by decide)
  simp [read, plain, Except.map]

theorem primary_word {c : Char} {text : List Char} (start : isWordStart c = true)
    (read : Gets (nameOrCall · (c :: text)) cost e rest) :
    Gets (primary · (c :: text)) (cost + 1) e rest := by
  intro fuel enough
  obtain ⟨fuel, rfl⟩ : ∃ less, fuel = less + 1 := ⟨fuel - 1, by omega⟩
  have inner : nameOrCall fuel (c :: text) = .ok (e, rest) := read fuel (by omega)
  change primary (fuel + 1) (c :: text) = _
  unfold primary
  have plain : c ≠ '(' ∧ c ≠ '[' ∧ c ≠ '"' ∧ c ≠ '\'' := by
    refine ⟨?_, ?_, ?_, ?_⟩ <;> rintro rfl <;> exact absurd start (by decide)
  have no_number : number? (c :: text) = none := by
    simp [number?, not_digit_of_wordStart start]
  simp [no_number, plain, inner]

theorem nameOrCall_name {root : List Char} {keys : List (List Char)} (word : IsWord root)
    (single : keys = [] → literalWord? (String.ofList root) = none ∧ String.ofList root ∉ reserved)
    (words : ∀ k ∈ keys, IsWord k) (ends : Ends rest) :
    Gets (nameOrCall · (root ++ (keysText keys ++ rest))) 1
      (.name (String.ofList root) (keys.map String.ofList)) rest := by
  intro fuel enough
  obtain ⟨fuel, rfl⟩ : ∃ less, fuel = less + 1 := ⟨fuel - 1, by omega⟩
  change nameOrCall (fuel + 1) (root ++ (keysText keys ++ rest)) = _
  have behind : keysAfter (keysText keys ++ rest).length (keysText keys ++ rest) = (keys, rest) := by
    refine keysAfter_keysText ends.apart words ?_
    rw [List.length_append]
    exact Nat.le_trans (length_keysText keys) (Nat.le_add_right _ _)
  rw [nameOrCall, word?_append word (keysText_stops ends.apart)]
  simp only [behind]
  rw [if_neg, if_neg]
  · split
    · rename_i inner eq
      exact absurd eq (ends.call inner)
    · rfl
  · rintro ⟨bare, mem⟩
    exact (single bare).2 mem
  · rintro ⟨bare, literal⟩
    rw [(single bare).1] at literal
    cases literal

theorem nameOrCall_literal {w : String} {v : Value} (word : IsWord w.toList)
    (meant : literalWord? w = some v) (ends : Ends rest) :
    Gets (nameOrCall · (w.toList ++ rest)) 1 (.literal v) rest := by
  intro fuel enough
  obtain ⟨fuel, rfl⟩ : ∃ less, fuel = less + 1 := ⟨fuel - 1, by omega⟩
  change nameOrCall (fuel + 1) (w.toList ++ rest) = _
  rw [nameOrCall, word?_append word ends.apart.word]
  simp [keysAfter_stop ends.apart, meant]

theorem nameOrCall_call {function : String} {front text : List Char} {args : List Expr}
    (word : IsWord function.toList) (meant : literalWord? function = none)
    (unreserved : function ∉ reserved) (blank : Blanks front)
    (read : Gets (arguments · ')' text) cost args rest) :
    Gets (nameOrCall · (function.toList ++ (front ++ '(' :: text))) (cost + 1) (.call function args)
      rest := by
  intro fuel enough
  obtain ⟨fuel, rfl⟩ : ∃ less, fuel = less + 1 := ⟨fuel - 1, by omega⟩
  have inner : arguments fuel ')' text = .ok (args, rest) := read fuel (by omega)
  change nameOrCall (fuel + 1) (function.toList ++ (front ++ '(' :: text)) = _
  have bracket : skipBlanks (front ++ '(' :: text) = '(' :: text := skipBlanks_append blank _
  have apart : Apart (front ++ '(' :: text) := .bracket blank text
  rw [nameOrCall, word?_append word apart.word]
  simp [keysAfter_stop apart, meant, unreserved, bracket, inner]

/-- Where a list ends at once, there is no expression, and that is no final failure. -/
theorem level_none {close : Char} (closes : close = ')' ∨ close = ']')
    (here : skipBlanks cs = close :: rest) (fuel : Nat) (enough : 11 ≤ fuel) :
    ∃ f, level fuel 0 cs = .error f ∧ f.committed = false := by
  obtain ⟨less, rfl⟩ : ∃ less, fuel = less + 4 + levels + 1 := ⟨fuel - 11, by simp [levels]; omega⟩
  have failed : unary (less + 4) cs = .error ⟨false, 1, close :: rest⟩ := by
    rw [unary, here]
    rcases closes with rfl | rfl <;> rfl
  exact ⟨_, level_error failed levels (Nat.zero_add _), rfl⟩

theorem arguments_nil {close : Char} (closes : close = ')' ∨ close = ']')
    (here : skipBlanks cs = close :: rest) : Gets (arguments · close cs) 12 [] rest := by
  intro fuel enough
  obtain ⟨fuel, rfl⟩ : ∃ less, fuel = less + 1 := ⟨fuel - 1, by omega⟩
  obtain ⟨f, failed, open_end⟩ := level_none closes here fuel (by omega)
  change arguments (fuel + 1) close cs = _
  rw [arguments]
  simp [failed, open_end, here]

theorem arguments_cons {close : Char} {mid tail : List Char} {first : Expr} {others : List Expr}
    (read : Gets (level · 0 cs) cost first mid) (more : Gets (argumentsFrom · mid) cost others tail)
    (here : skipBlanks tail = close :: rest) :
    Gets (arguments · close cs) (cost + 1) (first :: others) rest := by
  intro fuel enough
  obtain ⟨fuel, rfl⟩ : ∃ less, fuel = less + 1 := ⟨fuel - 1, by omega⟩
  have head : level fuel 0 cs = .ok (first, mid) := read fuel (by omega)
  have others_read : argumentsFrom fuel mid = .ok (others, tail) := more fuel (by omega)
  change arguments (fuel + 1) close cs = _
  rw [arguments]
  simp [head, others_read, here]

theorem argumentsFrom_nil {close : Char} (closes : close = ')' ∨ close = ']')
    (here : skipBlanks cs = close :: rest) : Gets (argumentsFrom · cs) 1 [] cs := by
  intro fuel enough
  obtain ⟨fuel, rfl⟩ : ∃ less, fuel = less + 1 := ⟨fuel - 1, by omega⟩
  change argumentsFrom (fuel + 1) cs = _
  rw [argumentsFrom, here]
  rcases closes with rfl | rfl <;> rfl

theorem argumentsFrom_cons {text mid : List Char} {others : List Expr}
    (comma : skipBlanks cs = ',' :: text) (read : Gets (level · 0 text) cost e mid)
    (more : Gets (argumentsFrom · mid) cost others rest) :
    Gets (argumentsFrom · cs) (cost + 1) (e :: others) rest := by
  intro fuel enough
  obtain ⟨fuel, rfl⟩ : ∃ less, fuel = less + 1 := ⟨fuel - 1, by omega⟩
  have head : level fuel 0 text = .ok (e, mid) := read fuel (by omega)
  have tail : argumentsFrom fuel mid = .ok (others, rest) := more fuel (by omega)
  change argumentsFrom (fuel + 1) cs = _
  rw [argumentsFrom, comma]
  simp [head, tail]

theorem number?_int {digits : List Char} {n : Int64} (some_digit : digits ≠ [])
    (all : ∀ c ∈ digits, Numeral.isDigit c = true) (read : Numeral.readInt64 10 digits = some n)
    (ends : Ends rest) : number? (digits ++ rest) = some (.ok (.int n, rest)) := by
  obtain ⟨taken, left⟩ := Numeral.digits_end all ends.apart.digit
  unfold number?
  simp only [taken, left, if_neg some_digit, read]
  split
  · exact absurd rfl (ends.apart _ _ rfl).2
  · rfl

theorem number?_float {whole fraction : List Char} {x : Binary64} (some_whole : whole ≠ [])
    (some_fraction : fraction ≠ []) (whole_digits : ∀ c ∈ whole, Numeral.isDigit c = true)
    (fraction_digits : ∀ c ∈ fraction, Numeral.isDigit c = true)
    (read : Numeral.readBinary64 (whole ++ '.' :: fraction) = some x) (ends : Ends rest) :
    number? (whole ++ '.' :: (fraction ++ rest)) = some (.ok (.float x, rest)) := by
  have point : ∀ c cs, '.' :: (fraction ++ rest) = c :: cs → Numeral.isDigit c = false := by
    rintro c cs ⟨⟩
    decide
  obtain ⟨taken, left⟩ := Numeral.digits_end whole_digits point
  obtain ⟨taken', left'⟩ := Numeral.digits_end fraction_digits ends.apart.digit
  unfold number?
  simp only [taken, left, taken', left', if_neg some_whole, if_neg some_fraction, read]

end Parser

end RuleRegistry.Expr
