import RuleRegistry.Expr.Basic
import RuleRegistry.Expr.Function
import RuleRegistry.Number.Numeral

/-!
Reading expressions. The levels, loosest first: or; and; comparison and membership; sum and
difference; joining of text; product, quotient and remainder; the prefix operators; and what is
primary. Every binary level is left-associative.

A step gives a result with the rest of the text, or a failure with the text at which it stopped. An
uncommitted failure lets an alternative or an optional part give way; a committed one ends the
reading. Each primary that a failure passes through adds one expectation.
-/

namespace RuleRegistry.Expr.Parser

/-- A step that failed: whether it is final, what was expected, and the text where it stopped. -/
structure Failure where
  committed : Bool
  expectations : Nat
  rest : List Char

abbrev Step (α : Type) := Except Failure (α × List Char)

namespace Failure

def here (rest : List Char) : Failure := ⟨false, 0, rest⟩

def commit (f : Failure) : Failure := ⟨true, f.expectations, f.rest⟩

def expecting (f : Failure) : Failure := ⟨f.committed, f.expectations + 1, f.rest⟩

def message (f : Failure) : String :=
  if f.expectations = 0 then "unexpected input"
  else "expected " ++ ", ".intercalate (List.replicate f.expectations "expression")

end Failure

def isBlankAscii (c : Char) : Bool :=
  c == ' ' || c == '\t' || c == '\n' || c == '\r' || c == '\x0c'

def skipBlanks (cs : List Char) : List Char := cs.dropWhile isBlankAscii

def isAsciiLetter (c : Char) : Bool := ('a' ≤ c && c ≤ 'z') || ('A' ≤ c && c ≤ 'Z')

def isWordStart (c : Char) : Bool := isAsciiLetter c || c == '_'

def isWordChar (c : Char) : Bool := isWordStart c || Numeral.isDigit c

def word? : List Char → Option (List Char × List Char)
  | [] => none
  | c :: rest =>
    if isWordStart c then some (c :: rest.takeWhile isWordChar, rest.dropWhile isWordChar)
    else none

/-- The text after a whole word, so that `order` does not begin with `or`. -/
def keyword? (expected : List Char) (cs : List Char) : Option (List Char) :=
  match word? cs with
  | some (found, rest) => if found = expected then some rest else none
  | none => none

def symbol? : List Char → List Char → Option (List Char)
  | [], cs => some cs
  | _ :: _, [] => none
  | s :: symbol, c :: cs => if s = c then symbol? symbol cs else none

def keysAfter : Nat → List Char → List (List Char) × List Char
  | 0, cs => ([], cs)
  | fuel + 1, '.' :: cs =>
    match word? cs with
    | some (key, rest) => let (keys, rest) := keysAfter fuel rest; (key :: keys, rest)
    | none => ([], '.' :: cs)
  | _ + 1, cs => ([], cs)

inductive Spelling where
  | symbol (s : List Char)
  | words (ws : List (List Char))

def wordsAfter : List (List Char) → List Char → Option (List Char)
  | [], cs => some cs
  | w :: ws, cs => (keyword? w (skipBlanks cs)).bind (wordsAfter ws)

def Spelling.after? : Spelling → List Char → Option (List Char)
  | .symbol s, cs => symbol? s cs
  | .words ws, cs => wordsAfter ws cs

def symbolSpelling (s : String) : Spelling := .symbol s.toList

def wordSpelling (ws : List String) : Spelling := .words (ws.map String.toList)

def operatorsAt : Nat → List (Spelling × BinaryOp)
  | 0 => [(symbolSpelling "||", .or), (wordSpelling ["or"], .or)]
  | 1 => [(symbolSpelling "&&", .and), (wordSpelling ["and"], .and)]
  | 2 => [(symbolSpelling "==", .compare .eq), (symbolSpelling "!=", .compare .ne),
      (symbolSpelling "<=", .compare .le), (symbolSpelling ">=", .compare .ge),
      (symbolSpelling "<", .compare .lt), (symbolSpelling ">", .compare .gt),
      (wordSpelling ["not", "in"], .notWithin), (wordSpelling ["in"], .within)]
  | 3 => [(symbolSpelling "+", .add), (symbolSpelling "-", .sub)]
  | 4 => [(symbolSpelling "~", .concat)]
  | 5 => [(symbolSpelling "*", .mul), (symbolSpelling "/", .div), (symbolSpelling "%", .mod)]
  | _ => []

def levels : Nat := 6

def firstOperator : List (Spelling × BinaryOp) → List Char → Option (BinaryOp × List Char)
  | [], _ => none
  | (spelling, op) :: others, cs =>
    match spelling.after? cs with
    | some rest => some (op, rest)
    | none => firstOperator others cs

def operator? (level : Nat) (cs : List Char) : Option (BinaryOp × List Char) :=
  firstOperator (operatorsAt level) (skipBlanks cs)

/-- The characters of a text up to its quote, with escapes resolved. A backslash before any other
character stands for itself. -/
def textUntil (quote : Char) : List Char → Step (List Char)
  | [] => .error ⟨true, 0, []⟩
  | c :: rest =>
    if c = quote then .ok ([], rest)
    else if c = '\\' then
      match rest with
      | [] => .error ⟨true, 0, []⟩
      | e :: rest =>
        let resolved :=
          if e = '"' ∨ e = '\'' ∨ e = '\\' then [e]
          else if e = 'n' then ['\n']
          else if e = 't' then ['\t']
          else ['\\', e]
        (textUntil quote rest).map fun p => (resolved ++ p.1, p.2)
    else (textUntil quote rest).map fun p => (c :: p.1, p.2)

def number? (cs : List Char) : Option (Step Value) :=
  let digits := cs.takeWhile Numeral.isDigit
  let rest := cs.dropWhile Numeral.isDigit
  if digits = [] then none
  else
    let whole : Step Value :=
      match Numeral.readInt64 10 digits with
      | some n => .ok (.int n, rest)
      | none => .error ⟨true, 0, rest⟩
    match rest with
    | '.' :: after =>
      let fraction := after.takeWhile Numeral.isDigit
      if fraction = [] then some whole
      else
        match Numeral.readBinary64 (digits ++ '.' :: fraction) with
        | some x => some (.ok (.float x, after.dropWhile Numeral.isDigit))
        | none => some (.error ⟨true, 0, after.dropWhile Numeral.isDigit⟩)
    | _ => some whole

def reserved : List String := ["and", "or", "not", "in"]

def literalWord? (w : String) : Option Value :=
  if w = "true" then some (.bool true)
  else if w = "false" then some (.bool false)
  else if w = "null" then some .null
  else none

mutual

/-- A binary level, and below the last one the prefix operators. -/
def level : Nat → Nat → List Char → Step Expr
  | 0, _, cs => .error ⟨true, 0, cs⟩
  | fuel + 1, n, cs =>
    if n < levels then
      match level fuel (n + 1) cs with
      | .ok (left, rest) => levelFrom fuel n left rest
      | .error f => .error f
    else unary fuel cs

def levelFrom : Nat → Nat → Expr → List Char → Step Expr
  | 0, _, _, cs => .error ⟨true, 0, cs⟩
  | fuel + 1, n, left, cs =>
    match operator? n cs with
    | none => .ok (left, cs)
    | some (op, rest) =>
      match level fuel (n + 1) rest with
      | .ok (right, rest) => levelFrom fuel n (.binary op left right) rest
      | .error f => .error f.commit

def unary : Nat → List Char → Step Expr
  | 0, cs => .error ⟨true, 0, cs⟩
  | fuel + 1, cs =>
    let cs := skipBlanks cs
    let operand (op : UnaryOp) (rest : List Char) : Step Expr :=
      match unary fuel rest with
      | .ok (e, rest) => .ok (.unary op e, rest)
      | .error f => .error f.commit
    match keyword? "not".toList cs with
    | some rest => operand .not rest
    | none =>
      match cs with
      | '!' :: rest => operand .not rest
      | '-' :: rest => operand .neg rest
      | _ => primary fuel cs

def primary : Nat → List Char → Step Expr
  | 0, cs => .error ⟨true, 0, cs⟩
  | fuel + 1, cs =>
    let result : Step Expr :=
      match cs with
      | '(' :: rest =>
        match level fuel 0 rest with
        | .ok (e, rest) =>
          match skipBlanks rest with
          | ')' :: rest => .ok (e, rest)
          | rest => .error ⟨true, 0, rest⟩
        | .error f => if f.committed then .error f else .error (.here cs)
      | '[' :: rest =>
        match arguments fuel ']' rest with
        | .ok (items, rest) => .ok (.array items, rest)
        | .error f => .error f
      | '"' :: rest => (textUntil '"' rest).map fun p => (.literal (.string (String.ofList p.1)), p.2)
      | '\'' :: rest =>
        (textUntil '\'' rest).map fun p => (.literal (.string (String.ofList p.1)), p.2)
      | cs =>
        match number? cs with
        | some found => found.map fun p => (.literal p.1, p.2)
        | none => nameOrCall fuel cs
    match result with
    | .ok found => .ok found
    | .error f => .error f.expecting

def nameOrCall : Nat → List Char → Step Expr
  | 0, cs => .error ⟨true, 0, cs⟩
  | fuel + 1, cs =>
    match word? cs with
    | none => .error (.here cs)
    | some (root, rest) =>
      let (keys, rest) := keysAfter rest.length rest
      let single := String.ofList root
      if keys = [] ∧ (literalWord? single).isSome then
        .ok (.literal ((literalWord? single).getD .null), rest)
      else if keys = [] ∧ single ∈ reserved then .error (.here cs)
      else
        match skipBlanks rest with
        | '(' :: inner =>
          if keys = [] then
            match arguments fuel ')' inner with
            | .ok (args, rest) => .ok (.call single args, rest)
            | .error f => .error f
          else .error ⟨true, 0, inner⟩
        | _ => .ok (.name single (keys.map String.ofList), rest)

def arguments : Nat → Char → List Char → Step (List Expr)
  | 0, _, cs => .error ⟨true, 0, cs⟩
  | fuel + 1, close, cs =>
    let closed (items : List Expr) (cs : List Char) : Step (List Expr) :=
      match skipBlanks cs with
      | c :: rest => if c = close then .ok (items, rest) else .error ⟨true, 0, c :: rest⟩
      | [] => .error ⟨true, 0, []⟩
    match level fuel 0 cs with
    | .error f => if f.committed then .error f else closed [] cs
    | .ok (first, rest) =>
      match argumentsFrom fuel rest with
      | .error f => .error f
      | .ok (others, rest) => closed (first :: others) rest

/-- Further expressions, each after a comma. A comma without an expression is left unread. -/
def argumentsFrom : Nat → List Char → Step (List Expr)
  | 0, cs => .error ⟨true, 0, cs⟩
  | fuel + 1, cs =>
    match skipBlanks cs with
    | ',' :: rest =>
      match level fuel 0 rest with
      | .error f => if f.committed then .error f else .ok ([], cs)
      | .ok (e, rest) =>
        match argumentsFrom fuel rest with
        | .error f => .error f
        | .ok (others, rest) => .ok (e :: others, rest)
    | _ => .ok ([], cs)

end

/-- Between two characters no more than this many steps nest. -/
def stepsPerChar : Nat := 16

def run (cs : List Char) : Step Expr := level (stepsPerChar * (cs.length + 1)) 0 cs

def utf8Length : List Char → Nat
  | [] => 0
  | c :: rest => c.utf8Size + utf8Length rest

end Parser

open RuleRegistry.Expr.Parser in
def parse (source : String) : Except ExprError Expr :=
  let cs := source.toList
  let failed (f : Failure) : ExprError :=
    .malformed source (utf8Length cs - utf8Length f.rest) f.message
  match run cs with
  | .error f => .error (failed f)
  | .ok (e, rest) =>
    match skipBlanks rest with
    | [] => .ok e
    | rest => .error (failed (.here rest))

end RuleRegistry.Expr
