import RuleRegistry.Number.Numeral
import RuleRegistry.Text.CodePoint
import RuleRegistry.Yaml.Cursor

namespace RuleRegistry.Yaml

inductive Style where
  | plain
  | single
  | double
  | literal
  | folded
deriving DecidableEq, Inhabited

namespace Scalar

def escaped? (c : Char) : Option Char :=
  match c with
  | '0' => some '\x00'
  | 'a' => some '\x07'
  | 'b' => some '\x08'
  | 't' | '\t' => some '\t'
  | 'n' => some '\n'
  | 'v' => some '\x0b'
  | 'f' => some '\x0c'
  | 'r' => some '\r'
  | 'e' => some '\x1b'
  | ' ' => some ' '
  | '"' => some '"'
  | '/' => some '/'
  | '\\' => some '\\'
  | 'N' => some '\u0085'
  | '_' => some '\u00a0'
  | 'L' => some '\u2028'
  | 'P' => some '\u2029'
  | _ => none

def codeLength? (c : Char) : Option Nat :=
  match c with
  | 'x' => some 2
  | 'u' => some 4
  | 'U' => some 8
  | _ => none

/-- An escape behind its backslash: the character and the number of characters read. -/
def readEscape : List Char → Option (Char × Nat)
  | [] => none
  | c :: rest =>
    match codeLength? c with
    | some n =>
      let digits := rest.take n
      if digits.length = n then
        (Numeral.readNat 16 digits).bind fun code => (Text.charOfCode? code).map fun ch => (ch, n + 1)
      else none
    | none => (escaped? c).map fun ch => (ch, 1)

/-- A part of a quoted scalar without blanks: its text, whether an escaped line break ends it, and
the place after it. -/
def quotedPart (single : Bool) : Nat → Cursor → Option (List Char × Bool × Cursor)
  | 0, _ => none
  | fuel + 1, c =>
    let more (text : List Char) (c : Cursor) : Option (List Char × Bool × Cursor) :=
      (quotedPart single fuel c).map fun p => (text ++ p.1, p.2)
    if wordEnds c.rest then some ([], false, c)
    else
      match single, c.rest with
      | true, '\'' :: '\'' :: _ => more ['\''] (c.skip 2)
      | true, '\'' :: _ => some ([], false, c)
      | true, ch :: _ => more [ch] c.next
      | false, '"' :: _ => some ([], false, c)
      | false, '\\' :: after =>
        if !after.isEmpty && lineEnds after then some ([], true, c.next.next)
        else
          match readEscape after with
          | some (ch, n) => more [ch] (c.skip (n + 1))
          | none => none
      | false, ch :: _ => more [ch] c.next
      | _, [] => none

def quotedFrom (single : Bool) : Nat → Cursor → Option (List Char × Cursor)
  | 0, _ => none
  | fuel + 1, c =>
    if c.atDocumentMark || c.rest.isEmpty then none
    else
      match quotedPart single fuel c with
      | none => none
      | some (part, escapedBreak, c) =>
        if c.rest.head? == some (if single then '\'' else '"') then some (part, c.next)
        else
          match Gap.read 0 (fuel + 1) { broken := escapedBreak } c with
          | none => none
          | some (gap, c) =>
            (quotedFrom single fuel c).map fun p => (part ++ gap.text ++ p.1, p.2)

def quoted (single : Bool) (c : Cursor) : Option (List Char × Cursor) :=
  quotedFrom single (c.rest.length + 2) c.next

def isFlowIndicator (c : Char) : Bool :=
  c == ',' || c == '[' || c == ']' || c == '{' || c == '}'

/-- Whether a plain scalar ends here: at a blank, at a colon before one, and inside brackets at an
indicator. -/
def plainEnds (flow : Bool) (rest : List Char) : Bool :=
  match rest with
  | [] => true
  | c :: after => wordEnds rest || (c == ':' && wordEnds after) || (flow && isFlowIndicator c)

def misplacedColon (flow : Bool) (rest : List Char) : Bool :=
  match rest with
  | ':' :: c :: _ => flow && (isFlowIndicator c || c == '?')
  | _ => false

def plainPart (flow : Bool) : Nat → Cursor → Option (List Char × Cursor)
  | 0, _ => none
  | fuel + 1, c =>
    if wordEnds c.rest then some ([], c)
    else if misplacedColon flow c.rest then none
    else if plainEnds flow c.rest then some ([], c)
    else
      match c.rest with
      | ch :: _ => (plainPart flow fuel c.next).map fun p => (ch :: p.1, p.2)
      | [] => some ([], c)

/-- A plain scalar after a gap, which counts only if something follows. Gives the text, whether a
line break stands behind it, and the place after it. -/
def plainFrom (flow : Bool) (indent : Nat) :
    Nat → Gap → Cursor → Option (List Char × Bool × Cursor)
  | 0, _, _ => none
  | fuel + 1, gap, c =>
    if c.atDocumentMark || c.rest.head? == some '#' then some ([], gap.broken, c)
    else
      match plainPart flow (fuel + 1) c with
      | none => none
      | some ([], c) => some ([], gap.broken, c)
      | some (part, c) =>
        if c.rest.isEmpty || !wordEnds c.rest then some (gap.text ++ part, false, c)
        else
          match Gap.read indent (fuel + 1) {} c with
          | none => none
          | some (next, c) =>
            if !flow && c.column < indent then some (gap.text ++ part, next.broken, c)
            else
              (plainFrom flow indent fuel next c).map fun p =>
                (gap.text ++ part ++ p.1, p.2)

def plain (flow : Bool) (indent : Nat) (c : Cursor) : Option (List Char × Bool × Cursor) :=
  plainFrom flow indent (c.rest.length + 2) {} c

/-- What becomes of the line breaks at the end of a block scalar. -/
inductive Chomping where
  | strip
  | clip
  | keep
deriving DecidableEq

def chomping? (c : Char) : Option Chomping :=
  if c = '-' then some .strip else if c = '+' then some .keep else none

def increment? (c : Char) : Option Nat :=
  if '1' ≤ c ∧ c ≤ '9' then some (c.toNat - '0'.toNat) else none

def blockHeader (c : Cursor) : Option (Chomping × Option Nat × Cursor) :=
  match c.rest with
  | a :: rest =>
    match chomping? a, rest with
    | some chomping, b :: _ =>
      if b = '0' then none
      else match increment? b with
        | some n => some (chomping, some n, c.skip 2)
        | none => some (chomping, none, c.next)
    | some chomping, [] => some (chomping, none, c.next)
    | none, _ =>
      if a = '0' then none
      else match increment? a with
        | none => some (.clip, none, c)
        | some n =>
          match rest.head?.bind chomping? with
          | some chomping => some (chomping, some n, c.skip 2)
          | none => some (.clip, some n, c.next)
  | [] => some (.clip, none, c)

def indentRoom (indent : Option Nat) (c : Cursor) : Nat :=
  match indent with
  | some n => n - c.column
  | none => c.rest.length

/-- Line breaks and indentation before the next line of a block scalar, with the greatest
indentation seen. -/
def blockBreaks (indent : Option Nat) : Nat → Nat → Cursor → Option (List Char × Nat × Cursor)
  | 0, _, _ => none
  | fuel + 1, widest, c =>
    let room := indentRoom indent c
    let c := c.skip (((c.rest.take room).takeWhile (· == ' ')).length)
    let widest := max widest c.column
    if indentRoom indent c ≠ 0 ∧ c.rest.head? = some '\t' then none
    else
      match c.rest with
      | ch :: _ =>
        if isBreak ch then
          (blockBreaks indent fuel widest c.next).map fun p => (keptBreak ch :: p.1, p.2)
        else some ([], widest, c)
      | [] => some ([], widest, c)

/-- The lines of a block scalar. `leading` is the break before the line, `breaks` the empty lines
after it, and `wasBlank` tells whether the line before starts with a blank. -/
def blockLines (folded : Bool) (indent : Nat) : Nat → List Char → List Char → Bool → Cursor →
    Option (List Char × List Char × List Char × Cursor)
  | 0, _, _, _, _ => none
  | fuel + 1, leading, breaks, wasBlank, c =>
    if c.column ≠ indent ∨ c.rest.isEmpty then some ([], leading, breaks, c)
    else
      let startsBlank := (c.rest.head?.map isBlank).getD false
      let joint :=
        if folded && leading == ['\n'] && !wasBlank && !startsBlank then
          (if breaks = [] then [' '] else breaks)
        else leading ++ breaks
      let (line, c) := c.span fun ch => !isBreak ch
      let leading := (c.rest.head?.map fun ch => [keptBreak ch]).getD []
      match blockBreaks (some indent) (fuel + 1) 0 c.next with
      | none => none
      | some (breaks, _, c) =>
        (blockLines folded indent fuel leading breaks startsBlank c).map fun p =>
          (joint ++ line ++ p.1, p.2)

def block (folded : Bool) (outer : Int) (c : Cursor) : Option (List Char × Cursor) := do
  let (chomping, increment, c) ← blockHeader c.next
  let c := c.skipComment
  if !lineEnds c.rest then none
  let c := c.next
  let stated := increment.map fun n => if 0 ≤ outer then outer.toNat + n else n
  let fuel := c.rest.length + 2
  let (breaks, widest, c) ← blockBreaks stated fuel 0 c
  let indent := stated.getD (max widest (max (outer + 1).toNat 1))
  let (text, leading, breaks, c) ← blockLines folded indent fuel [] breaks false c
  let tail := match chomping with
    | .strip => []
    | .clip => leading
    | .keep => leading ++ breaks
  some (text ++ tail, c)

end Scalar

end RuleRegistry.Yaml
