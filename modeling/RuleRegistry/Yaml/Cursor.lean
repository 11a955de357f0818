namespace RuleRegistry.Yaml

def isBreak (c : Char) : Bool :=
  c == '\n' || c == '\r' || c == '\u0085' || c == '\u2028' || c == '\u2029'

def isBlank (c : Char) : Bool := c == ' ' || c == '\t'

def wordEnds : List Char → Bool
  | [] => true
  | c :: _ => isBlank c || isBreak c

def lineEnds : List Char → Bool
  | [] => true
  | c :: _ => isBreak c

def isNameChar (c : Char) : Bool :=
  ('a' ≤ c && c ≤ 'z') || ('A' ≤ c && c ≤ 'Z') || ('0' ≤ c && c ≤ '9') || c == '-' || c == '_'

def isAllowed (c : Char) : Bool :=
  let n := c.toNat
  n == 0x09 || n == 0x0A || n == 0x0D || (0x20 ≤ n && n ≤ 0x7E) || n == 0x85 ||
    (0xA0 ≤ n && n ≤ 0xD7FF) || (0xE000 ≤ n && n ≤ 0xFFFD) || 0x10000 ≤ n

def documentMark? (rest : List Char) : Option Char :=
  match rest with
  | a :: b :: c :: after =>
    if a = b ∧ b = c ∧ (a = '-' ∨ a = '.') ∧ wordEnds after then some a else none
  | _ => none

/-- A place in a text: the bytes before it, its line and its column in characters. -/
structure Cursor where
  rest : List Char
  index : Nat := 0
  line : Nat := 0
  column : Nat := 0

namespace Cursor

def next (c : Cursor) : Cursor :=
  match c.rest with
  | [] => c
  | '\r' :: '\n' :: rest => ⟨rest, c.index + 2, c.line + 1, 0⟩
  | ch :: rest =>
    if isBreak ch then ⟨rest, c.index + ch.utf8Size, c.line + 1, 0⟩
    else ⟨rest, c.index + ch.utf8Size, c.line, c.column + 1⟩

def skip : Nat → Cursor → Cursor
  | 0, c => c
  | n + 1, c => skip n c.next

def skipWhile (p : Char → Bool) (c : Cursor) : Cursor := c.skip (c.rest.takeWhile p).length

def span (p : Char → Bool) (c : Cursor) : List Char × Cursor :=
  (c.rest.takeWhile p, c.skipWhile p)

def skipLine (c : Cursor) : Cursor := c.skipWhile fun ch => !isBreak ch

def skipComment (c : Cursor) : Cursor :=
  let c := c.skipWhile isBlank
  if c.rest.head? == some '#' then c.skipLine else c

def atDocumentMark (c : Cursor) : Bool := c.column == 0 && (documentMark? c.rest).isSome

end Cursor

/-- A line break as it is kept: all but the separators of lines and paragraphs become a line
feed. -/
def keptBreak (c : Char) : Char := if c = '\u2028' ∨ c = '\u2029' then c else '\n'

/-- Blanks and line breaks between two parts of a scalar. -/
structure Gap where
  broken : Bool := false
  blanks : List Char := []
  first : List Char := []
  more : List Char := []

namespace Gap

/-- Adds what stands at a place. Before a line break blanks count; after it a tab may stand only
from the given column on. -/
def read (tabsFrom : Nat) : Nat → Gap → Cursor → Option (Gap × Cursor)
  | 0, _, _ => none
  | fuel + 1, g, c =>
    match c.rest with
    | [] => some (g, c)
    | ch :: _ =>
      if isBlank ch then
        if g.broken && ch == '\t' && c.column < tabsFrom then none
        else read tabsFrom fuel (if g.broken then g else { g with blanks := g.blanks ++ [ch] }) c.next
      else if isBreak ch then
        let g := if g.broken then { g with more := g.more ++ [keptBreak ch] }
          else { g with broken := true, blanks := [], first := [keptBreak ch] }
        read tabsFrom fuel g c.next
      else some (g, c)

/-- The gap folded: one line feed becomes a blank, of several the first goes away. -/
def text (g : Gap) : List Char :=
  if !g.broken then g.blanks
  else if g.first = ['\n'] then (if g.more = [] then [' '] else g.more)
  else g.first ++ g.more

end Gap

end RuleRegistry.Yaml
