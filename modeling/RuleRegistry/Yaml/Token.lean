import RuleRegistry.Yaml.Scalar
import RuleRegistry.Yaml.Tag

/-!
A YAML text as tokens. The beginning and the end of blocks, which a text shows by indentation only,
are tokens too. What may turn out to be a key is remembered until a colon shows that it is one; the
tokens for the key are then put in before it. A text that is no sequence of tokens gives none.
-/

namespace RuleRegistry.Yaml

inductive Token where
  | streamEnd
  | versionDirective (major minor : Nat)
  | tagDirective (handle : String) (start : Bytes)
  | documentStart
  | documentEnd
  | blockSequenceStart
  | blockMappingStart
  | blockEnd
  | flowSequenceStart
  | flowSequenceEnd
  | flowMappingStart
  | flowMappingEnd
  | blockEntry
  | flowEntry
  | key
  | value
  | alias (name : String)
  | anchor (name : String)
  | tag (handle : String) (suffix : Bytes)
  | scalar (style : Style) (text : String)
deriving DecidableEq, Inhabited

structure PendingKey where
  /-- Whether something else than a key there is an error. -/
  required : Bool
  position : Nat
  index : Nat
  line : Nat
  column : Nat

/-- What is known after some of a text has been read. The tokens stand in reverse. -/
structure Scanner where
  cursor : Cursor
  tokens : List Token := []
  indent : Int := -1
  outerIndents : List Int := []
  keyAllowed : Bool := true
  /-- The pending key of each bracket that is open, and of the text outside all of them. -/
  pending : List (Option PendingKey) := [none]
  flow : Nat := 0

namespace Scanner

def inFlow (s : Scanner) : Bool := s.flow != 0

def emit (s : Scanner) (t : Token) : Scanner := { s with tokens := t :: s.tokens }

/-- Puts a token in at a position counted from the first token. -/
def emitAt (s : Scanner) (position : Nat) (t : Token) : Scanner :=
  let (later, earlier) := s.tokens.splitAt (s.tokens.length - position)
  { s with tokens := later ++ t :: earlier }

def moveTo (s : Scanner) (c : Cursor) : Scanner := { s with cursor := c }

def allowKey (s : Scanner) (allowed : Bool) : Scanner := { s with keyAllowed := allowed }

/-- Opens a block when the column is further in than the current block. -/
def openBlock (s : Scanner) (column : Nat) (position : Option Nat) (t : Token) : Scanner :=
  if s.inFlow || (column : Int) ≤ s.indent then s
  else
    let s := { s with outerIndents := s.indent :: s.outerIndents, indent := column }
    match position with
    | some p => s.emitAt p t
    | none => s.emit t

def closeFrom (column : Int) : List Int → Scanner → Scanner
  | [], s => s
  | outer :: others, s =>
    if column < s.indent then
      closeFrom column others ({ s with indent := outer, outerIndents := others }.emit .blockEnd)
    else s

def closeBlocks (s : Scanner) (column : Int) : Scanner :=
  if s.inFlow then s else closeFrom column s.outerIndents s

/-- Whether a pending key can still be one here: on its line and within 1024 bytes. -/
def PendingKey.alive (k : PendingKey) (c : Cursor) : Bool :=
  !(k.line < c.line || k.index + 1024 < c.index)

def dropStale (s : Scanner) : Option Scanner :=
  let stale (k : PendingKey) : Bool := !(PendingKey.alive k s.cursor)
  if s.pending.any fun k => (k.map fun k => stale k && k.required).getD false then none
  else some { s with pending := s.pending.map fun k => k.filter fun k => !stale k }

def dropKey (s : Scanner) : Option Scanner :=
  match s.pending with
  | some k :: others => if k.required then none else some { s with pending := none :: others }
  | _ => some s

def saveKey (s : Scanner) : Option Scanner :=
  if s.keyAllowed then
    s.dropKey.map fun s =>
      let k : PendingKey := ⟨!s.inFlow && s.indent == s.cursor.column, s.tokens.length,
        s.cursor.index, s.cursor.line, s.cursor.column⟩
      { s with pending := some k :: s.pending.drop 1 }
  else some s

/-- Goes to the next token. Tabs are blanks only where no key may begin. A byte order mark at the
start of a line is passed over and takes up the first column. -/
def toNextToken : Nat → Scanner → Scanner
  | 0, s => s
  | fuel + 1, s =>
    let c := s.cursor
    let c := if c.column == 0 && c.rest.head? == some '\ufeff' then c.next else c
    let tabs := s.inFlow || !s.keyAllowed
    let c := c.skipWhile fun ch => ch == ' ' || (tabs && ch == '\t')
    let c := if c.rest.head? == some '#' then c.skipLine else c
    let s := s.moveTo c
    match c.rest with
    | ch :: _ =>
      if isBreak ch then
        toNextToken fuel ((s.moveTo c.next).allowKey (s.keyAllowed || !s.inFlow))
      else s
    | [] => s

def versionNumber (c : Cursor) : Option (Nat × Cursor) :=
  let (digits, c) := c.span Numeral.isDigit
  if digits.length ≤ 9 then (Numeral.readNat 10 digits).map fun n => (n, c) else none

def followers (first : UInt8) : Option Nat :=
  if first < 0x80 then some 0
  else if 0xC0 ≤ first ∧ first < 0xE0 then some 1
  else if 0xE0 ≤ first ∧ first < 0xF0 then some 2
  else if 0xF0 ≤ first ∧ first < 0xF8 then some 3
  else none

def escapedByte : List Char → Option UInt8
  | '%' :: a :: b :: _ => (Numeral.readNat 16 [a, b]).map UInt8.ofNat
  | _ => none

def followingBytes : Nat → Cursor → Option (Bytes × Cursor)
  | 0, c => some ([], c)
  | n + 1, c =>
    (escapedByte c.rest).bind fun b =>
      if b / 64 = 2 then (followingBytes n (c.skip 3)).map fun p => (b :: p.1, p.2) else none

/-- A group of `%` escapes: a byte and as many more as it asks for. They need not be a character. -/
def escapedBytes (c : Cursor) : Option (Bytes × Cursor) := do
  let first ← escapedByte c.rest
  let (others, c) ← followingBytes (← followers first) (c.skip 3)
  some (first :: others, c)

def isUriChar (verbatim : Bool) (c : Char) : Bool :=
  isNameChar c || ";/?:@&=+$.%!~*'()".toList.contains c ||
    (verbatim && (c == ',' || c == '[' || c == ']'))

def uriFrom (verbatim : Bool) : Nat → Cursor → Option (Bytes × Cursor)
  | 0, _ => none
  | fuel + 1, c =>
    match c.rest with
    | '%' :: _ =>
      (escapedBytes c).bind fun (bytes, c) =>
        (uriFrom verbatim fuel c).map fun p => (bytes ++ p.1, p.2)
    | ch :: _ =>
      if isUriChar verbatim ch then
        (uriFrom verbatim fuel c.next).map fun p => (UInt8.ofNat ch.toNat :: p.1, p.2)
      else some ([], c)
    | [] => some ([], c)

def uri (verbatim : Bool) (c : Cursor) : Option (Bytes × Cursor) :=
  uriFrom verbatim (c.rest.length + 1) c

def tagHandle (c : Cursor) : Option (List Char × Cursor) :=
  if c.rest.head? == some '!' then
    let (name, c) := c.next.span isNameChar
    if c.rest.head? == some '!' then some ('!' :: name ++ ['!'], c.next) else some ('!' :: name, c)
  else none

def tagDirective (c : Cursor) : Option (Token × Cursor) := do
  let (handle, c) ← tagHandle (c.skipWhile isBlank)
  if handle ≠ ['!'] ∧ handle.getLast? ≠ some '!' then none
  if !((c.rest.head?.map isBlank).getD false) then none
  let (start, c) ← uri true (c.skipWhile isBlank)
  if start = [] ∨ !wordEnds c.rest then none
  some (.tagDirective (String.ofList handle) (Tag.clip start), c)

def versionDirective (c : Cursor) : Option (Token × Cursor) := do
  let (major, c) ← versionNumber (c.skipWhile isBlank)
  if c.rest.head? ≠ some '.' then none
  let (minor, c) ← versionNumber c.next
  some (.versionDirective major minor, c)

def directive (c : Cursor) : Option (Token × Cursor) := do
  let (name, c) := c.next.span isNameChar
  if !wordEnds c.rest then none
  let (t, c) ← if name = "YAML".toList then versionDirective c
    else if name = "TAG".toList then tagDirective c
    else none
  let c := c.skipComment
  if !lineEnds c.rest then none
  some (t, if c.rest.isEmpty then c else c.next)

def anchorName (c : Cursor) : Option (String × Cursor) :=
  let (name, c) := c.next.span isNameChar
  let ends := wordEnds c.rest || (c.rest.head?.map fun ch => "?:,]\x7d%@\x60".toList.contains ch).getD false
  if name = [] ∨ !ends then none else some (String.ofList name, c)

/-- A tag in angle brackets, with a handle, or with the handle `!`. The tag `!` alone has no
handle. -/
def tag (c : Cursor) (inFlow : Bool) : Option (Token × Cursor) := do
  let (handle, suffix, c) ←
    if (c.rest.drop 1).head? == some '<' then do
      let (suffix, c) ← uri true (c.skip 2)
      if suffix = [] ∨ c.rest.head? ≠ some '>' then none
      some ([], suffix, c.next)
    else do
      let (handle, c) ← tagHandle c
      if 1 < handle.length ∧ handle.getLast? = some '!' then
        let (suffix, c) ← uri false c
        if suffix = [] then none
        some (handle, suffix, c)
      else
        let (more, c) ← uri false c
        let suffix := Tag.clip (Bytes.ofText (String.ofList (handle.drop 1)) ++ more)
        some (if suffix = [] then ([], [Tag.mark], c) else (['!'], suffix, c))
  if !(inFlow && c.rest.head? == some ',') && !wordEnds c.rest then none
  some (.tag (String.ofList handle) (Tag.clip suffix), c)

def plainStarts (inFlow : Bool) (rest : List Char) : Bool :=
  match rest with
  | [] => false
  | c :: after =>
    let blankAfter := (after.head?.map isBlank).getD false
    !(wordEnds rest || "-?:,[]\x7b\x7d#&*!|>'\"%@\x60".toList.contains c) ||
      (c == '-' && !blankAfter) ||
      (!inFlow && (c == '?' || c == ':') && !wordEnds after)

def leaveBlocks (s : Scanner) : Option Scanner :=
  (s.closeBlocks (-1)).dropKey.map fun s => s.allowKey false

def single (s : Scanner) (t : Token) : Scanner := (s.emit t).moveTo s.cursor.next

def openFlow (s : Scanner) (t : Token) : Option Scanner :=
  s.saveKey.map fun s =>
    ({ s with pending := none :: s.pending, flow := s.flow + 1 }.allowKey true).single t

def closeFlow (s : Scanner) (t : Token) : Option Scanner :=
  s.dropKey.map fun s =>
    let s := if s.inFlow then { s with pending := s.pending.drop 1, flow := s.flow - 1 } else s
    (s.allowKey false).single t

/-- An entry of a block sequence or the mark of a key: inside brackets it opens no block. -/
def blockMark (s : Scanner) (opening mark : Token) (allowed : Bool) : Option Scanner :=
  if !s.inFlow && !s.keyAllowed then none
  else
    (s.openBlock s.cursor.column none opening).dropKey.map fun s => (s.allowKey allowed).single mark

def valueMark (s : Scanner) : Option Scanner :=
  match s.pending with
  | some k :: others =>
    let s := s.emitAt k.position .key
    let s := s.openBlock k.column (some k.position) .blockMappingStart
    some (({ s with pending := none :: others }.allowKey false).single .value)
  | _ =>
    if !s.inFlow && !s.keyAllowed then none
    else
      let s := s.openBlock s.cursor.column none .blockMappingStart
      some ((s.allowKey !s.inFlow).single .value)

/-- A scalar, an anchor, an alias or a tag: it may begin a key, and none may begin behind it. -/
def content (s : Scanner) (read : Cursor → Option (Token × Cursor)) : Option Scanner :=
  s.saveKey.bind fun s =>
    (read s.cursor).map fun (t, c) => ((s.emit t).moveTo c).allowKey false

def plainToken (s : Scanner) : Option Scanner :=
  s.saveKey.bind fun s =>
    (Scalar.plain s.inFlow (s.indent + 1).toNat s.cursor).map fun (text, broken, c) =>
      ((s.emit (.scalar .plain (String.ofList text))).moveTo c).allowKey broken

def blockToken (s : Scanner) (folded : Bool) : Option Scanner :=
  s.dropKey.bind fun s =>
    (Scalar.block folded s.indent s.cursor).map fun (text, c) =>
      ((s.emit (.scalar (if folded then .folded else .literal) (String.ofList text))).moveTo
        c).allowKey true

def quotedToken (s : Scanner) (single : Bool) : Option Scanner :=
  s.content fun c => (Scalar.quoted single c).map fun (text, c) =>
    (.scalar (if single then .single else .double) (String.ofList text), c)

def fetch (s : Scanner) : Option Scanner :=
  let c := s.cursor
  let after := c.rest.drop 1
  let mark := s.inFlow || wordEnds after
  match c.rest with
  | [] => none
  | ch :: _ =>
    if c.column == 0 && ch == '%' then
      s.leaveBlocks.bind fun s => (directive s.cursor).map fun (t, c) => (s.emit t).moveTo c
    else if c.atDocumentMark then
      s.leaveBlocks.map fun s =>
        (s.emit (if ch = '-' then .documentStart else .documentEnd)).moveTo (c.skip 3)
    else if ch = '[' then s.openFlow .flowSequenceStart
    else if ch = '{' then s.openFlow .flowMappingStart
    else if ch = ']' then s.closeFlow .flowSequenceEnd
    else if ch = '}' then s.closeFlow .flowMappingEnd
    else if ch = ',' then s.dropKey.map fun s => (s.allowKey true).single .flowEntry
    else if ch = '-' ∧ wordEnds after then s.blockMark .blockSequenceStart .blockEntry true
    else if ch = '?' ∧ mark then s.blockMark .blockMappingStart .key !s.inFlow
    else if ch = ':' ∧ mark then s.valueMark
    else if ch = '*' then s.content fun c => (anchorName c).map fun (n, c) => (.alias n, c)
    else if ch = '&' then s.content fun c => (anchorName c).map fun (n, c) => (.anchor n, c)
    else if ch = '!' then s.content fun c => tag c s.inFlow
    else if ch = '|' ∧ !s.inFlow then s.blockToken false
    else if ch = '>' ∧ !s.inFlow then s.blockToken true
    else if ch = '\'' then s.quotedToken true
    else if ch = '"' then s.quotedToken false
    else if plainStarts s.inFlow c.rest then s.plainToken
    else none

def run : Nat → Scanner → Option (List Token)
  | 0, _ => none
  | fuel + 1, s =>
    let s := s.toNextToken (s.cursor.rest.length + 1)
    match s.dropStale with
    | none => none
    | some s =>
      let s := s.closeBlocks s.cursor.column
      if s.cursor.rest.isEmpty then
        s.leaveBlocks.map fun s => (s.emit .streamEnd).tokens.reverse
      else (s.fetch).bind (run fuel)

end Scanner

def scan (text : List Char) : Option (List Token) :=
  if text.all isAllowed then Scanner.run (text.length + 2) { cursor := { rest := text } } else none

end RuleRegistry.Yaml
