import RuleRegistry.Number.Shortest
import RuleRegistry.Value.Text
import RuleRegistry.Yaml.Atom

/-!
Values as YAML text. Mappings and sequences are written as blocks, a sequence under a key no further
in than the key. A text is plain where its spelling stands for itself; it is quoted where not, and a
text with line feeds is a literal block where one can hold it.
-/

namespace RuleRegistry.Yaml.Writer

/-- Digits with a point among them, or with an exponent when the first one stands more than sixteen
places before the point or more than four behind it. -/
def decimalText (d : Decimal) : String :=
  let digits := Nat.toDigits 10 d.digits
  let place : Int := digits.length + d.exponent
  if 0 ≤ d.exponent ∧ place ≤ 16 then d.positional ++ ".0"
  else if -5 < place ∧ place ≤ 16 then d.positional
  else
    let lead := match digits with
      | [c] => [c]
      | c :: rest => c :: '.' :: rest
      | [] => []
    String.ofList lead ++ "e" ++ toString (place - 1)

def floatText (x : Binary64) : String :=
  if x.isNaN then ".nan"
  else if x.isFinite then
    x.signText ++ (if x.isZero then "0.0" else decimalText (Decimal.shortest .even x))
  else x.signText ++ ".inf"

def isPrintable (c : Char) : Bool :=
  let n := c.toNat
  n == 0x0A || (0x20 ≤ n && n ≤ 0x7E) ||
    (0xA0 ≤ n && n != 0xFEFF && n != 0xFFFE && n != 0xFFFF)

def isLeadingIndicator (c : Char) : Bool := "#,[]\x7b\x7d&*!|>'\"%@\x60".toList.contains c

def hasIndicator (cs : List Char) : Bool :=
  let atFront := match cs with
    | c :: rest =>
      isLeadingIndicator c || ((c == '?' || c == ':' || c == '-') && wordEnds rest)
    | [] => false
  let rec inside : List Char → Bool
    | a :: b :: rest =>
      (b == ':' && wordEnds rest) || (b == '#' && wordEnds [a]) || inside (b :: rest)
    | _ => false
  atFront || inside cs || cs.take 3 == ['-', '-', '-'] || cs.take 3 == ['.', '.', '.']

def anyNeighbours (p : Char → Char → Bool) : List Char → Bool
  | a :: b :: rest => p a b || anyNeighbours p (b :: rest)
  | _ => false

def isSpace (c : Char) : Bool := c == ' '

def ends (p : Char → Bool) (cs : List Char) : Bool := (cs.getLast?.map p).getD false

def starts (p : Char → Bool) (cs : List Char) : Bool := (cs.head?.map p).getD false

/-- Characters that only escapes can show: those that are not printable, and spaces before a line
break. -/
def needsEscapes (cs : List Char) : Bool :=
  cs.any (fun c => !isPrintable c) || anyNeighbours (fun a b => isSpace a && isBreak b) cs

/-- Spaces at the start of a line would be lost in quotes. -/
def fitsSingle (cs : List Char) : Bool :=
  !needsEscapes cs && !anyNeighbours (fun a b => isBreak a && isSpace b) cs

def fitsLiteral (cs : List Char) : Bool := !needsEscapes cs && !ends isSpace cs

def fitsPlain (cs : List Char) : Bool :=
  !needsEscapes cs && !cs.any isBreak && !starts isSpace cs && !ends isSpace cs &&
    !hasIndicator cs

/-- The style for a text: quoted if its plain form stands for something else. -/
def styleOf (s : String) : Style :=
  let cs := s.toList
  let wished : Style :=
    if cs.contains '\n' then .literal
    else match Atom.ofPlain? s with
      | some (.string _) => if Atom.hasLeadingZero cs then .single else .plain
      | _ => .single
  match wished with
  | .plain => if fitsPlain cs then .plain else if fitsSingle cs then .single else .double
  | .single => if fitsSingle cs then .single else .double
  | .literal => if fitsLiteral cs then .literal else .double
  | style => style

def pad (indent : Nat) : List Char := List.replicate indent ' '

def indented (indent : Nat) : Bool → List Char → List Char
  | _, [] => []
  | broken, c :: rest =>
    if isBreak c then c :: indented indent true rest
    else (if broken then pad indent else []) ++ c :: indented indent false rest

/-- A single-quoted text: quotes and line feeds that begin a gap are written twice. -/
def singleFrom (indent : Nat) : Bool → List Char → List Char
  | broken, [] => if broken then pad indent else []
  | broken, c :: rest =>
    if isBreak c then
      (if !broken && c == '\n' then ['\n'] else []) ++ c :: singleFrom indent true rest
    else
      (if broken then pad indent else []) ++ (if c = '\'' then ['\''] else []) ++
        c :: singleFrom indent false rest

def hexDigits (width n : Nat) : List Char :=
  let digits := (Nat.toDigits 16 n).map Char.toUpper
  List.replicate (width - digits.length) '0' ++ digits

def escapeLetter? (c : Char) : Option Char :=
  match c with
  | '\x00' => some '0'
  | '\x07' => some 'a'
  | '\x08' => some 'b'
  | '\t' => some 't'
  | '\n' => some 'n'
  | '\x0b' => some 'v'
  | '\x0c' => some 'f'
  | '\r' => some 'r'
  | '\x1b' => some 'e'
  | '"' => some '"'
  | '\\' => some '\\'
  | '\u0085' => some 'N'
  | '\u2028' => some 'L'
  | '\u2029' => some 'P'
  | _ => none

def escapeChar (c : Char) : List Char :=
  match escapeLetter? c with
  | some letter => ['\\', letter]
  | none =>
    if isPrintable c then [c]
    else if c.toNat ≤ 0xFF then '\\' :: 'x' :: hexDigits 2 c.toNat
    else if c.toNat ≤ 0xFFFF then '\\' :: 'u' :: hexDigits 4 c.toNat
    else '\\' :: 'U' :: hexDigits 8 c.toNat

/-- The header of a literal block: its indentation if the text does not show it, and what becomes of
the last line break. -/
def literalHeader (cs : List Char) : List Char :=
  (if starts (fun c => isSpace c || isBreak c) cs then ['2'] else []) ++
    match cs.reverse with
    | last :: rest =>
      if !isBreak last then ['-'] else if starts isBreak rest || rest.isEmpty then ['+'] else []
    | [] => ['-']

def scalarText (indent : Nat) (s : String) : List Char :=
  let cs := s.toList
  match styleOf s with
  | .plain => cs
  | .single => '\'' :: singleFrom indent false cs ++ ['\'']
  | .literal => '|' :: literalHeader cs ++ '\n' :: indented indent true cs
  | _ => '"' :: cs.flatMap escapeChar ++ ['"']

/-- Keys of one line and at most 128 bytes need no mark. -/
def isSimpleKey (s : String) : Bool := !s.toList.any isBreak && s.utf8ByteSize ≤ 128

def endLine (cs : List Char) : List Char := if ends isBreak cs then cs else cs ++ ['\n']

mutual

/-- A value behind a mark at the given column. Blocks begin on the same line. -/
def afterMark (column : Nat) : Value → List Char
  | .list [] => ['[', ']']
  | .list (v :: rest) =>
    '-' :: ' ' :: endLine (afterMark (column + 2) v) ++ itemLines (column + 2) rest
  | .map [] => ['{', '}']
  | .map (e :: rest) => entryText (column + 2) e ++ entryLines (column + 2) rest
  | .null => "null".toList
  | .bool b => (if b then "true" else "false").toList
  | .int n => (toString n.toInt).toList
  | .float x => (floatText x).toList
  | .string s => scalarText (column + 2) s

/-- A value behind a key at the given column. Blocks begin on the next line. -/
def afterKey (column : Nat) : Value → List Char
  | .list [] => [' ', '[', ']']
  | .list (v :: rest) => '\n' :: itemLines column (v :: rest)
  | .map [] => [' ', '{', '}']
  | .map (e :: rest) => '\n' :: entryLines (column + 2) (e :: rest)
  | .null => " null".toList
  | .bool b => (if b then " true" else " false").toList
  | .int n => ' ' :: (toString n.toInt).toList
  | .float x => ' ' :: (floatText x).toList
  | .string s => ' ' :: scalarText (column + 2) s

def itemLines (column : Nat) : List Value → List Char
  | [] => []
  | v :: rest =>
    pad column ++ '-' :: ' ' :: endLine (afterMark column v) ++ itemLines column rest

/-- An entry of a mapping. A key that is not simple stands behind a mark, and its value too. -/
def entryText (column : Nat) : String × Value → List Char
  | (k, v) =>
    if isSimpleKey k then endLine (scalarText (column + 2) k ++ ':' :: afterKey column v)
    else
      '?' :: ' ' :: endLine (scalarText (column + 2) k) ++
        pad column ++ ':' :: ' ' :: endLine (afterMark column v)

def entryLines (column : Nat) : List (String × Value) → List Char
  | [] => []
  | e :: rest => pad column ++ entryText column e ++ entryLines column rest

end

def document (entries : List (String × Value)) : String := String.ofList (entryLines 0 entries)

end RuleRegistry.Yaml.Writer
