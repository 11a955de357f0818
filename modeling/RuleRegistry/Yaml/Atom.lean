import RuleRegistry.Number.Numeral
import RuleRegistry.Yaml.Scalar
import RuleRegistry.Yaml.Tag

/-!
What scalars stand for: null, a Boolean, a whole number, a binary64 number or a text. A plain scalar
tells by its spelling and any other is a text, unless a tag says what it has to be. Whole numbers
that need more than 64 bits but no more than 128 stand for nothing.
-/

namespace RuleRegistry.Yaml

inductive Atom where
  | null
  | bool (b : Bool)
  | int (n : Int)
  | float (x : Binary64)
  | string (s : String)
deriving DecidableEq, Inhabited

namespace Atom

def isNull (s : String) : Bool := ["null", "Null", "NULL", "~"].contains s

def bool? (s : String) : Option Bool :=
  if ["true", "True", "TRUE"].contains s then some true
  else if ["false", "False", "FALSE"].contains s then some false
  else none

def signless : List Char → List Char
  | '+' :: rest => rest
  | '-' :: rest => rest
  | cs => cs

def hasLeadingZero (cs : List Char) : Bool :=
  match signless cs with
  | '0' :: rest => !rest.isEmpty && rest.all Numeral.isDigit
  | _ => false

def base? (c : Char) : Option Nat :=
  match c with
  | 'x' => some 16
  | 'o' => some 8
  | 'b' => some 2
  | _ => none

def magnitude? (cs : List Char) : Option Nat :=
  let based := match cs with
    | '0' :: c :: rest => (base? c).bind fun base => Numeral.readNat base rest
    | _ => none
  based.or (Numeral.readNat 10 cs)

def int? (cs : List Char) : Option Int :=
  if hasLeadingZero cs then none
  else match cs with
    | '-' :: rest => (magnitude? rest).map fun n => -(n : Int)
    | '+' :: rest => (magnitude? rest).map Int.ofNat
    | _ => (magnitude? cs).map Int.ofNat

def isNarrow (n : Int) : Bool := -0x8000000000000000 ≤ n && n < 0x10000000000000000

def isWide (n : Int) : Bool :=
  -0x80000000000000000000000000000000 ≤ n && n < 0x100000000000000000000000000000000

def isInfinite (s : String) : Bool := [".inf", ".Inf", ".INF"].contains s

def finite? (cs : List Char) : Option Binary64 :=
  match cs with
  | '+' :: c :: rest =>
    if c = '+' ∨ c = '-' then none else (Numeral.readBinary64 (c :: rest)).filter Binary64.isFinite
  | _ => (Numeral.readBinary64 cs).filter Binary64.isFinite

def float? (s : String) : Option Binary64 :=
  if isInfinite s then some (.infinity false)
  else match s.toList with
    | '+' :: rest =>
      if isInfinite (String.ofList rest) then some (.infinity false) else finite? s.toList
    | '-' :: rest =>
      if isInfinite (String.ofList rest) then some (.infinity true) else finite? s.toList
    | _ => if [".nan", ".NaN", ".NAN"].contains s then some .nan else finite? s.toList

def ofPlain? (s : String) : Option Atom :=
  if s = "" ∨ isNull s then some null
  else match bool? s with
    | some b => some (bool b)
    | none =>
      let whole := (int? s.toList).filter isWide
      match whole with
      | some n => if isNarrow n then some (int n) else none
      | none =>
        match if hasLeadingZero s.toList then none else float? s with
        | some x => some (float x)
        | none => some (string s)

def ofUntagged? (style : Style) (s : String) : Option Atom :=
  if style = .plain then ofPlain? s else some (string s)

/-- What a scalar with a global tag stands for, if it is what the tag says. A tag that is none of the
core makes it a text. -/
def ofGlobal? (tag : Tag) (s : String) : Option Atom :=
  if tag = .core "bool" then (bool? s).map bool
  else if tag = .core "int" then ((int? s.toList).filter isNarrow).map int
  else if tag = .core "float" then (float? s).map float
  else if tag = .core "null" then (if isNull s then some null else none)
  else some (string s)

/-- What a scalar stands for. A local tag does not change it. -/
def ofScalar? (tag : Option Tag) (style : Style) (s : String) : Option Atom :=
  match tag with
  | none => ofUntagged? style s
  | some tag => if tag.isLocal then ofUntagged? style s else ofGlobal? tag s

end Atom

end RuleRegistry.Yaml
