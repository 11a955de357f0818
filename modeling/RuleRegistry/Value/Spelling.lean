import RuleRegistry.Number.Numeral
import RuleRegistry.Value.Basic

namespace RuleRegistry.Value

def isSign (c : Char) : Bool := c == '+' || c == '-'

def withoutSign : List Char → List Char
  | c :: rest => if isSign c then rest else c :: rest
  | [] => []

def spelledDecimal? (cs : List Char) : Option Int64 :=
  let digits := withoutSign cs
  if !digits.isEmpty && digits.all Numeral.isDigit then Numeral.readInt64 10 cs else none

/-- A whole number in hexadecimal digits, with a sign between mark and digits if it has one. -/
def spelledHex? : List Char → Option Int64
  | '0' :: 'x' :: digits => Numeral.readInt64 16 digits
  | '0' :: 'X' :: digits => Numeral.readInt64 16 digits
  | _ => none

def isNumeralChar (c : Char) : Bool :=
  Numeral.isDigit c || c == '.' || c == 'e' || c == 'E' || isSign c

def spelledBinary64? (cs : List Char) : Option Binary64 :=
  let body := withoutSign cs
  if body.any Numeral.isDigit && body.all isNumeralChar then Numeral.readBinary64 cs else none

/-- The text in lower case, where only letters of ASCII have a case. -/
def lowered (s : String) : String := String.ofList (s.toList.map Char.toLower)

def ofSpelling (s : String) : Value :=
  let cs := s.toList
  if lowered s = "null" then .null
  else if lowered s = "true" then .bool true
  else if lowered s = "false" then .bool false
  else match (spelledDecimal? cs).or (spelledHex? cs) with
    | some n => .int n
    | none =>
      match spelledBinary64? cs with
      | some x => .float x
      | none => .string s

end RuleRegistry.Value
