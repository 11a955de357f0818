import RuleRegistry.Number.Numeral
import RuleRegistry.Text.CodePoint

namespace RuleRegistry.Xml

def charOfDigits? (base : Nat) (digits : List Char) : Option Char :=
  (Numeral.readNat base digits).bind fun n => if n = 0 then none else Text.charOfCode? n

def reference? (name : List Char) : Option Char :=
  match name with
  | '#' :: 'x' :: digits => charOfDigits? 16 digits
  | '#' :: digits => charOfDigits? 10 digits
  | ['l', 't'] => some '<'
  | ['g', 't'] => some '>'
  | ['a', 'm', 'p'] => some '&'
  | ['a', 'p', 'o', 's'] => some '\''
  | ['q', 'u', 'o', 't'] => some '"'
  | _ => none

/-- Text with its references replaced. Inside of a reference the characters of its name so far are
given, the last one first. -/
def unescapeFrom : Option (List Char) → List Char → Option (List Char)
  | none, [] => some []
  | some _, [] => none
  | none, c :: rest =>
    if c = '&' then unescapeFrom (some []) rest else (unescapeFrom none rest).map fun t => c :: t
  | some name, c :: rest =>
    if c = ';' then
      (reference? name.reverse).bind fun ch => (unescapeFrom none rest).map fun t => ch :: t
    else if c = '&' then none
    else unescapeFrom (some (c :: name)) rest

def unescape (text : List Char) : Option (List Char) := unescapeFrom none text

end RuleRegistry.Xml
