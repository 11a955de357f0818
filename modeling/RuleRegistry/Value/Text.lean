import RuleRegistry.Number.Shortest
import RuleRegistry.Text.Quoted
import RuleRegistry.Value.Basic

/-!
Values as text. A binary64 number without fraction is written with all its digits and `.0`; one
with a fraction by its shortest decimal, never with an exponent, and a tie goes up. Texts are
quoted, lists stand in brackets and maps in braces.
-/

namespace RuleRegistry

namespace Decimal

/-- The digits with a point at their place, and zeros where digits are missing. -/
def positional (d : Decimal) : String :=
  let digits := Nat.toDigits 10 d.digits
  let point : Int := digits.length + d.exponent
  if point ≤ 0 then
    String.ofList ('0' :: '.' :: List.replicate (-point).toNat '0' ++ digits)
  else if (digits.length : Int) ≤ point then
    String.ofList (digits ++ List.replicate d.exponent.toNat '0')
  else
    String.ofList (digits.take point.toNat ++ '.' :: digits.drop point.toNat)

end Decimal

namespace Binary64

def signText (x : Binary64) : String := if x.isNegative then "-" else ""

def text (x : Binary64) : String :=
  if x.isNaN then "NaN"
  else if x.isFinite then
    if x.isIntegral then x.signText ++ toString x.wholePart ++ ".0"
    else x.signText ++ (Decimal.shortest .up x).positional
  else x.signText ++ "inf"

end Binary64

namespace Value

mutual

def text : Value → String
  | null => "null"
  | bool b => if b then "true" else "false"
  | int n => toString n.toInt
  | float x => x.text
  | string s => Text.quote s
  | list items => "[" ++ itemsText items ++ "]"
  | map entries => "\x7b" ++ entriesText entries ++ "\x7d"

def itemsText : List Value → String
  | [] => ""
  | [x] => text x
  | x :: rest => text x ++ ", " ++ itemsText rest

def entriesText : List (String × Value) → String
  | [] => ""
  | [(k, x)] => Text.quote k ++ ": " ++ text x
  | (k, x) :: rest => Text.quote k ++ ": " ++ text x ++ ", " ++ entriesText rest

end

/-- The text of a value inside other text: a text stands for itself and null for nothing. -/
def plainText : Value → String
  | null => ""
  | string s => s
  | v => v.text

end Value

end RuleRegistry
