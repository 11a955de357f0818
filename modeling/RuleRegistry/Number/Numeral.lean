import RuleRegistry.Number.Rounding

namespace RuleRegistry.Numeral

def digitValue (c : Char) : Option Nat :=
  if '0' ≤ c ∧ c ≤ '9' then some (c.toNat - '0'.toNat)
  else if 'a' ≤ c ∧ c ≤ 'z' then some (c.toNat - 'a'.toNat + 10)
  else if 'A' ≤ c ∧ c ≤ 'Z' then some (c.toNat - 'A'.toNat + 10)
  else none

def isDigit (c : Char) : Bool := '0' ≤ c && c ≤ '9'

/-- Continues a number with digits of the base; none at the first character that is no digit. -/
def digitsFrom (base : Nat) : Nat → List Char → Option Nat
  | acc, [] => some acc
  | acc, c :: rest =>
    match digitValue c with
    | some d => if d < base then digitsFrom base (acc * base + d) rest else none
    | none => none

def readNat (base : Nat) : List Char → Option Nat
  | [] => none
  | c :: rest => digitsFrom base 0 (c :: rest)

def readInt (base : Nat) : List Char → Option Int
  | '+' :: rest => (readNat base rest).map Int.ofNat
  | '-' :: rest => (readNat base rest).map fun n => -(n : Int)
  | cs => (readNat base cs).map Int.ofNat

def toInt64? (n : Int) : Option Int64 :=
  if -0x8000000000000000 ≤ n ∧ n < 0x8000000000000000 then some (Int64.ofInt n) else none

def readInt64 (base : Nat) (cs : List Char) : Option Int64 := (readInt base cs).bind toInt64?

def readExponent : List Char → Option Int
  | [] => some 0
  | c :: rest => if c = 'e' ∨ c = 'E' then readInt 10 rest else none

def splitFraction (cs : List Char) : List Char × List Char × List Char :=
  let whole := cs.takeWhile isDigit
  match cs.dropWhile isDigit with
  | '.' :: rest => (whole, rest.takeWhile isDigit, rest.dropWhile isDigit)
  | rest => (whole, [], rest)

/-- A decimal numeral without sign: digits with an optional point among or beside them and an
optional exponent. -/
def readMagnitude (negative : Bool) (cs : List Char) : Option Binary64 := do
  let (whole, fraction, rest) := splitFraction cs
  let digits ← readNat 10 (whole ++ fraction)
  let exponent ← readExponent rest
  some (Binary64.ofDecimal negative digits (exponent - (fraction.length : Int)))

def readBinary64 : List Char → Option Binary64
  | '+' :: rest => readMagnitude false rest
  | '-' :: rest => readMagnitude true rest
  | cs => readMagnitude false cs

end RuleRegistry.Numeral
