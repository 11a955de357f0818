import RuleRegistry.Value.Basic
import RuleRegistry.Number.Rounding

/-!
Equality and order of values. Strict equality tells a whole number from a binary64 number and
ignores the order of a map. Loose equality compares the two kinds of numbers by their value, also
inside lists. The order relations hold between numbers and between texts and are undefined
elsewhere.
-/

namespace RuleRegistry

inductive Comparison where
  | eq
  | ne
  | gt
  | ge
  | lt
  | le
deriving DecidableEq

namespace Comparison

def symbol : Comparison → String
  | eq => "=="
  | ne => "!="
  | gt => ">"
  | ge => ">="
  | lt => "<"
  | le => "<="

def accepts : Comparison → Ordering → Bool
  | eq, o => o == .eq
  | ne, o => o != .eq
  | gt, o => o == .gt
  | ge, o => o != .lt
  | lt, o => o == .lt
  | le, o => o != .gt

end Comparison

namespace Value

def toBinary64? : Value → Option Binary64
  | int n => some (Binary64.ofInt n.toInt)
  | float x => some x
  | _ => none

mutual

def same : Value → Value → Bool
  | null, null => true
  | bool a, bool b => a == b
  | int a, int b => a == b
  | float a, float b => Binary64.equal a b
  | string a, string b => a == b
  | list xs, list ys => sameItems xs ys
  | map xs, map ys => xs.length == ys.length && sameIn xs ys
  | _, _ => false

def sameItems : List Value → List Value → Bool
  | [], [] => true
  | x :: xs, y :: ys => same x y && sameItems xs ys
  | _, _ => false

def sameIn : List (String × Value) → List (String × Value) → Bool
  | [], _ => true
  | (k, x) :: xs, ys =>
    (match Entries.find? ys k with
      | some y => same x y
      | none => false) && sameIn xs ys

end

instance : BEq Value := ⟨same⟩

mutual

def looseEq : Value → Value → Bool
  | int a, float b => Binary64.equal (Binary64.ofInt a.toInt) b
  | float a, int b => Binary64.equal a (Binary64.ofInt b.toInt)
  | list xs, list ys => looseEqItems xs ys
  | x, y => same x y

def looseEqItems : List Value → List Value → Bool
  | [], [] => true
  | x :: xs, y :: ys => looseEq x y && looseEqItems xs ys
  | _, _ => false

end

def order? : Value → Value → Option Ordering
  | int a, int b => some (compare a.toInt b.toInt)
  | float a, float b => Binary64.compare? a b
  | int a, float b => Binary64.compare? (Binary64.ofInt a.toInt) b
  | float a, int b => Binary64.compare? a (Binary64.ofInt b.toInt)
  | string a, string b => some (compare a b)
  | _, _ => none

/-- Equality is loose and always defined; an order relation is defined where the order is. -/
def compare? (c : Comparison) (x y : Value) : Option Bool :=
  match c with
  | .eq => some (looseEq x y)
  | .ne => some (!looseEq x y)
  | c => (order? x y).map c.accepts

end Value

end RuleRegistry
