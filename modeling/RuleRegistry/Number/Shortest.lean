import RuleRegistry.Number.Rounding

/-!
The shortest decimal of a binary64 number: of the decimals that round to the number, one with the
fewest digits, and of those the nearest. A tie between two of them is the format's decision.
-/

namespace RuleRegistry

/-- The decimal `digits * 10 ^ exponent`. -/
structure Decimal where
  digits : Nat
  exponent : Int
deriving DecidableEq

namespace Decimal

inductive Tie where
  | up
  | even
deriving DecidableEq

def strip : Nat → Decimal → Decimal
  | 0, d => d
  | fuel + 1, d =>
    if d.digits ≠ 0 ∧ d.digits % 10 = 0 then strip fuel ⟨d.digits / 10, d.exponent + 1⟩ else d

/-- The reals that round to a number: from `low / den` to `high / den`, the ends included or not. -/
structure Interval where
  low : Nat
  value : Nat
  high : Nat
  den : Nat
  closed : Bool

namespace Interval

/-- The reals that round to a positive finite number. Below a power of two the numbers lie twice as
close. -/
def of (x : Binary64) : Interval :=
  let m := x.significand
  let up := Nat.pow 2 x.exponent.toNat
  let below := if m = Binary64.leadingBit ∧ -1074 < x.exponent then 1 else 2
  ⟨(4 * m - below) * up, 4 * m * up, (4 * m + 2) * up, 4 * Nat.pow 2 (-x.exponent).toNat, m % 2 = 0⟩

def holds (i : Interval) (num den : Nat) : Bool :=
  let left := i.low * den
  let right := i.high * den
  let here := num * i.den
  (left < here || (i.closed && left == here)) && (here < right || (i.closed && here == right))

def quotient (digits : Nat) (exponent : Int) : Nat × Nat :=
  (digits * Nat.pow 10 exponent.toNat, Nat.pow 10 (-exponent).toNat)

/-- The place before the first digit: the value is at least `10 ^ (p - 1)` and below `10 ^ p`. -/
def place (i : Interval) : Int :=
  if i.den ≤ i.value then Binary64.decimalLength (i.value / i.den)
  else 1 - (Binary64.decimalLength ((i.den - 1) / i.value) : Int)

/-- The decimal on the grid of this exponent that lies in the interval and is nearest to the
value. -/
def onGrid (i : Interval) (tie : Tie) (exponent : Int) : Option Decimal :=
  let unit := quotient 1 exponent
  let below := i.value * unit.2 / (i.den * unit.1)
  let hit (d : Nat) : Bool := let q := quotient d exponent; i.holds q.1 q.2
  let twice := 2 * (i.value * unit.2 % (i.den * unit.1))
  let upper := i.den * unit.1 < twice ||
    (twice == i.den * unit.1 && (tie == .up || below % 2 == 1))
  match hit below, hit (below + 1) with
  | true, true => some ⟨if upper then below + 1 else below, exponent⟩
  | true, false => some ⟨below, exponent⟩
  | false, true => some ⟨below + 1, exponent⟩
  | false, false => none

/-- Tries ever finer grids, from `count` digits on. -/
def search (i : Interval) (tie : Tie) : Nat → Nat → Option Decimal
  | 0, _ => none
  | fuel + 1, count =>
    match i.onGrid tie (i.place - count) with
    | some d => some d
    | none => search i tie fuel (count + 1)

end Interval

def shortest (tie : Tie) (x : Binary64) : Decimal :=
  if x.significand = 0 then ⟨0, 0⟩
  else
    let i := Interval.of x
    strip 400 ((i.search tie 17 1).getD ⟨0, 0⟩)

end Decimal

end RuleRegistry
