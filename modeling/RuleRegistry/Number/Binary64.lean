/-!
Binary floating-point numbers of 64 bits, kept as their bits, so that two of them are equal exactly
when nothing tells them apart. Order and equality of numbers are read off sign and magnitude; the
four operations round to nearest.
-/

namespace RuleRegistry

structure Binary64 where
  bits : UInt64
deriving DecidableEq, Inhabited

namespace Binary64

def signBit : Nat := 0x8000000000000000

/-- The weight of the lowest bit of the exponent, and the highest bit of a significand. -/
def leadingBit : Nat := 0x10000000000000

/-- The bits without the sign; they grow with the absolute value. -/
def magnitude (x : Binary64) : Nat := x.bits.toNat % signBit

def isNegative (x : Binary64) : Bool := signBit ≤ x.bits.toNat

def infiniteMagnitude : Nat := 2047 * leadingBit

def isNaN (x : Binary64) : Bool := infiniteMagnitude < x.magnitude

def isFinite (x : Binary64) : Bool := x.magnitude < infiniteMagnitude

def isZero (x : Binary64) : Bool := x.magnitude == 0

def ofMagnitude (negative : Bool) (magnitude : Nat) : Binary64 :=
  ⟨UInt64.ofNat (if negative then signBit + magnitude else magnitude)⟩

def nan : Binary64 := ofMagnitude false (infiniteMagnitude + leadingBit / 2)

def infinity (negative : Bool) : Binary64 := ofMagnitude negative infiniteMagnitude

def zero (negative : Bool) : Binary64 := ofMagnitude negative 0

/-- The absolute value of a finite number is `significand * 2 ^ exponent`. -/
def significand (x : Binary64) : Nat :=
  if x.magnitude < leadingBit then x.magnitude else leadingBit + x.magnitude % leadingBit

def exponent (x : Binary64) : Int :=
  if x.magnitude < leadingBit then -1074 else Int.ofNat (x.magnitude / leadingBit) - 1075

def isIntegral (x : Binary64) : Bool :=
  if 0 ≤ x.exponent then true
  else x.significand % Nat.pow 2 (-x.exponent).toNat == 0

def wholePart (x : Binary64) : Nat :=
  if 0 ≤ x.exponent then x.significand * Nat.pow 2 x.exponent.toNat
  else x.significand / Nat.pow 2 (-x.exponent).toNat

/-- Grows with the number; both zeros have the rank 0. -/
def rank (x : Binary64) : Int :=
  if x.isNegative then -(x.magnitude : Int) else x.magnitude

def compare? (x y : Binary64) : Option Ordering :=
  if x.isNaN || y.isNaN then none else some (compare x.rank y.rank)

/-- Numerical equality: zeros are equal, and what is not a number equals nothing. -/
def equal (x y : Binary64) : Bool := compare? x y == some .eq

def neg (x : Binary64) : Binary64 := ⟨x.bits ^^^ 0x8000000000000000⟩

def lift (op : Float → Float → Float) (x y : Binary64) : Binary64 :=
  ⟨(op (Float.ofBits x.bits) (Float.ofBits y.bits)).toBits⟩

def add : Binary64 → Binary64 → Binary64 := lift (· + ·)
def sub : Binary64 → Binary64 → Binary64 := lift (· - ·)
def mul : Binary64 → Binary64 → Binary64 := lift (· * ·)
def div : Binary64 → Binary64 → Binary64 := lift (· / ·)

theorem compare?_swap (x y : Binary64) : compare? y x = (compare? x y).map Ordering.swap := by
  have order : compare y.rank x.rank = (compare x.rank y.rank).swap := Std.OrientedCmp.eq_swap
  unfold compare?
  rw [Bool.or_comm, order]
  cases x.isNaN || y.isNaN <;> rfl

theorem equal_iff (x y : Binary64) :
    equal x y = true ↔ x.isNaN = false ∧ y.isNaN = false ∧ x.rank = y.rank := by
  have order : compare x.rank y.rank = .eq ↔ x.rank = y.rank := Std.compare_eq_iff_eq
  unfold equal compare?
  cases x.isNaN <;> cases y.isNaN <;> simp [order]

end Binary64

end RuleRegistry
