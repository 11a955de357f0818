import RuleRegistry.Proofs.Reparse
import RuleRegistry.Proofs.Scoping

namespace RuleRegistry

namespace Numeral

/-- The whole numbers of 64 bits. -/
def Fits (n : Int) : Prop := -0x8000000000000000 ≤ n ∧ n < 0x8000000000000000

instance (n : Int) : Decidable (Fits n) := inferInstanceAs (Decidable (_ ∧ _))

theorem fits_toInt (n : Int64) : Fits n.toInt := ⟨n.le_toInt, n.toInt_lt⟩

theorem toInt64?_of_fits {n : Int} (fits : Fits n) : toInt64? n = some (Int64.ofInt n) := if_pos fits

theorem toInt64?_of_not_fits {n : Int} (out : ¬ Fits n) : toInt64? n = none := if_neg out

theorem toInt_ofInt_of_fits {n : Int} (fits : Fits n) : (Int64.ofInt n).toInt = n :=
  toInt_of_toInt64? (toInt64?_of_fits fits)

end Numeral

open Numeral Outcome

namespace Expr

/-- A tree of whole numbers, negations, sums, differences and products. -/
inductive Whole : Expr → Prop
  | number (n : Int64) : Whole (.literal (.int n))
  | neg {e : Expr} (operand : Whole e) : Whole (.unary .neg e)
  | binary {op : BinaryOp} {l r : Expr} (exact : op = .add ∨ op = .sub ∨ op = .mul) (left : Whole l)
      (right : Whole r) : Whole (.binary op l r)

/-- The exact value of a tree of whole numbers. -/
def value : Expr → Int
  | literal (.int n) => n.toInt
  | unary .neg e => -value e
  | binary .add l r => value l + value r
  | binary .sub l r => value l - value r
  | binary .mul l r => value l * value r
  | _ => 0

/-- The operator of an expression as its errors name it. -/
def symbol : Expr → String
  | unary op _ => op.symbol
  | binary op _ _ => op.symbol
  | _ => ""

mutual

/-- The parts of an expression from left to right, each behind its own parts. -/
def postorder : Expr → List Expr
  | literal v => [literal v]
  | array items => postorderAll items ++ [array items]
  | name root keys => [name root keys]
  | unary op e => postorder e ++ [unary op e]
  | binary op l r => postorder l ++ postorder r ++ [binary op l r]
  | call function args => postorderAll args ++ [call function args]

def postorderAll : List Expr → List Expr
  | [] => []
  | e :: rest => postorder e ++ postorderAll rest

end

theorem mem_postorder (e : Expr) : e ∈ e.postorder := by
  cases e <;> simp [postorder]

theorem references_of_whole {e : Expr} (whole : e.Whole) : e.references = [] := by
  induction whole with
  | number n => rfl
  | neg _ ih => exact ih
  | binary _ _ _ left right => rw [references, left, right, List.append_nil]

def isOutside (part : Expr) : Bool := !decide (Fits part.value)

/-- The exact value, or an overflow at the first part whose exact value is out of range. -/
def foretold (e : Expr) : Except ExprError Value :=
  match e.postorder.find? isOutside with
  | none => .ok (.int (Int64.ofInt e.value))
  | some part => .error (.overflow part.symbol)

variable {e : Expr}

theorem fits_of_none (inside : e.postorder.find? isOutside = none) : Fits e.value := by
  have here := List.find?_eq_none.mp inside e e.mem_postorder
  simpa [isOutside] using here

theorem foretold_of_none (inside : e.postorder.find? isOutside = none) :
    e.foretold = .ok (.int (Int64.ofInt e.value)) := by
  rw [foretold, inside]

theorem foretold_of_some {part : Expr} (first : e.postorder.find? isOutside = some part) :
    e.foretold = .error (.overflow part.symbol) := by
  rw [foretold, first]

/-- With its parts in range, an expression is in range or is itself the first that is not. -/
theorem foretold_eq_checked {parts : List Expr} (split : e.postorder = parts ++ [e])
    (inside : parts.find? isOutside = none) : e.foretold = Value.checked e.symbol e.value := by
  have last : e.postorder.find? isOutside = [e].find? isOutside := by
    rw [split, List.find?_append, inside, Option.none_or]
  by_cases fits : Fits e.value
  · rw [foretold_of_none (last.trans (by simp [isOutside, fits])), Value.checked,
      toInt64?_of_fits fits]
  · have first : e.postorder.find? isOutside = some e := last.trans (by simp [isOutside, fits])
    rw [foretold_of_some first, Value.checked, toInt64?_of_not_fits fits]

theorem find?_of_front {parts behind : List Expr} {part : Expr} (split : e.postorder = parts ++ behind)
    (first : parts.find? isOutside = some part) : e.postorder.find? isOutside = some part := by
  rw [split, List.find?_append, first, Option.some_or]

theorem applyBinary_whole {op : BinaryOp} {l r : Expr} (exact : op = .add ∨ op = .sub ∨ op = .mul)
    (left : Fits l.value) (right : Fits r.value) :
    Value.applyBinary op (.int (Int64.ofInt l.value)) (.int (Int64.ofInt r.value)) =
      Value.checked op.symbol (binary op l r).value := by
  rcases exact with rfl | rfl | rfl <;>
    simp only [Value.applyBinary, Value.arithmetic, value, toInt_ofInt_of_fits left,
      toInt_ofInt_of_fits right]

theorem eval_eq_foretold (whole : e.Whole) (functions : Entries Function) (ctx : Context) :
    e.eval functions ctx = e.foretold := by
  induction whole with
  | number n =>
    have inside : (literal (.int n)).postorder.find? isOutside = none := by
      simp [postorder, isOutside, value, fits_toInt]
    rw [eval, foretold_of_none inside, value, Int64.ofInt_toInt]
  | @neg e operand ih =>
    rw [eval, ih]
    cases first : e.postorder.find? isOutside with
    | some part =>
      rw [foretold_of_some first, foretold_of_some (find?_of_front rfl first)]
      rfl
    | none =>
      rw [foretold_of_none first, foretold_eq_checked rfl first]
      change Value.checked "-" _ = Value.checked "-" _
      rw [toInt_ofInt_of_fits (fits_of_none first), value]
  | @binary op l r exact _ _ left_ih right_ih =>
    -- None of the three operators can do without its right operand.
    have both : shortcut? op = none := by
      rcases exact with rfl | rfl | rfl <;> rfl
    rw [eval, left_ih, right_ih, both]
    cases left : l.postorder.find? isOutside with
    | some part =>
      have inside : (binary op l r).postorder = l.postorder ++ (r.postorder ++ [binary op l r]) := by
        rw [postorder, List.append_assoc]
      rw [foretold_of_some left, foretold_of_some (find?_of_front inside left)]
      rfl
    | none =>
      rw [foretold_of_none left]
      have operands : (l.postorder ++ r.postorder).find? isOutside = r.postorder.find? isOutside := by
        rw [List.find?_append, left, Option.none_or]
      cases right : r.postorder.find? isOutside with
      | some part =>
        rw [foretold_of_some right,
          foretold_of_some (find?_of_front rfl (operands.trans right))]
        rfl
      | none =>
        rw [foretold_of_none right, foretold_eq_checked rfl (operands.trans right)]
        exact applyBinary_whole exact (fits_of_none left) (fits_of_none right)

/-- What a tree of whole numbers comes to: its exact value where all of its parts are in range, else
an overflow at the first part, in post-order, that is not. So a result is never anything else. -/
structure IsExact (e : Expr) (outcome : Except ExprError Value) : Prop where
  result : ∀ v, outcome = .ok v → ∃ n, v = .int n ∧ n.toInt = e.value
  inside : (∀ part ∈ e.postorder, Fits part.value) →
    ∃ n, outcome = .ok (.int n) ∧ n.toInt = e.value
  outside : ∀ before part after, e.postorder = before ++ part :: after →
    (∀ other ∈ before, Fits other.value) → ¬ Fits part.value →
      outcome = .error (.overflow part.symbol)

theorem isExact_foretold (e : Expr) : e.IsExact e.foretold where
  result v given := by
    cases first : e.postorder.find? isOutside with
    | some part =>
      rw [foretold_of_some first] at given
      cases given
    | none =>
      rw [foretold_of_none first] at given
      cases given
      exact ⟨_, rfl, toInt_ofInt_of_fits (fits_of_none first)⟩
  inside fits := by
    have none : e.postorder.find? isOutside = none :=
      List.find?_eq_none.mpr fun part mem => by simp [isOutside, fits part mem]
    exact ⟨_, foretold_of_none none, toInt_ofInt_of_fits (fits e e.mem_postorder)⟩
  outside before part after split fits out := by
    refine foretold_of_some (List.find?_eq_some_iff_append.mpr ?_)
    refine ⟨by simp [isOutside, out], before, after, split, fun other mem => ?_⟩
    simp [isOutside, fits other mem]

end Expr

namespace Language

/-- A text without references is evaluated as the tree that it is read as. -/
theorem evaluate_of_references_nil (l : Language) {source : String} {e : Expr}
    (parsed : Expr.parse source = .ok e) (closed : e.references = []) (ctx : Context) :
    (l.evaluate [] source ctx).1 = e.eval l.functions ctx := by
  rw [evaluate_fst, parse_empty, parseFresh, parsed]
  simp [Except.bind, Except.map, check, closed]

end Language

namespace Expr

/-- Sums, differences, products and negations of whole numbers are exact, or the first overflow is
reported, for a tree as for a text that is read as one. -/
theorem isExact_eval {e : Expr} (whole : e.Whole) :
    (∀ functions ctx, e.IsExact (e.eval functions ctx)) ∧
      ∀ source, parse source = .ok e → ∀ (l : Language) ctx, e.IsExact (l.evaluate [] source ctx).1 := by
  have exact (functions : Entries Function) (ctx : Context) : e.IsExact (e.eval functions ctx) := by
    rw [eval_eq_foretold whole]
    exact e.isExact_foretold
  refine ⟨exact, fun source parsed l ctx => ?_⟩
  rw [l.evaluate_of_references_nil parsed (references_of_whole whole)]
  exact exact l.functions ctx

/-- The product is out of range before the sum that it is a part of, and behind a difference. -/
def overflowing : Expr :=
  .binary .add (.unary .neg (.binary .sub (.literal (.int 5)) (.literal (.int 7))))
    (.binary .mul (.literal (.int 9223372036854775807)) (.literal (.int 2)))

theorem parse_overflowing : parse "(-(5 - 7) + (9223372036854775807 * 2))" = .ok overflowing := by
  have readable : Readable overflowing :=
    .binary .add (.unary .neg (.binary .sub (.int (by decide)) (.int (by decide))))
      (.binary .mul (.int (by decide)) (.int (by decide)))
  have spelled : String.ofList (spell overflowing) = "(-(5 - 7) + (9223372036854775807 * 2))" := by
    decide +kernel
  rw [← spelled]
  exact parse_spell readable (by simp [overflowing, literals])

theorem isExact_eval_overflowing : overflowing.Whole ∧
    parse "(-(5 - 7) + (9223372036854775807 * 2))" = .ok overflowing ∧
    ((⟨[]⟩ : Language).evaluate [] "(-(5 - 7) + (9223372036854775807 * 2))" ⟨[]⟩).1 =
      .error (.overflow "*") := by
  have whole : overflowing.Whole :=
    .binary (.inl rfl) (.neg (.binary (.inr (.inl rfl)) (.number 5) (.number 7)))
      (.binary (.inr (.inr rfl)) (.number _) (.number 2))
  have exact := (isExact_eval whole).2 _ parse_overflowing ⟨[]⟩ ⟨[]⟩
  refine ⟨whole, parse_overflowing, ?_⟩
  -- Six parts stand before the product, and all of them are in range.
  refine exact.outside (overflowing.postorder.take 6) _ _ rfl ?_ ?_
  · simp [overflowing, postorder, value, Fits]
  · decide

end Expr

namespace Binary64

/-- Of the whole numbers only zero becomes a zero. -/
theorem isZero_ofInt {n : Int} (nonzero : n ≠ 0) : (ofInt n).isZero = false := by
  have one : Nat.log2 1 = 0 := by decide
  have scale : -53 ≤ scaleOf n.natAbs 1 := by
    unfold scaleOf
    dsimp only
    rw [one]
    split <;> split <;> omega
  have some_digit : n.natAbs ≠ 0 := Int.natAbs_ne_zero.mpr nonzero
  unfold ofInt ofQuotient
  rw [if_neg some_digit]
  dsimp only
  generalize (if 0 ≤ scaleOf n.natAbs 1 then _ else _) = significand
  have small : min ((scaleOf n.natAbs 1 + 1074).toNat * leadingBit + significand) infiniteMagnitude <
      signBit := Nat.lt_of_le_of_lt (Nat.min_le_right _ _) (by decide)
  have exponent : 1 ≤ (scaleOf n.natAbs 1 + 1074).toNat := by omega
  rw [isZero, magnitude_ofMagnitude small]
  simp only [leadingBit, infiniteMagnitude, beq_eq_false_iff_ne]
  omega

end Binary64

namespace Numeral

/-- Only the least number divided by minus one has a quotient out of range. -/
theorem fits_tdiv {a b : Int64} (other : a ≠ Int64.minValue ∨ b ≠ -1) :
    Fits (Int.tdiv a.toInt b.toInt) := by
  obtain ⟨low, high⟩ := fits_toInt a
  have size : (Int.tdiv a.toInt b.toInt).natAbs = a.toInt.natAbs / b.toInt.natAbs :=
    Int.natAbs_tdiv _ _
  by_cases one : b.toInt = 1
  · rw [one, Int.tdiv_one]
    exact fits_toInt a
  by_cases minus : b.toInt = -1
  · have least : a.toInt ≠ -0x8000000000000000 := by
      intro eq
      have is_min : a = Int64.minValue := Int64.toInt_inj.mp eq
      have is_minus : b = -1 := Int64.toInt_inj.mp minus
      exact other.elim (· is_min) (· is_minus)
    rw [minus, Int.tdiv_neg, Int.tdiv_one]
    constructor <;> omega
  by_cases zero : b.toInt.natAbs = 0
  · rw [zero, Nat.div_zero] at size
    constructor <;> omega
  · have half : a.toInt.natAbs / b.toInt.natAbs ≤ a.toInt.natAbs / 2 :=
      Nat.div_le_div_left (by omega) (by decide)
    constructor <;> omega

/-- A remainder is no further from zero than the dividend. -/
theorem fits_tmod (a b : Int64) : Fits (Int.tmod a.toInt b.toInt) := by
  obtain ⟨low, high⟩ := fits_toInt a
  have size : (Int.tmod a.toInt b.toInt).natAbs = a.toInt.natAbs % b.toInt.natAbs :=
    Int.natAbs_tmod _ _
  have below : a.toInt.natAbs % b.toInt.natAbs ≤ a.toInt.natAbs := Nat.mod_le _ _
  by_cases positive : 0 ≤ a.toInt
  · have sign := Int.tmod_nonneg b.toInt positive
    constructor <;> omega
  · have sign := Int.tmod_nonneg b.toInt (a := -a.toInt) (by omega)
    rw [Int.neg_tmod] at sign
    constructor <;> omega

end Numeral

namespace Value

variable {a b : Int64}

theorem divide_whole (nonzero : b ≠ 0) : divide (.int a) (.int b) =
    if b.toInt ∣ a.toInt ∧ Fits (Int.tdiv a.toInt b.toInt) then
      .ok (.int (Int64.ofInt (Int.tdiv a.toInt b.toInt)))
    else .ok (.float (Binary64.div (.ofInt a.toInt) (.ofInt b.toInt))) := by
  have divisor : (Binary64.ofInt b.toInt).isZero = false :=
    Binary64.isZero_ofInt fun zero => nonzero (Int64.toInt_inj.mp zero)
  simp only [divide, toBinary64?, divisor, Bool.false_eq_true, if_false, Int.dvd_iff_tmod_eq_zero]
  by_cases whole : Int.tmod a.toInt b.toInt = 0
  · by_cases fits : Fits (Int.tdiv a.toInt b.toInt)
    · simp [whole, fits, toInt64?_of_fits]
    · simp [whole, fits, toInt64?_of_not_fits]
  · simp [whole]

theorem remainder_whole (nonzero : b ≠ 0) : remainder (.int a) (.int b) =
    if Fits (Int.tdiv a.toInt b.toInt) then .ok (.int (Int64.ofInt (Int.tmod a.toInt b.toInt)))
    else .error (.overflow "%") := by
  have divisor : b.toInt ≠ 0 := fun zero => nonzero (Int64.toInt_inj.mp zero)
  simp only [remainder, if_neg divisor]
  by_cases fits : Fits (Int.tdiv a.toInt b.toInt)
  · rw [toInt64?_of_fits fits, if_pos fits, checked, toInt64?_of_fits (fits_tmod a b)]
  · rw [toInt64?_of_not_fits fits, if_neg fits]

end Value

namespace Expr

variable {functions : Entries Function} {ctx : Context} {l r : Expr} {a b : Int64}

theorem eval_div (left : l.eval functions ctx = .ok (.int a))
    (right : r.eval functions ctx = .ok (.int b)) :
    (binary .div l r).eval functions ctx = Value.divide (.int a) (.int b) :=
  eval_binary rfl left right

theorem eval_mod (left : l.eval functions ctx = .ok (.int a))
    (right : r.eval functions ctx = .ok (.int b)) :
    (binary .mod l r).eval functions ctx = Value.remainder (.int a) (.int b) :=
  eval_binary rfl left right

/-- But for the least number and minus one, whose quotient is out of range, a whole quotient is exact
and a remainder is the truncated one, so zero where the division is exact. For these two the
remainder is an overflow. -/
theorem eval_division (left : l.eval functions ctx = .ok (.int a))
    (right : r.eval functions ctx = .ok (.int b)) (nonzero : b ≠ 0) :
    (a ≠ Int64.minValue ∨ b ≠ -1 →
      (b.toInt ∣ a.toInt → ∃ q, (binary .div l r).eval functions ctx = .ok (.int q) ∧
        q.toInt * b.toInt = a.toInt) ∧
      ∃ m, (binary .mod l r).eval functions ctx = .ok (.int m) ∧
        m.toInt = Int.tmod a.toInt b.toInt ∧ (b.toInt ∣ a.toInt → m = 0)) ∧
    (a = Int64.minValue → b = -1 →
      (binary .mod l r).eval functions ctx = .error (.overflow "%")) := by
  rw [eval_div left right, eval_mod left right, Value.divide_whole nonzero,
    Value.remainder_whole nonzero]
  constructor
  · intro other
    have fits := fits_tdiv other
    constructor
    · intro exact
      refine ⟨_, if_pos ⟨exact, fits⟩, ?_⟩
      rw [toInt_ofInt_of_fits fits]
      exact Int.tdiv_mul_cancel exact
    · refine ⟨_, if_pos fits, toInt_ofInt_of_fits (fits_tmod a b), fun exact => ?_⟩
      rw [Int.dvd_iff_tmod_eq_zero.mp exact]
      rfl
  · rintro rfl rfl
    exact if_neg (by decide)

theorem eval_division_negative : ∃ q m,
    (binary .div (.literal (.int (-6))) (.literal (.int 3))).eval [] ⟨[]⟩ = .ok (.int q) ∧
      q.toInt * 3 = -6 ∧
    (binary .mod (.literal (.int (-7))) (.literal (.int 2))).eval [] ⟨[]⟩ = .ok (.int m) ∧
      m.toInt = -1 := by
  have six : (Expr.literal (.int (-6))).eval [] ⟨[]⟩ = .ok (.int (-6)) := rfl
  have three : (Expr.literal (.int 3)).eval [] ⟨[]⟩ = .ok (.int 3) := rfl
  have seven : (Expr.literal (.int (-7))).eval [] ⟨[]⟩ = .ok (.int (-7)) := rfl
  have two : (Expr.literal (.int 2)).eval [] ⟨[]⟩ = .ok (.int 2) := rfl
  obtain ⟨q, quotient, exact⟩ :=
    ((eval_division six three (by decide)).1 (.inl (by decide))).1 (by decide)
  obtain ⟨m, remainder, truncated, _⟩ :=
    ((eval_division seven two (by decide)).1 (.inl (by decide))).2
  exact ⟨q, m, quotient, exact, remainder, truncated⟩

/-- The least number divided by minus one, as it can be written. -/
def leastBy (op : BinaryOp) : Expr :=
  .binary op (.binary .sub (.unary .neg (.literal (.int 9223372036854775807))) (.literal (.int 1)))
    (.unary .neg (.literal (.int 1)))

/-- There an exact quotient becomes a binary64 number, and the remainder of an exact division an
overflow. -/
theorem eval_leastBy : (-1 : Int) ∣ Int64.minValue.toInt ∧
    (∃ x, (leastBy .div).eval [] ⟨[]⟩ = .ok (.float x)) ∧
    (leastBy .mod).eval [] ⟨[]⟩ = .error (.overflow "%") := by
  have least : (Expr.binary .sub (.unary .neg (.literal (.int 9223372036854775807)))
      (.literal (.int 1))).eval [] ⟨[]⟩ = .ok (.int Int64.minValue) := by rfl
  have minus : (Expr.unary .neg (.literal (.int 1))).eval [] ⟨[]⟩ = .ok (.int (-1)) := by rfl
  refine ⟨by decide, ?_, ?_⟩
  · rw [leastBy, eval_div least minus, Value.divide_whole (by decide), if_neg (by decide)]
    exact ⟨_, rfl⟩
  · rw [leastBy, eval_mod least minus, Value.remainder_whole (by decide), if_neg (by decide)]

end Expr

end RuleRegistry
