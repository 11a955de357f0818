import RuleRegistry.Expr.Basic
import RuleRegistry.Expr.Function
import RuleRegistry.Number.Numeral
import RuleRegistry.Value.Text

/-!
Evaluation of an expression on a context. Operands come before their operator, left before right;
only the two Boolean connectives may leave out their right operand. Whole numbers are exact or
report an overflow; a quotient of whole numbers stays whole when it is exact.
-/

namespace RuleRegistry

namespace Value

def checked (op : String) (n : Int) : Except ExprError Value :=
  match Numeral.toInt64? n with
  | some m => .ok (.int m)
  | none => .error (.overflow op)

def negate : Value → Except ExprError Value
  | int n => checked "-" (-n.toInt)
  | float x => .ok (.float x.neg)
  | v => .error (.invalidOperand "-" v.typeName)

def mismatch (op : BinaryOp) (left right : Value) : ExprError :=
  .typeMismatch op.symbol left.typeName right.typeName

/-- An operation on numbers: exact on whole numbers, else on binary64 numbers. -/
def arithmetic (op : BinaryOp) (whole : Int → Int → Int) (real : Binary64 → Binary64 → Binary64)
    (left right : Value) : Except ExprError Value :=
  match left, right with
  | int a, int b => checked op.symbol (whole a.toInt b.toInt)
  | left, right =>
    match left.toBinary64?, right.toBinary64? with
    | some a, some b => .ok (.float (real a b))
    | _, _ => .error (mismatch op left right)

/-- Whole numbers whose quotient is whole and in range give it; all others give a binary64
number. -/
def divide (left right : Value) : Except ExprError Value :=
  match left.toBinary64?, right.toBinary64? with
  | some a, some b =>
    if b.isZero then .error .divisionByZero
    else
      let whole := match left, right with
        | int m, int n =>
          if Int.tmod m.toInt n.toInt = 0 then Numeral.toInt64? (Int.tdiv m.toInt n.toInt) else none
        | _, _ => none
      match whole with
      | some q => .ok (.int q)
      | none => .ok (.float (Binary64.div a b))
  | _, _ => .error (mismatch .div left right)

/-- The remainder with the sign of the dividend, defined where the quotient is in range. -/
def remainder (left right : Value) : Except ExprError Value :=
  match left, right with
  | int a, int b =>
    if b.toInt = 0 then .error .divisionByZero
    else match Numeral.toInt64? (Int.tdiv a.toInt b.toInt) with
      | some _ => checked "%" (Int.tmod a.toInt b.toInt)
      | none => .error (.overflow "%")
  | _, _ => .error (mismatch .mod left right)

/-- Membership: loosely among the items of a list, or a text among the keys of a map. -/
def contains? (container needle : Value) : Option Bool :=
  match container, needle with
  | list items, _ => some (items.any fun item => item.looseEq needle)
  | map entries, string key => some (Entries.has entries key)
  | _, _ => none

def applyUnary : UnaryOp → Value → Except ExprError Value
  | .not, v => .ok (.bool (!v.isTruthy))
  | .neg, v => v.negate

def orMismatch (op : BinaryOp) (left right : Value) : Option Bool → Except ExprError Value
  | some b => .ok (.bool b)
  | none => .error (mismatch op left right)

def applyBinary (op : BinaryOp) (left right : Value) : Except ExprError Value :=
  match op with
  | .or => .ok (.bool (left.isTruthy || right.isTruthy))
  | .and => .ok (.bool (left.isTruthy && right.isTruthy))
  | .compare c => orMismatch op left right (compare? c left right)
  | .within => orMismatch op left right (contains? right left)
  | .notWithin => orMismatch op left right ((contains? right left).map not)
  | .add => arithmetic op (· + ·) Binary64.add left right
  | .sub => arithmetic op (· - ·) Binary64.sub left right
  | .mul => arithmetic op (· * ·) Binary64.mul left right
  | .concat => .ok (.string (left.plainText ++ right.plainText))
  | .div => divide left right
  | .mod => remainder left right

end Value

namespace Expr

/-- The value that decides a connective on its own, if the operator is one. -/
def shortcut? : BinaryOp → Option Bool
  | .or => some true
  | .and => some false
  | _ => none

mutual

def eval (functions : Entries Function) (ctx : Context) : Expr → Except ExprError Value
  | literal v => .ok v
  | array items => (evalAll functions ctx items).map .list
  | name root keys =>
    match ctx.lookup (root :: keys) with
    | some v => .ok v
    | none => .error (.unknownVariable (Text.dotted (root :: keys)))
  | unary op operand => (eval functions ctx operand).bind (Value.applyUnary op)
  | binary op left right =>
    (eval functions ctx left).bind fun l =>
      if shortcut? op = some l.isTruthy then .ok (.bool l.isTruthy)
      else (eval functions ctx right).bind fun r => Value.applyBinary op l r
  | call function args =>
    match Entries.find? functions function with
    | none => .error (.unknownFunction function)
    | some f => (evalAll functions ctx args).bind (f.call ctx)

def evalAll (functions : Entries Function) (ctx : Context) :
    List Expr → Except ExprError (List Value)
  | [] => .ok []
  | e :: rest =>
    (eval functions ctx e).bind fun v => (evalAll functions ctx rest).map (v :: ·)

end

/-- But for the connectives, an operator is applied to the values of its operands. -/
theorem eval_binary {functions : Entries Function} {ctx : Context} {op : BinaryOp} {l r : Expr}
    {x y : Value} (strict : shortcut? op = none) (left : l.eval functions ctx = .ok x)
    (right : r.eval functions ctx = .ok y) :
    (binary op l r).eval functions ctx = Value.applyBinary op x y := by
  rw [eval, left, right]
  simp [Except.bind, strict]

end Expr

end RuleRegistry
