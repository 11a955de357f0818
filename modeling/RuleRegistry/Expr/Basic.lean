import RuleRegistry.Text.Dotted
import RuleRegistry.Value.Compare

namespace RuleRegistry

inductive UnaryOp where
  | not
  | neg
deriving DecidableEq

inductive BinaryOp where
  | or
  | and
  | compare (c : Comparison)
  | within
  | notWithin
  | add
  | sub
  | concat
  | mul
  | div
  | mod
deriving DecidableEq

/-- The operator as it is written before its operand; the word has a blank after it. -/
def UnaryOp.symbol : UnaryOp → String
  | not => "not "
  | neg => "-"

def BinaryOp.symbol : BinaryOp → String
  | or => "or"
  | and => "and"
  | compare c => c.symbol
  | within => "in"
  | notWithin => "not in"
  | add => "+"
  | sub => "-"
  | concat => "~"
  | mul => "*"
  | div => "/"
  | mod => "%"

/-- An expression. A name is a variable with the keys that are looked up in its value. -/
inductive Expr where
  | literal (value : Value)
  | array (items : List Expr)
  | name (root : String) (keys : List String)
  | unary (op : UnaryOp) (operand : Expr)
  | binary (op : BinaryOp) (left right : Expr)
  | call (function : String) (args : List Expr)
deriving Inhabited

inductive Reference where
  | variable (root : String)
  | function (name : String)
deriving DecidableEq

namespace Expr

mutual

/-- The references in source order, a function before its arguments. -/
def references : Expr → List Reference
  | literal _ => []
  | array items => referencesAll items
  | name root _ => [.variable root]
  | unary _ operand => references operand
  | binary _ left right => references left ++ references right
  | call function args => .function function :: referencesAll args

def referencesAll : List Expr → List Reference
  | [] => []
  | e :: rest => references e ++ referencesAll rest

end

end Expr

end RuleRegistry
