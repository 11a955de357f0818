import RuleRegistry.Context

namespace RuleRegistry

inductive ExprError where
  | malformed (source : String) (offset : Nat) (message : String)
  | unknownVariable (name : String)
  | unknownFunction (name : String)
  | typeMismatch (op left right : String)
  | invalidOperand (op operand : String)
  | divisionByZero
  | overflow (op : String)
  | function (function message : String)
deriving DecidableEq

namespace ExprError

def message : ExprError → String
  | malformed source offset text =>
    "syntax error at offset " ++ toString offset ++ " in \"" ++ source ++ "\": " ++ text
  | unknownVariable name => "variable \"" ++ name ++ "\" is not valid"
  | unknownFunction name => "the function \"" ++ name ++ "\" does not exist"
  | typeMismatch op left right =>
    "unsupported operand types for '" ++ op ++ "': " ++ left ++ " and " ++ right
  | invalidOperand op operand => "unsupported operand type for '" ++ op ++ "': " ++ operand
  | divisionByZero => "division by zero"
  | overflow op => "integer overflow in '" ++ op ++ "'"
  | function name text => "function \"" ++ name ++ "\" failed: " ++ text

end ExprError

structure Function where
  name : String
  compile : List String → String
  call : Context → List Value → Except ExprError Value

namespace Function

/-- A function that does not look at the variables and whose call is written `name(args)`. -/
def simple (name : String) (call : List Value → Except ExprError Value) : Function where
  name := name
  compile args := name ++ "(" ++ ", ".intercalate args ++ ")"
  call _ args := call args

end Function

end RuleRegistry
