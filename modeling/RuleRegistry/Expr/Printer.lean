import RuleRegistry.Expr.Basic
import RuleRegistry.Expr.Function
import RuleRegistry.Value.Text

namespace RuleRegistry.Expr

mutual

def compile (functions : Entries Function) : Expr → Except ExprError String
  | literal v => .ok v.text
  | array items => (compileAll functions items).map fun parts => "[" ++ ", ".intercalate parts ++ "]"
  | name root keys => .ok (Text.dotted (root :: keys))
  | unary op operand => (compile functions operand).map (op.symbol ++ ·)
  | binary op left right =>
    (compile functions left).bind fun l =>
      (compile functions right).map fun r => "(" ++ l ++ " " ++ op.symbol ++ " " ++ r ++ ")"
  | call function args =>
    match Entries.find? functions function with
    | none => .error (.unknownFunction function)
    | some f => (compileAll functions args).map f.compile

def compileAll (functions : Entries Function) : List Expr → Except ExprError (List String)
  | [] => .ok []
  | e :: rest =>
    (compile functions e).bind fun part => (compileAll functions rest).map (part :: ·)

end

end RuleRegistry.Expr
