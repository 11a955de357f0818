import RuleRegistry.Expr.Language

/-!
Extensions: named bundles of global variables and functions. An evaluator is a language with the
extensions registered so far; the first extension of a name wins, and so does the first global of
a name, after the one that describes the evaluator.
-/

namespace RuleRegistry

structure Extension where
  name : String
  globals : Entries Value := []
  functions : List String := []
  call : String → List Value → Except ExprError Value

def engineGlobal : String := "__rulebook"

/-- A function of an extension. Its call is written as a call on the extension. -/
def Extension.function (x : Extension) (name : String) : Function where
  name := name
  compile args :=
    engineGlobal ++ ".getExtension(" ++ Text.quote x.name ++ ")." ++ name ++ "(" ++
      ", ".intercalate args ++ ")"
  call _ args := x.call name args

structure Evaluator where
  language : Language := ⟨[]⟩
  extensions : Entries Extension := []

namespace Evaluator

/-- Registers an extension with its functions; one whose name is taken changes nothing. -/
def register (ev : Evaluator) (x : Extension) : Bool × Evaluator :=
  if Entries.has ev.extensions x.name then (false, ev)
  else
    (true, ⟨x.functions.foldl (fun l f => l.addFunction (x.function f)) ev.language,
      Entries.put ev.extensions x.name x⟩)

def extension? (ev : Evaluator) (name : String) : Option Extension :=
  Entries.find? ev.extensions name

def addFunction (ev : Evaluator) (f : Function) : Evaluator :=
  ⟨ev.language.addFunction f, ev.extensions⟩

def selfValue (ev : Evaluator) : Value :=
  .map [("extensions", .list ((Entries.keys ev.extensions).map .string))]

def globals (ev : Evaluator) : Entries Value :=
  ev.extensions.foldl
    (fun acc x => x.2.globals.foldl (fun acc g => Entries.putNew acc g.1 g.2) acc)
    [(engineGlobal, ev.selfValue)]

def allowedNames (ev : Evaluator) (names : List String) : List String :=
  names.foldl (fun acc n => if n ∈ acc then acc else acc ++ [n]) (Entries.keys ev.globals)

def parse (ev : Evaluator) (store : ParseStore) (source : String) (names : List String) :
    Except ExprError Parsed × ParseStore :=
  ev.language.parse store source (ev.allowedNames names)

def compile (ev : Evaluator) (store : ParseStore) (source : String) (names : List String) :
    Except ExprError String × ParseStore :=
  ev.language.compile store source (ev.allowedNames names)

/-- Evaluates a text on the globals and a context, which wins where both bind a name. -/
def evaluate (ev : Evaluator) (store : ParseStore) (source : String) (ctx : Context) :
    Except ExprError Value × ParseStore :=
  ev.language.evaluate store source ((Context.mk ev.globals).merge ctx)

end Evaluator

end RuleRegistry
