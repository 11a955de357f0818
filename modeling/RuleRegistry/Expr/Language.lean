import RuleRegistry.Expr.Eval
import RuleRegistry.Expr.Parser
import RuleRegistry.Expr.Printer

namespace RuleRegistry

structure Parsed where
  source : String
  names : List String
  expr : Expr
deriving Inhabited

/-- What was read so far, under the keys of the requests. -/
abbrev ParseStore := Entries Parsed

/-- The key of a request: the text and the sorted names without repeats. -/
def requestKey (source : String) (names : List String) : String :=
  source ++ "//" ++ ",".intercalate (names.mergeSort fun a b => decide (a ≤ b)).eraseReps

structure Language where
  functions : Entries Function := []

namespace Language

def addFunction (l : Language) (f : Function) : Language :=
  ⟨Entries.put l.functions f.name f⟩

def register (l : Language) (name : String) (compile : List String → String)
    (call : Context → List Value → Except ExprError Value) : Language :=
  l.addFunction ⟨name, compile, call⟩

def function? (l : Language) (name : String) : Option Function := Entries.find? l.functions name

def refusal? (l : Language) (names : List String) : Reference → Option ExprError
  | .variable root => if root ∈ names then none else some (.unknownVariable root)
  | .function name =>
    if Entries.has l.functions name then none else some (.unknownFunction name)

def check (l : Language) (names : List String) (e : Expr) : Except ExprError Unit :=
  match e.references.findSome? (l.refusal? names) with
  | some error => .error error
  | none => .ok ()

def parseFresh (l : Language) (source : String) (names : List String) :
    Except ExprError Parsed :=
  (Expr.parse source).bind fun e => (l.check names e).map fun _ => ⟨source, names, e⟩

/-- Reads a text through a store. Only what could be read is stored. -/
def parse (l : Language) (store : ParseStore) (source : String) (names : List String) :
    Except ExprError Parsed × ParseStore :=
  let key := requestKey source names
  match Entries.find? store key with
  | some parsed => (.ok parsed, store)
  | none =>
    match l.parseFresh source names with
    | .ok parsed => (.ok parsed, Entries.put store key parsed)
    | .error error => (.error error, store)

def compile (l : Language) (store : ParseStore) (source : String) (names : List String) :
    Except ExprError String × ParseStore :=
  let (parsed, store) := l.parse store source names
  (parsed.bind fun p => p.expr.compile l.functions, store)

/-- Evaluates a text; the names of the context are the allowed ones. -/
def evaluate (l : Language) (store : ParseStore) (source : String) (ctx : Context) :
    Except ExprError Value × ParseStore :=
  let (parsed, store) := l.parse store source ctx.names
  (parsed.bind fun p => p.expr.eval l.functions ctx, store)

end Language

end RuleRegistry
