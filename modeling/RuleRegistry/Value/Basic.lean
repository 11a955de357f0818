import RuleRegistry.Entries
import RuleRegistry.Number.Binary64

namespace RuleRegistry

inductive Value where
  | null
  | bool (b : Bool)
  | int (n : Int64)
  | float (x : Binary64)
  | string (s : String)
  | list (items : List Value)
  | map (entries : List (String × Value))
deriving Inhabited

namespace Value

/-- Null, false, zero and all that is empty are false; what is not a number is true. -/
def isTruthy : Value → Bool
  | null => false
  | bool b => b
  | int n => n != 0
  | float x => !x.isZero
  | string s => s != ""
  | list items => !items.isEmpty
  | map entries => !entries.isEmpty

def typeName : Value → String
  | null => "null"
  | bool _ => "bool"
  | int _ => "int"
  | float _ => "float"
  | string _ => "string"
  | list _ => "list"
  | map _ => "map"

def asBool : Value → Option Bool
  | bool b => some b
  | _ => none

def asInt : Value → Option Int64
  | int n => some n
  | _ => none

def asString : Value → Option String
  | string s => some s
  | _ => none

def asList : Value → Option (List Value)
  | list items => some items
  | _ => none

def asMap : Value → Option (Entries Value)
  | map entries => some entries
  | _ => none

def at? : Value → List String → Option Value
  | v, [] => some v
  | map entries, key :: rest => (Entries.find? entries key).bind fun v => at? v rest
  | _, _ :: _ => none

end Value

end RuleRegistry
