import RuleRegistry.Text.Dotted
import RuleRegistry.Value.Compare

namespace RuleRegistry

structure Context where
  entries : Entries Value := []
deriving Inhabited

namespace Context

/-- Puts a value under a path of keys. What is no map on the way is replaced by one. -/
def setIn : List String → Value → Entries Value → Entries Value
  | [], _, es => es
  | [key], value, es => Entries.put es key value
  | key :: rest, value, es =>
    let nested := match Entries.find? es key with
      | some (.map inner) => inner
      | _ => []
    Entries.put es key (.map (setIn rest value nested))

def set (c : Context) (path : String) (value : Value) : Context :=
  ⟨setIn (Text.segments path) value c.entries⟩

/-- Binds a name, dots and all. -/
def bind (c : Context) (name : String) (value : Value) : Context :=
  ⟨Entries.put c.entries name value⟩

def lookup (c : Context) : List String → Option Value
  | [] => none
  | key :: rest => (Entries.find? c.entries key).bind fun v => v.at? rest

def get? (c : Context) (path : String) : Option Value := c.lookup (Text.segments path)

def has (c : Context) (name : String) : Bool := Entries.has c.entries name

def names (c : Context) : List String := Entries.keys c.entries

/-- The names of the second context replace those of the first. -/
def merge (c other : Context) : Context := ⟨Entries.putAll c.entries other.entries⟩

def ofPairs (pairs : List (String × Value)) : Context := ⟨Entries.ofPairs pairs⟩

def same (c other : Context) : Bool := Entries.sameBy Value.same c.entries other.entries

end Context

end RuleRegistry
