import RuleRegistry.Collection
import RuleRegistry.Source.Error

namespace RuleRegistry.Source

abbrev TagList := List (String × Attributes)

inductive Definition where
  | rule (name : String) (rule : Rule)
  | reference (resource : String) (kind : Option String) (tags : TagList)

/-- The definitions of a file, up to the first fault if there is one. -/
structure Definitions where
  found : List Definition
  error : Option Error := none

def Definition.makeRule (path : Path) (name expression : String) (tags : TagList) :
    Except Error Definition :=
  match Rule.new expression with
  | .ok r => .ok (.rule name (tags.foldl (fun r t => r.addTag t.1 t.2) r))
  | .error e => .error (.invalid path (.badRule name e))

namespace Definitions

def failed (e : Error) : Definitions := ⟨[], some e⟩

def ofEach {α : Type} (read : α → Except Error Definition) : List α → Definitions
  | [] => ⟨[], none⟩
  | x :: rest =>
    match read x with
    | .error e => failed e
    | .ok d => let ds := ofEach read rest; ⟨d :: ds.found, ds.error⟩

end Definitions

end RuleRegistry.Source
