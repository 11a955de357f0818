import RuleRegistry.Source.Definition
import RuleRegistry.Yaml.Tree
import RuleRegistry.Yaml.Writer

namespace RuleRegistry.Source

open Yaml

namespace YamlRules

/-- The text of a scalar that is not null and has no tag of its own. -/
def scalarText? : Tree → Option String
  | .atom (.string s) => some s
  | .atom (.bool b) => some (if b then "true" else "false")
  | .atom (.int n) => some (toString n)
  | .atom (.float x) => some (Writer.floatText x)
  | _ => none

def keyText (key : Tree) : String := (scalarText? key).getD "<complex key>"

abbrev Fields := List (Tree × Tree)

/-- Whether a key is there with anything but null. -/
def states (fields : Fields) (key : String) : Bool :=
  match Tree.lookup? fields key with
  | some v => !v.isNull
  | none => false

def unknownKeys (fields : Fields) : List String :=
  (fields.filter fun p => match p.1.asString with
    | some key => !definitionKeys.contains key
    | none => true).map fun p => keyText p.1

def fitTags (tags : Tree) : Bool :=
  match tags.asSequence with
  | some items => items.all fun item => ((item.get? "name").bind scalarText?).isSome
  | none => false

def validate (rule : String) (definition : Tree) : Except Fault Fields :=
  match definition with
  | .mapping fields =>
    if unknownKeys fields ≠ [] then .error (.unknownKeys rule (unknownKeys fields))
    else if states fields "resource" && states fields "expression" then
      .error (.resourceAndExpression rule)
    else if !states fields "resource" && states fields "type" then
      .error (.typeWithoutResource rule)
    else if !states fields "resource" && !states fields "expression" then
      .error (.noExpression rule)
    else if states fields "tags" && !((Tree.lookup? fields "tags").map fitTags).getD false then
      .error (.tags rule)
    else .ok fields
  | _ => .error (.definition rule)

def textField (fields : Fields) (key rule : String) : Except Fault (Option String) :=
  match Tree.lookup? fields key with
  | none => .ok none
  | some (.atom .null) => .ok none
  | some v =>
    match scalarText? v with
    | some s => .ok (some s)
    | none => .error (.notText key rule)

mutual

/-- The value of an attribute. Tags of its own do not count. -/
def value (rule : String) : Tree → Except Fault Value
  | .atom a => .ok (Reading.ofAtom a)
  | .sequence items => (values rule items).map .list
  | .mapping pairs => (entries rule pairs).map fun es => .map (Entries.ofPairs es)
  | .tagged _ tree => value rule tree

def values (rule : String) : List Tree → Except Fault (List Value)
  | [] => .ok []
  | t :: rest => (value rule t).bind fun v => (values rule rest).map fun vs => v :: vs

def entries (rule : String) : List (Tree × Tree) → Except Fault (List (String × Value))
  | [] => .ok []
  | (k, t) :: rest =>
    match scalarText? k with
    | none => .error (.nestedKey rule)
    | some key =>
      (value rule t).bind fun v => (entries rule rest).map fun es => (key, v) :: es

end

def addField (rule : String) (tag : String × Attributes) (field : Tree × Tree) :
    Except Fault (String × Attributes) :=
  match scalarText? field.1 with
  | none => .error (.attributeName rule)
  | some "name" => .ok ((scalarText? field.2).getD "", tag.2)
  | some key => (value rule field.2).map fun v => (tag.1, Entries.put tag.2 key v)

/-- The tags of a list. What is not plainly a mapping is passed over. -/
def tagList (rule : String) (items : List Tree) : Except Fault TagList :=
  items.foldlM (fun tags item =>
    match item with
    | .mapping fields => do
      let tag ← fields.foldlM (addField rule) ("", [])
      return tags ++ [tag]
    | _ => .ok tags) []

def tagsOf (fields : Fields) (rule : String) : Except Fault TagList :=
  match Tree.lookup? fields "tags" with
  | some (.sequence items) => tagList rule items
  | _ => .ok []

def readRule (path : Path) (rule : String) (fields : Fields) : Except Error Definition := do
  let fault {α : Type} (r : Except Fault α) : Except Error α := r.mapError (.invalid path)
  let expression := (← fault (textField fields "expression" rule)).getD ""
  let _ ← Definition.makeRule path rule expression []
  Definition.makeRule path rule expression (← fault (tagsOf fields rule))

def readReference (rule : String) (fields : Fields) : Except Fault Definition := do
  let resource := (← textField fields "resource" rule).getD ""
  let kind ← textField fields "type" rule
  return .reference resource kind (← tagsOf fields rule)

/-- One entry of the file. With a resource, null or not, it is an import. -/
def readEntry (path : Path) (entry : Tree × Tree) : Except Error Definition :=
  match scalarText? entry.1 with
  | none => .error (.invalid path .ruleName)
  | some rule =>
    match validate rule entry.2 with
    | .error fault => .error (.invalid path fault)
    | .ok fields =>
      if (Tree.lookup? fields "resource").isSome then
        (readReference rule fields).mapError (.invalid path)
      else readRule path rule fields

def read (path : Path) (text : String) : Definitions :=
  if Text.isBlank text then ⟨[], none⟩
  else match Tree.parse? text with
    | none => .failed (.malformed path .yaml)
    | some (.atom .null) => ⟨[], none⟩
    | some (.mapping pairs) => .ofEach (readEntry path) pairs
    | some _ => .failed (.invalid path .noMapping)

end YamlRules

end RuleRegistry.Source
