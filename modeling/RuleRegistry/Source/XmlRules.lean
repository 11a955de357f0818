import RuleRegistry.Source.Definition
import RuleRegistry.Value.Spelling
import RuleRegistry.Xml.Attribute

namespace RuleRegistry.Source

open Xml

namespace XmlRules

inductive Head where
  | rule (id expression : String)
  | reference (resource : String) (kind : Option String)

structure Pending where
  head : Head
  tags : TagList := []

def attributesOf (path : Path) (t : Tag) : Except Error (List (String × String)) :=
  match t.attributes? with
  | some attributes => .ok attributes
  | none => .error (.malformed path .xml)

/-- The first attribute of a name, unless it is empty. -/
def given? (attributes : List (String × String)) (key : String) : Option String :=
  (attributes.lookup key).filter fun v => v != ""

def required (path : Path) (element : String) (attributes : List (String × String)) (key : String) :
    Except Error String :=
  match given? attributes key with
  | some v => .ok v
  | none => .error (.invalid path (.missingAttribute element key))

def openElement (path : Path) (t : Tag) : Except Error Pending := do
  let attributes ← attributesOf path t
  match t.localName with
  | "rule" =>
    let id ← required path "rule" attributes "id"
    let expression ← required path "rule" attributes "expression"
    return ⟨.rule id expression, []⟩
  | "import" =>
    let resource ← required path "import" attributes "resource"
    return ⟨.reference resource (given? attributes "type"), []⟩
  | name => .error (.invalid path (.unknownElement name ["rule", "import"]))

/-- The name with `_` in place of `-`, if it has only the latter. -/
def alias? (key : String) : Option String :=
  let cs := key.toList
  if cs.contains '-' && !cs.contains '_' then
    some (String.ofList (cs.map fun c => if c = '-' then '_' else c))
  else none

/-- A tag so far with one more attribute. The name with `_` is added unless it is there. -/
def addAttribute (tag : String × Attributes) (entry : String × String) : String × Attributes :=
  let (key, text) := entry
  if key = "name" then (text, tag.2)
  else
    let v := Value.ofSpelling text
    let attributes := match alias? key with
      | some other => Entries.putNew tag.2 other v
      | none => tag.2
    (tag.1, Entries.put attributes key v)

def readTag (path : Path) (t : Tag) : Except Error (String × Attributes) := do
  let attributes ← attributesOf path t
  let tag := attributes.foldl addAttribute ("", [])
  if tag.1 = "" then .error (.invalid path (.missingAttribute "tag" "name")) else return tag

def Pending.addTag (path : Path) (p : Pending) (t : Tag) : Except Error Pending :=
  if t.localName ≠ "tag" then .error (.invalid path (.unknownElement t.localName ["tag"]))
  else (readTag path t).map fun tag => ⟨p.head, p.tags ++ [tag]⟩

def Pending.finish (path : Path) (p : Pending) : Except Error Definition :=
  match p.head with
  | .rule id expression => Definition.makeRule path id expression p.tags
  | .reference resource kind => .ok (.reference resource kind p.tags)

/-- Where the reading stands: between elements, or in an element and below so many open ones. -/
inductive Place where
  | between
  | within (p : Pending) (depth : Nat)

/-- The definitions that the events of the root element give. An element still open at the end of
the text is dropped, but not one inside of a tag. -/
def readBody (path : Path) : Place → List Event → Definitions
  | .between, [] => ⟨[], none⟩
  | .within _ 0, [] => ⟨[], none⟩
  | .within _ (_ + 1), [] => .failed (.malformed path .xml)
  | _, .fault :: _ => .failed (.malformed path .xml)
  | .between, .closing :: _ => ⟨[], none⟩
  | .within p 0, .closing :: rest =>
    match p.finish path with
    | .error e => .failed e
    | .ok d => let ds := readBody path .between rest; ⟨d :: ds.found, ds.error⟩
  | .within p (depth + 1), .closing :: rest => readBody path (.within p depth) rest
  | .between, .element t empty :: rest =>
    match openElement path t with
    | .error e => .failed e
    | .ok p =>
      if empty then
        match p.finish path with
        | .error e => .failed e
        | .ok d => let ds := readBody path .between rest; ⟨d :: ds.found, ds.error⟩
      else readBody path (.within p 0) rest
  | .within p 0, .element t empty :: rest =>
    match p.addTag path t with
    | .error e => .failed e
    | .ok p => readBody path (.within p (if empty then 0 else 1)) rest
  | .within p (depth + 1), .element _ empty :: rest =>
    readBody path (.within p (if empty then depth + 1 else depth + 2)) rest

def read (path : Path) (text : String) : Definitions :=
  match events text with
  | .element _ true :: _ => ⟨[], none⟩
  | .element _ false :: rest => readBody path .between rest
  | .fault :: _ => .failed (.malformed path .xml)
  | _ => .failed (.invalid path .noRoot)

end XmlRules

end RuleRegistry.Source
