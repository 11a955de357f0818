import RuleRegistry.Path
import RuleRegistry.Rule

namespace RuleRegistry

structure Collection where
  rules : Entries Rule := []
  files : List Path := []
deriving Inhabited

namespace Collection

def empty : Collection := ⟨[], []⟩

def size (c : Collection) : Nat := c.rules.length

def isEmpty (c : Collection) : Bool := c.rules.isEmpty

def names (c : Collection) : List String := Entries.keys c.rules

def get? (c : Collection) (name : String) : Option Rule := Entries.find? c.rules name

/-- Adds a rule at the end, in place of one with the same name. -/
def add (c : Collection) (name : String) (rule : Rule) : Collection :=
  ⟨Entries.erase c.rules name ++ [(name, rule)], c.files⟩

def remove (c : Collection) (name : String) : Collection := ⟨Entries.erase c.rules name, c.files⟩

def removeAll (c : Collection) (names : List String) : Collection := names.foldl remove c

def modify (c : Collection) (name : String) (f : Rule → Rule) : Collection :=
  ⟨c.rules.map fun e => if e.1 = name then (e.1, f e.2) else e, c.files⟩

def mapRules (f : Rule → Rule) (c : Collection) : Collection :=
  ⟨Entries.mapValues f c.rules, c.files⟩

def addTag (c : Collection) (tag : String) (attributes : Attributes) : Collection :=
  c.mapRules fun r => r.addTag tag attributes

def addTags (c : Collection) (tags : List (String × Attributes)) : Collection :=
  tags.foldl (fun acc t => acc.addTag t.1 t.2) c

def clearTag (c : Collection) (tag : String) : Collection := c.mapRules fun r => r.clearTag tag

def clearTags (c : Collection) : Collection := c.mapRules Rule.clearTags

/-- Adds the rules and the files of another collection at the end. -/
def merge (c other : Collection) : Collection :=
  let moved := other.rules.foldl (fun acc e => acc.add e.1 e.2) c
  ⟨moved.rules, moved.files ++ other.files⟩

def addFile (c : Collection) (file : Path) : Collection := ⟨c.rules, c.files ++ [file]⟩

/-- Keeps the first of the paths that are the same. -/
def distinct (files : List Path) : List Path :=
  files.foldl (fun seen p => if seen.any (Path.same p) then seen else seen ++ [p]) []

def resources (c : Collection) : List Path := distinct c.files

/-- A new collection of the rules with a tag, added in their order. -/
def tagged (c : Collection) (tag : String) : Collection :=
  c.rules.foldl (fun acc e => if e.2.hasTag tag then acc.add e.1 e.2 else acc) empty

def text (c : Collection) : String :=
  "RuleCollection(" ++ toString c.size ++ " rules, " ++ toString c.resources.length ++ " resources)"

/-- Equality of the rules, whatever their order, and of the lists of files. -/
def same (c other : Collection) : Bool :=
  Entries.sameBy Rule.same c.rules other.rules &&
    c.files.length == other.files.length && (c.files.zip other.files).all fun p => p.1.same p.2

end Collection

end RuleRegistry
