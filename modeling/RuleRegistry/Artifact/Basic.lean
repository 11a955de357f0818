import RuleRegistry.Collection

namespace RuleRegistry

inductive ArtifactKind where
  | binary
  | yaml
deriving DecidableEq, Inhabited

namespace ArtifactKind

def name : ArtifactKind → String
  | binary => "binary"
  | yaml => "yaml"

def extension : ArtifactKind → String
  | binary => "bin"
  | yaml => "yml"

def ofName? (s : String) : Option ArtifactKind :=
  if s = "binary" then some binary else if s = "yaml" then some yaml else none

end ArtifactKind

inductive ArtifactError where
  | badMagic
  | incompatibleVersion (version : Nat)
  | checksumMismatch
  | lengthMismatch (expected actual : Nat)
  | ruleCountMismatch (stated found : Nat)
  | emptyClassName
  | ruleDeclaredTwice (rule : String)
  | tagDeclaredTwice (tag rule : String)
  | emptyExpression (rule : String)
  | tooLarge (size : Nat)
  | undecodable
  | malformedDocument
  | unknownKind (name : String)
deriving DecidableEq

def formatVersion : Nat := 1

namespace ArtifactError

/-- What validation found, if it is validation that failed. -/
def validation? : ArtifactError → Option String
  | ruleCountMismatch stated found =>
    some ("metadata says " ++ toString stated ++ " rules but payload has " ++ toString found)
  | emptyClassName => some "empty class name"
  | ruleDeclaredTwice rule => some ("rule \"" ++ rule ++ "\" declared twice")
  | tagDeclaredTwice tag rule =>
    some ("tag \"" ++ tag ++ "\" declared twice on rule \"" ++ rule ++ "\"")
  | emptyExpression rule => some ("rule \"" ++ rule ++ "\" has an empty expression")
  | tooLarge size => some ("payload of " ++ toString size ++ " bytes exceeds 4 GiB")
  | _ => none

def message (e : ArtifactError) : String :=
  match e.validation? with
  | some text => "validation failed: " ++ text
  | none =>
    match e with
    | badMagic => "not a rulebook artifact: invalid magic bytes"
    | incompatibleVersion version =>
      "incompatible format version: artifact is v" ++ toString version ++
        ", this build supports v" ++ toString formatVersion
    | checksumMismatch => "integrity check failed: BLAKE3 checksum mismatch"
    | lengthMismatch expected actual =>
      "payload length mismatch: expected " ++ toString expected ++ " bytes, got " ++
        toString actual
    | malformedDocument => "invalid artifact document"
    | unknownKind name => "unknown dumper \"" ++ name ++ "\"; expected \"binary\" or \"yaml\""
    | _ => "invalid artifact payload"

end ArtifactError

structure ArtifactNames where
  className : String := "ProjectRuleCollection"
  baseName : String := "RuleCollection"
deriving DecidableEq, Inhabited

/-- A rule as an artifact declares it; its expression may be blank and a tag may have no
instance. -/
structure Declaration where
  expression : String
  tags : Tags := []
deriving Inhabited

structure Archive where
  names : ArtifactNames
  declared : Entries Declaration
deriving Inhabited

namespace Archive

def ofCollection (c : Collection) (names : ArtifactNames) : Archive :=
  ⟨names, Entries.mapValues (fun r => ⟨r.expression, r.tags⟩) c.rules⟩

def size (a : Archive) : Nat := a.declared.length

/-- The contents, unless a declared expression is blank. -/
def checked (a : Archive) : Except ArtifactError Archive :=
  match List.find? (fun e => Text.isBlank e.2.expression) a.declared with
  | some e => .error (.emptyExpression e.1)
  | none => .ok a

def buildRule (d : Declaration) : Except RuleError Rule :=
  (Rule.new d.expression).map fun r =>
    d.tags.foldl (fun r t => t.2.foldl (fun r attributes => r.addTag t.1 attributes) r) r

def buildFrom (c : Collection) : Entries Declaration → Except RuleError Collection
  | [] => .ok c
  | (name, d) :: rest => (buildRule d).bind fun r => buildFrom (c.add name r) rest

def build (a : Archive) : Except RuleError Collection := buildFrom .empty a.declared

def Declaration.same (d other : Declaration) : Bool :=
  d.expression == other.expression && Tags.same d.tags other.tags

/-- Equality, whatever the order of rules, tag names and attribute names. -/
def same (a other : Archive) : Bool :=
  a.names == other.names && Entries.sameBy Declaration.same a.declared other.declared

end Archive

end RuleRegistry
