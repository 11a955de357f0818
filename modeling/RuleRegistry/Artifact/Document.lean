import RuleRegistry.Artifact.Basic
import RuleRegistry.Bytes
import RuleRegistry.Yaml.Reading
import RuleRegistry.Yaml.Writer

namespace RuleRegistry.Artifact

open Yaml

def banner : String := "# Generated by rulebook from the rule sources; do not edit.\n"

def tagsValue (tags : Tags) : Value :=
  .map (Entries.mapValues (fun instances => .list (instances.map .map)) tags)

/-- A rule as a table. Tags are left out when there are none. -/
def declarationValue (d : Declaration) : Value :=
  .map (("expression", .string d.expression) ::
    if d.tags.isEmpty then [] else [("tags", tagsValue d.tags)])

def documentFields (a : Archive) : List (String × Value) :=
  [("class", .string a.names.className), ("base_class", .string a.names.baseName),
    ("rules", .map (Entries.mapValues declarationValue a.declared))]

def writeDocument (c : Collection) (names : ArtifactNames) : String :=
  banner ++ Writer.document (documentFields (.ofCollection c names))

/-- The collections around the value of an attribute. -/
def attributeDepth : Nat := 6

def readAttributes (a : Anchors) (n : Node Nat) : Reading Attributes :=
  Reading.table a (Reading.value a attributeDepth) n

def readTags (a : Anchors) (n : Node Nat) : Reading Tags :=
  Reading.table a (fun n => do (← Reading.items a n).mapM (readAttributes a)) n

/-- A rule; parts with unknown names are passed over. -/
def readDeclaration (a : Anchors) (n : Node Nat) : Reading Declaration := do
  let parts ← Reading.record a false ["expression", "tags"] n
  let expression ← Reading.part parts "expression" (Reading.text a) failure
  let tags ← Reading.part parts "tags" (readTags a) (pure [])
  return ⟨expression, tags⟩

def readArchive (a : Anchors) (n : Node Nat) : Reading Archive := do
  let parts ← Reading.record a true ["class", "base_class", "rules"] n
  let className ← Reading.part parts "class" (Reading.text a) failure
  let baseName ← Reading.part parts "base_class" (Reading.text a) failure
  let declared ← Reading.part parts "rules" (Reading.table a (readDeclaration a)) (pure [])
  return ⟨⟨className, baseName⟩, declared⟩

def readDocument (bytes : Bytes) : Except ArtifactError Archive :=
  match (Bytes.text? bytes).bind fun text =>
      (document? text.toList).bind fun d => Reading.run? d readArchive with
  | none => .error .malformedDocument
  | some a => if a.names.className = "" then .error .emptyClassName else a.checked

end RuleRegistry.Artifact
