import RuleRegistry.Settings
import RuleRegistry.Yaml.Reading

namespace RuleRegistry.Settings

open Yaml

def readOptionalText (a : Anchors) (n : Node Nat) : Reading (Option String) := do
  match ← Reading.follow a n with
  | .scalar props .plain s =>
    if props.tag = none then return if s = "" ∨ Atom.isNull s then none else some s
    else if props.tag = some (.core "null") then
      if Atom.isNull s then return none else failure
    else return some s
  | .scalar _ _ s => return some s
  | _ => failure

/-- A plain Boolean, or a literal one with the tag of Booleans. -/
def readFlag (a : Anchors) (n : Node Nat) : Reading Bool := do
  match ← Reading.follow a n with
  | .scalar props style s =>
    if style = .plain ∨ (style = .literal ∧ props.tag = some (.core "bool")) then
      StateT.lift (Atom.bool? s)
    else failure
  | _ => failure

/-- The name of a format as a text, or as a tag on nothing. -/
def readKind (a : Anchors) (n : Node Nat) : Reading ArtifactKind := do
  match ← Reading.follow a n with
  | .scalar props style s =>
    match props.tag.bind Tag.localName? with
    | none => StateT.lift (ArtifactKind.ofName? s)
    | some name =>
      if style = .plain ∧ (s = "" ∨ Atom.isNull s) then StateT.lift (ArtifactKind.ofName? name)
      else failure
  | _ => failure

def readSettings (a : Anchors) (n : Node Nat) : Reading Settings := do
  let parts ← Reading.record a true (keys.map Key.name) n
  let default : Settings := {}
  let part {α : Type} (key : Key) (read : Anchors → Node Nat → Reading α) (missing : α) : Reading α :=
    Reading.part parts key.name (read a) (pure missing)
  return {
    cacheDir := ← part .cacheDir readOptionalText default.cacheDir
    debug := ← part .debug readFlag default.debug
    artifactKind := ← part .artifactKind readKind default.artifactKind
    cacheClass := ← part .cacheClass readOptionalText default.cacheClass
    resourceType := ← part .resourceType readOptionalText default.resourceType }

def ofYaml (text : String) : Except SettingError Settings :=
  match (document? text.toList).bind fun d => Reading.run? d readSettings with
  | some o => .ok o
  | none => .error .malformed

end RuleRegistry.Settings
