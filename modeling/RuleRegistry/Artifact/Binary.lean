import RuleRegistry.Artifact.Basic
import RuleRegistry.Artifact.Wire
import RuleRegistry.Digest.Blake3

/-!
Binary artifacts: a header of 32 bytes and a payload. The header holds a magic number, the version
of the format, which must match, the version of the engine and flags, which are not looked at, the
length of the payload and the first half of its digest.
-/

namespace RuleRegistry.Artifact

open Wire

/-- The tags of a rule in the order written. -/
abbrev WrittenTags := List (String × List (List (String × Value)))

/-- A rule in a payload. Nothing keeps its tag names apart. -/
structure WrittenRule where
  name : String
  expression : String
  tags : WrittenTags

/-- What a payload holds. Nothing keeps its rule names apart or its count right. -/
structure Payload where
  names : ArtifactNames
  count : Nat
  rules : List WrittenRule

def encodeAttributes (attributes : Attributes) : Bytes :=
  encodeRun (fun e : String × Value => encodeText e.1 ++ encodeValue e.2) attributes

def encodeTag (tag : String × List Attributes) : Bytes :=
  encodeText tag.1 ++ encodeRun encodeAttributes tag.2

def encodeRule (r : WrittenRule) : Bytes :=
  encodeText r.name ++ encodeText r.expression ++ encodeRun encodeTag r.tags

def encodePayload (p : Payload) : Bytes :=
  encodeText p.names.className ++ encodeText p.names.baseName ++ encodeCount p.count ++
    encodeRun encodeRule p.rules

/-- Attributes as they stand, with values nested no deeper than the bytes allow. -/
def decodeAttributes (bytes : Bytes) : Option (List (String × Value) × Bytes) :=
  decodeRun (decodePair decodeText fun rest => decodeValue rest.length rest) bytes

def decodeTag (bytes : Bytes) : Option ((String × List (List (String × Value))) × Bytes) :=
  decodePair decodeText (decodeRun decodeAttributes) bytes

def decodeRule (bytes : Bytes) : Option (WrittenRule × Bytes) :=
  (decodePair decodeText (decodePair decodeText (decodeRun decodeTag)) bytes).map fun p =>
    (⟨p.1.1, p.1.2.1, p.1.2.2⟩, p.2)

def decodePayload (bytes : Bytes) : Option (Payload × Bytes) :=
  (decodePair (decodePair decodeText decodeText) (decodePair (decodeCount 8) (decodeRun decodeRule))
      bytes).map fun p => (⟨⟨p.1.1.1, p.1.1.2⟩, p.1.2.1, p.1.2.2⟩, p.2)

namespace Payload

def ofArchive (a : Archive) : Payload :=
  ⟨a.names, a.declared.length,
    a.declared.map fun e => ⟨e.1, e.2.expression, e.2.tags⟩⟩

/-- The first thing of a list that comes again later in the reading of it. -/
def firstRepeat : List String → List String → Option String
  | _, [] => none
  | seen, x :: rest => if x ∈ seen then some x else firstRepeat (seen ++ [x]) rest

/-- Rule by rule: a name that came before, then a tag name that comes twice. -/
def checkRules : List String → List WrittenRule → Except ArtifactError Unit
  | _, [] => .ok ()
  | seen, r :: rest =>
    if r.name ∈ seen then .error (.ruleDeclaredTwice r.name)
    else match firstRepeat [] (r.tags.map Prod.fst) with
      | some tag => .error (.tagDeclaredTwice tag r.name)
      | none => checkRules (seen ++ [r.name]) rest

def check (p : Payload) : Except ArtifactError Unit :=
  if p.count ≠ p.rules.length then .error (.ruleCountMismatch p.count p.rules.length)
  else if p.names.className = "" then .error .emptyClassName
  else checkRules [] p.rules

def declaration (r : WrittenRule) : Declaration :=
  ⟨r.expression, Entries.ofPairs (r.tags.map fun t => (t.1, t.2.map Entries.ofPairs))⟩

def archive (p : Payload) : Archive :=
  ⟨p.names, Entries.ofPairs (p.rules.map fun r => (r.name, declaration r))⟩

end Payload

def magic : Bytes := [0x52, 0x4C, 0x42, 0x4B]

def engineVersion : Nat := 1

def headerSize : Nat := 32

def checksum (payload : Bytes) : Bytes := (Blake3.digest payload).take 16

def header (payload : Bytes) : Bytes :=
  magic ++ leBytes 2 formatVersion ++ leBytes 2 engineVersion ++ leBytes 4 0 ++
    leBytes 4 payload.length ++ checksum payload

def slice (bytes : Bytes) (start length : Nat) : Bytes := (bytes.drop start).take length

def writeBinary (c : Collection) (names : ArtifactNames) : Except ArtifactError Bytes :=
  let payload := encodePayload (.ofArchive (.ofCollection c names))
  if payload.length < 0x100000000 then .ok (header payload ++ payload)
  else .error (.tooLarge payload.length)

def payload? (bytes : Bytes) : Except ArtifactError Bytes :=
  let payload := bytes.drop headerSize
  let version := leValue (slice bytes 4 2)
  let stated := leValue (slice bytes 12 4)
  if bytes.length < headerSize then .error (.lengthMismatch headerSize bytes.length)
  else if slice bytes 0 4 ≠ magic then .error .badMagic
  else if version ≠ formatVersion then .error (.incompatibleVersion version)
  else if payload.length ≠ stated then .error (.lengthMismatch stated payload.length)
  else if checksum payload ≠ slice bytes 16 16 then .error .checksumMismatch
  else .ok payload

/-- The contents of a binary artifact. Bytes behind the payload's data are not looked at. -/
def readBinary (bytes : Bytes) : Except ArtifactError Archive :=
  (payload? bytes).bind fun payload =>
    match decodePayload payload with
    | none => .error .undecodable
    | some (p, _) => p.check.bind fun _ => p.archive.checked

end RuleRegistry.Artifact
