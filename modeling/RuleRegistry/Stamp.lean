import RuleRegistry.Artifact.Wire
import RuleRegistry.Digest.Blake3
import RuleRegistry.FileTree

namespace RuleRegistry

structure Stamp where
  path : Path
  modified : Option Moment
  length : Nat
  digest : Bytes
deriving DecidableEq

namespace Stamp

def take? (t : FileTree) (path : Path) : Option Stamp :=
  (t.file? path).map fun f =>
    ⟨path, f.modified, f.content.length, Blake3.digest f.content⟩

def isFresh (s : Stamp) (t : FileTree) (verify : Bool) : Bool :=
  match take? t s.path with
  | none => false
  | some now =>
    now.modified == s.modified && now.length == s.length && (!verify || now.digest == s.digest)

open Wire

def encodeModified : Option Moment → Bytes
  | none => [0]
  | some m => 1 :: encodeCount m.seconds ++ encodeCount m.nanoseconds

def decodeModified : Bytes → Option (Option Moment × Bytes)
  | 0 :: rest => some (none, rest)
  | 1 :: rest =>
    (decodePair (decodeCount 8) (decodeCount 4) rest).map fun p => (some ⟨p.1.1, p.1.2⟩, p.2)
  | _ => none

def encode (s : Stamp) : Bytes :=
  encodeText s.path.text ++ encodeModified s.modified ++ encodeCount s.length ++ s.digest

def decode (bytes : Bytes) : Option (Stamp × Bytes) :=
  (decodePair decodeText (decodePair decodeModified (decodePair (decodeCount 8) (Wire.take? 32))) bytes).map
    fun p => (⟨⟨p.1.1⟩, p.1.2.1, p.1.2.2.1, p.1.2.2.2⟩, p.2)

end Stamp

end RuleRegistry
