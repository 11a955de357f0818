import RuleRegistry.Bytes

/-!
Tags of nodes. A tag is a string of bytes, for its escapes may stand for bytes that are no text; a
zero byte ends each of its parts. A tag is local when it begins with `!`, and all others are global.
The global tags of the core say which kind of scalar a scalar has to be.
-/

namespace RuleRegistry.Yaml

structure Tag where
  bytes : Bytes
deriving DecidableEq, Inhabited

namespace Tag

def mark : UInt8 := 0x21

/-- A part of a tag up to its first zero byte. -/
def clip (part : Bytes) : Bytes := part.takeWhile (· ≠ 0)

def coreStart : Bytes := Bytes.ofText "tag:yaml.org,2002:"

def core (name : String) : Tag := ⟨coreStart ++ Bytes.ofText name⟩

def isLocal (t : Tag) : Bool := t.bytes.head? == some mark

/-- The name of a local tag: what follows its mark, or the mark if nothing does. A name that is no
text is none. -/
def localName? (t : Tag) : Option String :=
  match t.bytes with
  | [] => none
  | first :: rest =>
    if first ≠ mark then none else if rest = [] then some "!" else Bytes.text? rest

/-- A name without a mark in front, unless it is nothing else. Names that are the same without their
marks are of the same tag. -/
def withoutMark (name : String) : String :=
  match name.toList with
  | '!' :: c :: rest => String.ofList (c :: rest)
  | _ => name

end Tag

end RuleRegistry.Yaml
