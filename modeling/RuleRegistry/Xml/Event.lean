/-!
XML text as its tags. Comments, character data, instructions, document types and text between tags
are passed over. An end tag closes the last element that is open and must have its name; elements
may still be open at the end of the text.
-/

namespace RuleRegistry.Xml

/-- A start tag: the name and what stands between the name and the end of the tag. -/
structure Tag where
  name : List Char
  body : List Char
deriving DecidableEq, Inhabited

inductive Event where
  | element (tag : Tag) (empty : Bool)
  | closing
  | fault
deriving DecidableEq, Inhabited

def isSpace (c : Char) : Bool := c == ' ' || c == '\t' || c == '\n' || c == '\r'

def after? (mark : List Char) : List Char → Option (List Char)
  | [] => none
  | c :: rest => if mark.isPrefixOf (c :: rest) then some ((c :: rest).drop mark.length) else after? mark rest

/-- The text of a tag up to its end, which stands outside of quotes, and what follows. -/
def tagText? : Option Char → List Char → Option (List Char × List Char)
  | _, [] => none
  | none, c :: rest =>
    if c = '>' then some ([], rest)
    else
      (tagText? (if c = '\'' ∨ c = '"' then some c else none) rest).map fun p => (c :: p.1, p.2)
  | some quote, c :: rest =>
    (tagText? (if c = quote then none else some quote) rest).map fun p => (c :: p.1, p.2)

/-- The text up to the `>` that has as many `<` as `>` before it, and what follows. -/
def balanced? : Nat → List Char → Option (List Char × List Char)
  | _, [] => none
  | depth, c :: rest =>
    if c = '>' ∧ depth = 0 then some ([], rest)
    else
      let depth := if c = '<' then depth + 1 else if c = '>' then depth - 1 else depth
      (balanced? depth rest).map fun p => (c :: p.1, p.2)

def afterDoctype? (rest : List Char) : Option (List Char) :=
  (balanced? 0 rest).bind fun (text, rest) =>
    let word := "DOCTYPE".toList
    if (text.take word.length).map Char.toUpper = word ∧ (text.drop word.length).any (!isSpace ·) then
      some rest
    else none

inductive Markup where
  | passing
  | endTag (name : List Char)
  | startTag (text : List Char)

/-- The name in an end tag, without space at its end unless there is nothing else. -/
def endName (text : List Char) : List Char :=
  let name := (text.reverse.dropWhile isSpace).reverse
  if name = [] then text else name

def markup? (text : List Char) : Option (Markup × List Char) :=
  let passing (rest : Option (List Char)) : Option (Markup × List Char) :=
    rest.map fun rest => (.passing, rest)
  match text with
  | [] => none
  | '!' :: '-' :: '-' :: rest => passing (after? "-->".toList rest)
  | '!' :: '[' :: 'C' :: 'D' :: 'A' :: 'T' :: 'A' :: '[' :: rest => passing (after? "]]>".toList rest)
  | '!' :: rest => passing (afterDoctype? rest)
  | '?' :: '>' :: _ => none
  | '?' :: rest => passing (after? "?>".toList rest)
  | '/' :: rest => (tagText? none rest).map fun (name, rest) => (.endTag (endName name), rest)
  | rest => (tagText? none rest).map fun (text, rest) => (.startTag text, rest)

def Tag.ofText (text : List Char) : Tag :=
  ⟨text.takeWhile (!isSpace ·), text.dropWhile (!isSpace ·)⟩

def eventsFrom : Nat → List (List Char) → List Char → List Event
  | 0, _, _ => [.fault]
  | fuel + 1, opened, text =>
    match text.dropWhile (· ≠ '<') with
    | [] => []
    | _ :: rest =>
      match markup? rest with
      | none => [.fault]
      | some (.passing, rest) => eventsFrom fuel opened rest
      | some (.endTag name, rest) =>
        match opened with
        | last :: others => if name = last then .closing :: eventsFrom fuel others rest else [.fault]
        | [] => [.fault]
      | some (.startTag text, rest) =>
        if text.getLast? = some '/' then
          .element (.ofText text.dropLast) true :: eventsFrom fuel opened rest
        else
          let tag := Tag.ofText text
          .element tag false :: eventsFrom fuel (tag.name :: opened) rest

def events (text : String) : List Event := eventsFrom (text.length + 1) [] text.toList

end RuleRegistry.Xml
