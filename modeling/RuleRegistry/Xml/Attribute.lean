import RuleRegistry.Xml.Entity
import RuleRegistry.Xml.Event

namespace RuleRegistry.Xml

/-- The attributes as written; the given names have come before. -/
def rawAttributes : Nat → List (List Char) → List Char → Option (List (List Char × List Char))
  | 0, _, _ => none
  | fuel + 1, seen, body =>
    match body.dropWhile isSpace with
    | [] => some []
    | c :: rest =>
      let inName (c : Char) : Bool := c != '=' && !isSpace c
      let name := c :: rest.takeWhile inName
      match (rest.dropWhile inName).dropWhile isSpace with
      | '=' :: rest =>
        if name ∈ seen then none
        else match rest.dropWhile isSpace with
          | quote :: rest =>
            if quote ≠ '\'' ∧ quote ≠ '"' then none
            else match rest.dropWhile (· ≠ quote) with
              | _ :: after =>
                (rawAttributes fuel (name :: seen) after).map fun others =>
                  (name, rest.takeWhile (· ≠ quote)) :: others
              | [] => none
          | [] => none
      | _ => none

def localName (name : List Char) : List Char :=
  match name.dropWhile (· ≠ ':') with
  | _ :: rest => rest
  | [] => name

def declaresSpace (name : List Char) : Bool :=
  name == "xmlns".toList || "xmlns:".toList.isPrefixOf name

def Tag.localName (t : Tag) : String := String.ofList (Xml.localName t.name)

def Tag.attributes? (t : Tag) : Option (List (String × String)) :=
  (rawAttributes (t.body.length + 1) [] t.body).bind fun raw =>
    (raw.filter fun a => !declaresSpace a.1).mapM fun a =>
      (unescape a.2).map fun v => (String.ofList (Xml.localName a.1), String.ofList v)

end RuleRegistry.Xml
