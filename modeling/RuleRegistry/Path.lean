/-!
File paths as they are written. A path keeps its text; two paths are the same when their components
are, so doubled slashes, inner single dots and a slash at the end do not count.
-/

namespace RuleRegistry

structure Path where
  text : String
deriving DecidableEq, Inhabited

namespace Path

inductive Component where
  | root
  | here
  | up
  | name (s : List Char)
deriving DecidableEq

def piecesOf : List Char → List (List Char)
  | [] => [[]]
  | c :: rest =>
    if c = '/' then [] :: piecesOf rest
    else match piecesOf rest with
      | [] => [[c]]
      | first :: others => (c :: first) :: others

def pieces (p : Path) : List (List Char) := piecesOf p.text.toList

def isAbsolute (p : Path) : Bool := p.text.toList.head? == some '/'

def isEmpty (p : Path) : Bool := p.text == ""

/-- A piece as a component; the empty piece and the single dot are none. -/
def component? (piece : List Char) : Option Component :=
  if piece = [] ∨ piece = ['.'] then none
  else if piece = ['.', '.'] then some .up
  else some (.name piece)

/-- The components. A single dot counts only as the first piece of a relative path. -/
def components (p : Path) : List Component :=
  let inner := p.pieces.filterMap component?
  if p.isAbsolute then .root :: inner
  else if p.pieces.head? == some ['.'] then .here :: inner
  else inner

def same (p q : Path) : Bool := p.components == q.components

def join (dir : Path) (p : Path) : Path :=
  if p.isAbsolute || dir.isEmpty then p
  else if dir.text.toList.getLast? == some '/' then ⟨dir.text ++ p.text⟩
  else ⟨dir.text ++ "/" ++ p.text⟩

/-- The path with a text added to its last piece. -/
def addText (p : Path) (s : String) : Path := ⟨p.text ++ s⟩

def joinPieces : List (List Char) → List Char
  | [] => []
  | [piece] => piece
  | piece :: rest => piece ++ '/' :: joinPieces rest

def dropIdle (reversed : List (List Char)) : List (List Char) :=
  reversed.dropWhile fun piece => (component? piece).isNone

/-- The path without its last component; none for the empty path and the root. -/
def parent? (p : Path) : Option Path :=
  let front : List Char :=
    if p.isAbsolute then ['/'] else if p.pieces.head? == some ['.'] then ['.'] else []
  let body := if p.isAbsolute || front == ['.'] then p.pieces.drop 1 else p.pieces
  match dropIdle body.reverse with
  | [] => if front == ['.'] then some ⟨""⟩ else none
  | _ :: rest =>
    match (dropIdle rest).reverse with
    | [] => some ⟨String.ofList front⟩
    | kept =>
      let inner := joinPieces kept
      some ⟨String.ofList (if front == ['.'] then '.' :: '/' :: inner else front ++ inner)⟩

def fileName? (p : Path) : Option (List Char) :=
  match p.components.getLast? with
  | some (.name s) => some s
  | _ => none

/-- What follows the last dot of the file name, unless the name has its only dot in front. -/
def extension? (p : Path) : Option String :=
  p.fileName?.bind fun name =>
    let tail := (name.reverse.takeWhile (· ≠ '.')).reverse
    if tail.length + 1 < name.length then some (String.ofList tail) else none

end Path

end RuleRegistry
