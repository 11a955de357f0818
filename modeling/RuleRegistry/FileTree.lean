import RuleRegistry.Bytes
import RuleRegistry.Path

/-!
A tree of files and folders with a current folder. Paths are followed piece by piece: every piece but
the last must lead to a folder, and so must the last one if a slash follows it.
-/

namespace RuleRegistry

/-- The names from the root down to a file or folder. -/
abbrev Location := List (List Char)

def Location.path (l : Location) : Path := ⟨String.ofList ('/' :: Path.joinPieces l)⟩

structure Moment where
  seconds : Nat
  nanoseconds : Nat
deriving DecidableEq, Inhabited

structure File where
  content : Bytes
  /-- Since the epoch; a file from before it has no such time. -/
  modified : Option Moment
deriving DecidableEq, Inhabited

structure FileTree where
  current : Location
  files : List (Location × File) := []
  folders : List Location := []
  /-- The second in which the next file is written. -/
  clock : Nat := 0

namespace FileTree

def fileAt? (t : FileTree) (l : Location) : Option File := t.files.lookup l

/-- The current folder and those above it are always there. -/
def isFolder (t : FileTree) (l : Location) : Bool := l.isPrefixOf t.current || t.folders.contains l

def start (t : FileTree) (p : Path) : Location := if p.isAbsolute then [] else t.current

def isIdle (piece : List Char) : Bool := piece == [] || piece == ['.']

def isUp (piece : List Char) : Bool := piece == ['.', '.']

def maxPath : Nat := 4095

def maxName : Nat := 255

def isName (piece : List Char) : Bool :=
  !piece.contains '\x00' && (String.ofList piece).utf8ByteSize ≤ maxName

def isUsable (p : Path) : Bool :=
  !p.isEmpty && !p.text.toList.contains '\x00' && p.text.utf8ByteSize ≤ maxPath

/-- Where pieces lead from a place. -/
def walk (t : FileTree) : Location → List (List Char) → Option Location
  | here, [] => some here
  | here, piece :: rest =>
    if !t.isFolder here then none
    else if isIdle piece then walk t here rest
    else if isUp piece then walk t here.dropLast rest
    else
      let next := here ++ [piece]
      if t.isFolder next || (t.fileAt? next).isSome then walk t next rest else none

def find? (t : FileTree) (p : Path) : Option Location :=
  if isUsable p then t.walk (t.start p) p.pieces else none

def file? (t : FileTree) (p : Path) : Option File := (t.find? p).bind t.fileAt?

def isFile (t : FileTree) (p : Path) : Bool := (t.file? p).isSome

def read? (t : FileTree) (p : Path) : Option Bytes := (t.file? p).map File.content

def canonical? (t : FileTree) (p : Path) : Option Path := (t.find? p).map Location.path

/-- Makes the folders on a way that are not there, up to the first that cannot be made. Tells whether
the way leads to a folder then. A file on the way is in the way. -/
def makeFolders (t : FileTree) : Location → List (List Char) → Bool × FileTree
  | _, [] => (true, t)
  | here, piece :: rest =>
    if isIdle piece then makeFolders t here rest
    else if isUp piece then makeFolders t here.dropLast rest
    else
      let next := here ++ [piece]
      if t.isFolder next then makeFolders t next rest
      else if (t.fileAt? next).isSome || !isName piece then (false, t)
      else makeFolders { t with folders := t.folders ++ [next] } next rest

def createFolder (t : FileTree) (p : Path) : Bool × FileTree :=
  if isUsable p then t.makeFolders (t.start p) p.pieces else (false, t)

/-- The place of a file to be written: a name in a folder, where no folder may be. -/
def target? (t : FileTree) (p : Path) : Option Location :=
  match p.pieces.reverse with
  | name :: front =>
    if isIdle name || isUp name || !isName name || !isUsable p then none
    else (t.walk (t.start p) front.reverse).bind fun folder =>
      let l := folder ++ [name]
      if t.isFolder folder && !t.isFolder l then some l else none
  | [] => none

def put (t : FileTree) (l : Location) (f : File) : FileTree :=
  { t with files := t.files.filter (fun e => e.1 != l) ++ [(l, f)] }

def write? (t : FileTree) (p : Path) (content : Bytes) (modified : Option Moment) :
    Option FileTree :=
  (t.target? p).map fun l => t.put l ⟨content, modified⟩

def writeNow? (t : FileTree) (p : Path) (content : Bytes) : Option FileTree :=
  (t.write? p content (some ⟨t.clock, 0⟩)).map fun t => { t with clock := t.clock + 1 }

/-- Removes a file, or a folder with everything in it. -/
def remove (t : FileTree) (p : Path) : FileTree :=
  match t.find? p with
  | none => t
  | some l => { t with
      files := t.files.filter fun e => !l.isPrefixOf e.1
      folders := t.folders.filter fun f => !l.isPrefixOf f }

end FileTree

end RuleRegistry
