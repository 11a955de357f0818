import RuleRegistry.Stamp

namespace RuleRegistry

inductive CacheError where
  | inaccessible (path : Path)
deriving DecidableEq

def CacheError.message : CacheError → String
  | inaccessible path => "cache I/O error on \"" ++ path.text ++ "\""

structure ArtifactCache where
  path : Path
  /-- Whether contents are compared too. -/
  verify : Bool := false

namespace ArtifactCache

def recordPath (c : ArtifactCache) : Path := c.path.addText ".meta"

/-- The stamps in the record; what follows them is not looked at. -/
def stamps? (c : ArtifactCache) (t : FileTree) : Option (List Stamp) :=
  (t.read? c.recordPath).bind fun bytes => (Wire.decodeRun Stamp.decode bytes).map Prod.fst

def isFresh (c : ArtifactCache) (t : FileTree) : Bool :=
  t.isFile c.path &&
    match c.stamps? t with
    | some stamps => stamps.all fun s => s.isFresh t c.verify
    | none => false

def read (c : ArtifactCache) (t : FileTree) : Except CacheError Bytes :=
  match t.read? c.path with
  | some bytes => .ok bytes
  | none => .error (.inaccessible c.path)

/-- Stamps in the order of the files, up to the first file that cannot be read. -/
def stampAll (t : FileTree) (files : List Path) : Except CacheError (List Stamp) :=
  files.mapM fun p =>
    match Stamp.take? t p with
    | some s => .ok s
    | none => .error (.inaccessible p)

def folderOf (p : Path) : Path :=
  match p.parent? with
  | some dir => if dir.isEmpty then ⟨"."⟩ else dir
  | none => ⟨"."⟩

/-- Writes a file as a whole, and makes its folder if need be. What was done before a failure
stays. -/
def replace (t : FileTree) (p : Path) (content : Bytes) : Except CacheError Unit × FileTree :=
  match t.createFolder (folderOf p) with
  | (false, t) => (.error (.inaccessible (folderOf p)), t)
  | (true, t) =>
    match t.writeNow? p content with
    | none => (.error (.inaccessible p), t)
    | some t => (.ok (), t)

/-- Writes the artifact and the record of the given files. Nothing is written when one of them cannot
be read. -/
def write (c : ArtifactCache) (t : FileTree) (content : Bytes) (files : List Path) :
    Except CacheError Unit × FileTree :=
  match stampAll t files with
  | .error e => (.error e, t)
  | .ok stamps =>
    match replace t c.path content with
    | (.error e, t) => (.error e, t)
    | (.ok (), t) => replace t c.recordPath (Wire.encodeRun Stamp.encode stamps)

end ArtifactCache

end RuleRegistry
