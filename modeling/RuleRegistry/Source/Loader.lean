import RuleRegistry.FileTree
import RuleRegistry.Source.XmlRules
import RuleRegistry.Source.YamlRules

namespace RuleRegistry.Source

namespace Format

def name : Format → String
  | yaml => "yaml"
  | xml => "xml"

def extensions : Format → List String
  | yaml => ["yml", "yaml"]
  | xml => ["xml"]

/-- A format goes by the extension of a resource and by its type if one is stated. -/
def supports (f : Format) (resource : String) (kind : Option String) : Bool :=
  (((Path.mk resource).extension?).map f.extensions.contains).getD false &&
    (kind.map (· == f.name)).getD true

def read (f : Format) (path : Path) (text : String) : Definitions :=
  match f with
  | yaml => YamlRules.read path text
  | xml => XmlRules.read path text

end Format

structure Loader where
  search : List Path := [⟨""⟩]
  /-- The formats in the order in which they are tried. -/
  formats : List Format := [.yaml, .xml]

namespace Loader

def format? (l : Loader) (resource : String) (kind : Option String) : Option Format :=
  l.formats.find? fun f => f.supports resource kind

def supports (l : Loader) (resource : String) (kind : Option String) : Bool :=
  (l.format? resource kind).isSome

/-- The file that a name stands for. A relative name is tried in the current folder, if one is
given, and in the search folders. -/
def locate (l : Loader) (t : FileTree) (name : String) (folder : Option Path) :
    Except Error Path :=
  if name = "" then .error (.notFound name [])
  else
    let p : Path := ⟨name⟩
    let candidates := if p.isAbsolute then [p] else (folder.toList ++ l.search).map fun dir => dir.join p
    match candidates.find? t.isFile with
    | some found => .ok found
    | none => .error (.notFound name candidates)

/-- The folder of a file, unless it is the current one. -/
def folderOf (file : Path) : Option Path := file.parent?.filter fun p => !p.isEmpty

def textOf (t : FileTree) (file : Path) : Except Error String :=
  match (t.read? file).bind Bytes.text? with
  | some text => .ok text
  | none => .error (.unreadable file)

def addDefinition (load : String → Option String → Except Error Collection) (c : Collection) :
    Definition → Except Error Collection
  | .rule name rule => .ok (c.add name rule)
  | .reference resource kind tags =>
    (load resource kind).map fun imported => c.merge (imported.addTags tags)

def addDefinitions (load : String → Option String → Except Error Collection) (c : Collection)
    (ds : Definitions) : Except Error Collection :=
  (ds.found.foldlM (addDefinition load) c).bind fun c =>
    match ds.error with
    | some e => .error e
    | none => .ok c

def loadBelow (l : Loader) (t : FileTree) :
    Nat → List Path → String → Option String → Option Path → Except Error Collection
  | 0, stack, _, _, _ => .error (.circular stack)
  | fuel + 1, stack, resource, kind, folder => do
    let file ← l.locate t resource folder
    let some format := l.format? resource kind | .error (.unsupported resource kind)
    let some canonical := t.canonical? file | .error (.unreadable file)
    if canonical ∈ stack then .error (.circular (stack ++ [canonical]))
    else
      let text ← textOf t file
      addDefinitions
        (fun resource kind => loadBelow l t fuel (stack ++ [canonical]) resource kind (folderOf file))
        (Collection.empty.addFile file) (format.read file text)

/-- Loads a resource with everything that it imports. No more files can be on the stack than there
are files. -/
def load (l : Loader) (t : FileTree) (resource : String) (kind : Option String) :
    Except Error Collection :=
  l.loadBelow t (t.files.length + 1) [] resource kind none

end Loader

end RuleRegistry.Source
