import RuleRegistry.Artifact.Basic
import RuleRegistry.Value.Text

namespace RuleRegistry

inductive SettingError where
  | unsupported (keys : List String)
  | invalidValue (key expected found : String)
  | malformed
deriving DecidableEq

def SettingError.message : SettingError → String
  | unsupported keys =>
    "The Rule Engine does not support the following options: \"" ++ "\", \"".intercalate keys ++
      "\"."
  | invalidValue key expected found =>
    "invalid value for option \"" ++ key ++ "\": expected " ++ expected ++ ", got " ++ found
  | malformed => "invalid engine configuration"

structure Settings where
  cacheDir : Option String := none
  debug : Bool := false
  artifactKind : ArtifactKind := .binary
  cacheClass : Option String := some ({} : ArtifactNames).className
  resourceType : Option String := none
deriving DecidableEq, Inhabited

namespace Settings

inductive Key where
  | cacheDir
  | debug
  | artifactKind
  | cacheClass
  | resourceType
deriving DecidableEq

def Key.name : Key → String
  | cacheDir => "cache_dir"
  | debug => "debug"
  | artifactKind => "rule_collection_dumper_class"
  | cacheClass => "rule_collection_cache_class"
  | resourceType => "resource_type"

def keys : List Key := [.cacheDir, .debug, .artifactKind, .cacheClass, .resourceType]

def key? (name : String) : Option Key := keys.find? fun k => k.name == name

/-- Artifacts are cached when there is a directory and a name for them. -/
def caching (o : Settings) : Bool := o.cacheDir.isSome && o.cacheClass.isSome

/-- A text that is not empty, or null for none. -/
def optionalText (key : Key) : Value → Except SettingError (Option String)
  | .null => .ok none
  | .string s =>
    if s = "" then .error (.invalidValue key.name "a non-empty string or null" (Value.text (.string s)))
    else .ok (some s)
  | v => .error (.invalidValue key.name "a non-empty string or null" v.text)

def boolean (key : Key) (v : Value) : Except SettingError Bool :=
  match v.asBool with
  | some b => .ok b
  | none => .error (.invalidValue key.name "a boolean" v.text)

def format (key : Key) (v : Value) : Except SettingError ArtifactKind :=
  match v.asString.bind ArtifactKind.ofName? with
  | some kind => .ok kind
  | none => .error (.invalidValue key.name "\"binary\" or \"yaml\"" v.text)

/-- Puts what was read of a value into the settings. What could not be read puts nothing. -/
def store {α : Type} (o : Settings) (put : Settings → α → Settings) :
    Except SettingError α → Except SettingError Unit × Settings
  | .ok x => (.ok (), put o x)
  | .error e => (.error e, o)

def setKey (o : Settings) (key : Key) (v : Value) : Except SettingError Unit × Settings :=
  match key with
  | .cacheDir => o.store (fun o dir => { o with cacheDir := dir }) (optionalText key v)
  | .debug => o.store (fun o b => { o with debug := b }) (boolean key v)
  | .artifactKind => o.store (fun o kind => { o with artifactKind := kind }) (format key v)
  | .cacheClass => o.store (fun o name => { o with cacheClass := name }) (optionalText key v)
  | .resourceType => o.store (fun o kind => { o with resourceType := kind }) (optionalText key v)

def set (o : Settings) (name : String) (v : Value) : Except SettingError Unit × Settings :=
  match key? name with
  | some key => o.setKey key v
  | none => (.error (.unsupported [name]), o)

/-- Sets options one after the other, up to the first that is refused. Those before it stay set. -/
def setEach (o : Settings) : List (String × Value) → Except SettingError Unit × Settings
  | [] => (.ok (), o)
  | (name, v) :: rest =>
    match o.set name v with
    | (.error e, o) => (.error e, o)
    | (.ok (), o) => setEach o rest

/-- Sets a batch of options. Keys that are not known are all reported, before any value. The options
are set on a copy, which takes the place of the settings when each of them was set. -/
def setAll (o : Settings) (pairs : List (String × Value)) : Except SettingError Unit × Settings :=
  let unknown := (pairs.map Prod.fst).filter fun name => (key? name).isNone
  if unknown = [] then
    match o.setEach pairs with
    | (.error e, _) => (.error e, o)
    | (.ok (), copy) => (.ok (), copy)
  else (.error (.unsupported unknown), o)

def ofPairs (pairs : List (String × Value)) : Except SettingError Settings :=
  let (result, o) := setAll {} pairs
  result.map fun _ => o

def textOrNull : Option String → Value
  | some s => .string s
  | none => .null

def getKey (o : Settings) : Key → Value
  | .cacheDir => textOrNull o.cacheDir
  | .debug => .bool o.debug
  | .artifactKind => .string o.artifactKind.name
  | .cacheClass => textOrNull o.cacheClass
  | .resourceType => textOrNull o.resourceType

def get (o : Settings) (name : String) : Except SettingError Value :=
  match key? name with
  | some key => .ok (o.getKey key)
  | none => .error (.unsupported [name])

end Settings

end RuleRegistry
