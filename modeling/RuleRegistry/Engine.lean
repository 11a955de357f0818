import RuleRegistry.Artifact.Cache
import RuleRegistry.Artifact.Format
import RuleRegistry.Extension
import RuleRegistry.Settings
import RuleRegistry.Source.Loader

namespace RuleRegistry

inductive EngineError where
  | source (e : Source.Error)
  | artifact (e : ArtifactError)
  | cache (e : CacheError)
  | rule (e : RuleError)
  | setting (e : SettingError)
  | expression (e : ExprError)
  | lookup (name : String)

def EngineError.message : EngineError → String
  | source e => e.message
  | artifact e => e.message
  | cache e => e.message
  | rule e => e.message
  | setting e => e.message
  | expression e => e.message
  | lookup name => "No rule named \"" ++ name ++ "\" found in rules"

/-- What an engine can load its collection with: a resource of a type, or of any, among the files. -/
class Source.Loads (L : Type) where
  load : L → FileTree → String → Option String → Except Source.Error Collection

instance : Source.Loads Source.Loader := ⟨Source.Loader.load⟩

structure Engine (L : Type) where
  loader : L
  resource : String
  evaluator : Evaluator := {}
  settings : Settings := {}
  collection : Option Collection := none

namespace Engine

variable {L : Type} [Source.Loads L]

def isResolved (e : Engine L) : Bool := e.collection.isSome

def setOption (e : Engine L) (key : String) (v : Value) : Except EngineError Unit × Engine L :=
  let (result, settings) := e.settings.set key v
  (result.mapError .setting, { e with settings := settings })

def setOptions (e : Engine L) (pairs : List (String × Value)) : Except EngineError Unit × Engine L :=
  let (result, settings) := e.settings.setAll pairs
  (result.mapError .setting, { e with settings := settings })

def option (e : Engine L) (key : String) : Except EngineError Value :=
  (e.settings.get key).mapError .setting

def register (e : Engine L) (x : Extension) : Bool × Engine L :=
  let (added, evaluator) := e.evaluator.register x
  (added, { e with evaluator := evaluator })

def addFunction (e : Engine L) (f : Function) : Engine L :=
  { e with evaluator := e.evaluator.addFunction f }

def artifact? (e : Engine L) : Option (ArtifactCache × String) :=
  match e.settings.cacheDir, e.settings.cacheClass with
  | some dir, some name =>
    let file : Path := ⟨name ++ "." ++ e.settings.artifactKind.extension⟩
    some (⟨(Path.mk dir).join file, e.settings.debug⟩, name)
  | _, _ => none

def load (e : Engine L) (t : FileTree) : Except EngineError Collection :=
  (Source.Loads.load e.loader t e.resource e.settings.resourceType).mapError .source

def rebuild (e : Engine L) (cache : ArtifactCache) (className : String) (t : FileTree) :
    Except EngineError Unit × FileTree :=
  match e.load t with
  | .error err => (.error err, t)
  | .ok c =>
    match e.settings.artifactKind.write c { className := className } with
    | .error err => (.error (.artifact err), t)
    | .ok content =>
      match cache.write t content c.resources with
      | (.error err, t) => (.error (.cache err), t)
      | (.ok (), t) => (.ok (), t)

def restore (e : Engine L) (cache : ArtifactCache) (t : FileTree) : Except EngineError Collection := do
  let content ← (cache.read t).mapError .cache
  let archive ← (e.settings.artifactKind.read content).mapError .artifact
  archive.build.mapError .rule

def resolve (e : Engine L) (t : FileTree) : Except EngineError Collection × FileTree :=
  match e.artifact? with
  | none => (e.load t, t)
  | some (cache, className) =>
    if cache.isFresh t then (e.restore cache t, t)
    else match e.rebuild cache className t with
      | (.error err, t) => (.error err, t)
      | (.ok (), t) => (e.restore cache t, t)

/-- The collection, resolved if need be. An engine that fails to resolve it stays as it is. -/
def rules (e : Engine L) (t : FileTree) : Except EngineError Collection × Engine L × FileTree :=
  match e.collection with
  | some c => (.ok c, e, t)
  | none =>
    match e.resolve t with
    | (.ok c, t) => (.ok c, { e with collection := some c }, t)
    | (.error err, t) => (.error err, e, t)

def evaluate (e : Engine L) (store : ParseStore) (source : String) (ctx : Context) :
    Except EngineError Value × ParseStore :=
  let (r, store) := e.evaluator.evaluate store source ctx
  (r.mapError .expression, store)

def ruleNamed (e : Engine L) (t : FileTree) (name : String) :
    Except EngineError Rule × Engine L × FileTree :=
  match e.rules t with
  | (.error err, e, t) => (.error err, e, t)
  | (.ok c, e, t) =>
    match c.get? name with
    | some r => (.ok r, e, t)
    | none => (.error (.lookup name), e, t)

def evaluateNamed (e : Engine L) (t : FileTree) (store : ParseStore) (name : String) (ctx : Context) :
    Except EngineError Value × Engine L × FileTree × ParseStore :=
  match e.ruleNamed t name with
  | (.error err, e, t) => (.error err, e, t, store)
  | (.ok r, e, t) =>
    let (result, store) := e.evaluate store r.expression ctx
    (result, e, t, store)

end Engine

end RuleRegistry
