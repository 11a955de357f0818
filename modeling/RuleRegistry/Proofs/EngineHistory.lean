import RuleRegistry.Proofs.Resolution

namespace RuleRegistry

open Outcome

/-- An engine with the files around it and the store of its evaluator. -/
structure Session (L : Type) where
  engine : Engine L
  files : FileTree
  store : ParseStore := []

namespace Session

inductive Call where
  | collection
  | evaluateNamed (name : String) (ctx : Context)
  | evaluate (source : String) (ctx : Context)
  | setOption (key : String) (v : Value)
  | setOptions (pairs : List (String × Value))
  | register (x : Extension)
  /-- Whatever others do to the files. -/
  | edit (change : FileTree → FileTree)

inductive Answer where
  | collection (result : Except EngineError Collection)
  | value (result : Except EngineError Value)
  | setting (result : Except EngineError Unit)
  | registered (added : Bool)
  | edited

section

variable {L : Type}

/-- What a call makes of the settings and the evaluator. -/
def configure (e : Engine L) : Call → Engine L
  | .setOption key v => (e.setOption key v).2
  | .setOptions pairs => (e.setOptions pairs).2
  | .register x => (e.register x).2
  | _ => e

/-- The session with another loader, of whatever kind, another resource and other settings, among other
files. -/
def elsewhere {L' : Type} (s : Session L) (loader : L') (resource : String) (settings : Settings)
    (files : FileTree) : Session L' :=
  ⟨{ s.engine with loader := loader, resource := resource, settings := settings }, files, s.store⟩

/-- Settings and evaluator are changed alike whether or not the engine is resolved. -/
theorem configure_collection (e : Engine L) (o : Option Collection) (call : Call) :
    configure { e with collection := o } call = { configure e call with collection := o } := by
  cases call <;> rfl

theorem configured_collection (e : Engine L) (o : Option Collection) (calls : List Call) :
    calls.foldl configure { e with collection := o } =
      { calls.foldl configure e with collection := o } := by
  induction calls generalizing e with
  | nil => rfl
  | cons call rest ih => rw [List.foldl_cons, configure_collection, ih, List.foldl_cons]

variable [Source.Loads L]

def perform (s : Session L) : Call → Answer × Session L
  | .collection =>
    let (result, engine, files) := s.engine.rules s.files
    (.collection result, ⟨engine, files, s.store⟩)
  | .evaluateNamed name ctx =>
    let (result, engine, files, store) := s.engine.evaluateNamed s.files s.store name ctx
    (.value result, ⟨engine, files, store⟩)
  | .evaluate source ctx =>
    let (result, store) := s.engine.evaluate s.store source ctx
    (.value result, { s with store := store })
  | .setOption key v =>
    let (result, engine) := s.engine.setOption key v
    (.setting result, { s with engine := engine })
  | .setOptions pairs =>
    let (result, engine) := s.engine.setOptions pairs
    (.setting result, { s with engine := engine })
  | .register x =>
    let (added, engine) := s.engine.register x
    (.registered added, { s with engine := engine })
  | .edit change => (.edited, { s with files := change s.files })

/-- The answers to calls in turn, and the session after them. -/
def run (s : Session L) : List Call → List Answer × Session L
  | [] => ([], s)
  | call :: rest =>
    let (answer, s) := s.perform call
    let (answers, final) := run s rest
    (answer :: answers, final)

end

/-- What a call makes of the files of an engine that is resolved. -/
def edited (files : FileTree) : Call → FileTree
  | .edit change => change files
  | _ => files

end Session

theorem Settings.setKey_alike (o o' : Settings) (key : Settings.Key) (v : Value) :
    (o.setKey key v).1 = (o'.setKey key v).1 := by
  have alike {α : Type} (put : Settings → α → Settings) (read : Except SettingError α) :
      (o.store put read).1 = (o'.store put read).1 := by
    cases read <;> rfl
  cases key <;> exact alike _ _

theorem Settings.set_alike (o o' : Settings) (name : String) (v : Value) :
    (o.set name v).1 = (o'.set name v).1 := by
  unfold set
  cases key? name with
  | none => rfl
  | some key => exact setKey_alike o o' key v

theorem Settings.setEach_alike (o o' : Settings) (pairs : List (String × Value)) :
    (o.setEach pairs).1 = (o'.setEach pairs).1 := by
  induction pairs generalizing o o' with
  | nil => rfl
  | cons p rest ih =>
    have first := set_alike o o' p.1 p.2
    simp only [setEach]
    generalize o.set p.1 p.2 = one, o'.set p.1 p.2 = other at first
    obtain ⟨result, o⟩ := one
    obtain ⟨result', o'⟩ := other
    obtain rfl : result = result' := first
    cases result with
    | error e => rfl
    | ok _ => exact ih o o'

/-- What the settings were decides about no answer to a change of them. -/
theorem Settings.setAll_alike (o o' : Settings) (pairs : List (String × Value)) :
    (o.setAll pairs).1 = (o'.setAll pairs).1 := by
  have each := setEach_alike o o' pairs
  unfold setAll
  dsimp only
  split
  · generalize o.setEach pairs = one, o'.setEach pairs = other at each
    obtain ⟨result, _⟩ := one
    obtain ⟨result', _⟩ := other
    obtain rfl : result = result' := each
    cases result <;> rfl
  · rfl

namespace Engine

variable {L : Type}

theorem evaluate_ne_lookup (e : Engine L) (store : ParseStore) (source : String) (ctx : Context)
    (name : String) : (e.evaluate store source ctx).1 ≠ .error (.lookup name) := by
  have fails : FailsWith (fun err => ∀ name, err ≠ .lookup name) (e.evaluate store source ctx).1 :=
    .mapError fun _ _ => nofun
  exact fun failed => fails _ failed name rfl

variable [Source.Loads L] {e : Engine L} {t : FileTree} {c : Collection}

theorem rules_of_resolved (resolved : e.collection = some c) (t : FileTree) :
    e.rules t = (.ok c, e, t) := by
  rw [rules, resolved]

theorem rules_of_unresolved (unresolved : e.collection = none) (t : FileTree) :
    e.rules t = ((e.resolve t).1, { e with collection := (e.resolve t).1.toOption }, (e.resolve t).2) := by
  rw [rules, unresolved]
  dsimp only
  split
  · rename_i resolved
    rw [resolved]
    rfl
  · rename_i failed
    rw [failed]
    simp [Except.toOption, ← unresolved]

/-- Whatever a call that needs the collection comes to, it changes nothing else of the engine. -/
theorem engine_of_rules (e : Engine L) (t : FileTree) :
    (e.rules t).2.1 = { e with collection := (e.rules t).1.toOption } := by
  cases collection : e.collection with
  | some c =>
    rw [rules_of_resolved collection]
    simp [Except.toOption, ← collection]
  | none => rw [rules_of_unresolved collection]

theorem unresolved_of_rules {err : EngineError} (failed : (e.rules t).1 = .error err) :
    e.collection = none := by
  cases collection : e.collection with
  | none => rfl
  | some c =>
    rw [rules_of_resolved collection] at failed
    cases failed

/-- A resolution fails for its own reasons, never for want of a rule. -/
theorem resolve_fails (e : Engine L) (t : FileTree) :
    FailsWith (fun err => ∀ name, err ≠ .lookup name) (e.resolve t).1 := by
  have restore_fails (cache : ArtifactCache) (t : FileTree) :
      FailsWith (fun err => ∀ name, err ≠ .lookup name) (e.restore cache t) := by
    refine FailsWith.bind (.mapError fun _ _ => nofun) fun content => ?_
    refine FailsWith.bind (.mapError fun _ _ => nofun) fun archive => ?_
    exact .mapError fun _ _ => nofun
  have load_fails : FailsWith (fun err => ∀ name, err ≠ .lookup name) (e.load t) :=
    .mapError fun _ _ => nofun
  cases asked : e.artifact? with
  | none =>
    rw [resolve, asked]
    exact load_fails
  | some artifact =>
    have does := resolution asked t
    generalize (e.resolve t).1 = outcome, (e.resolve t).2 = t' at does
    cases does with
    | fresh | stored => exact restore_fails _ _
    | unloaded failed => exact .error (load_fails _ failed)
    | unwritten | unstored => exact .error fun _ => nofun

theorem rules_fails (e : Engine L) (t : FileTree) :
    FailsWith (fun err => ∀ name, err ≠ .lookup name) (e.rules t).1 := by
  cases collection : e.collection with
  | some c =>
    rw [rules_of_resolved collection]
    exact .ok c
  | none =>
    rw [rules_of_unresolved collection]
    exact e.resolve_fails t

end Engine

namespace Session

variable {L : Type} [Source.Loads L] {s : Session L} {c : Collection}

/-- What evaluating a named rule comes to, and the store after it. -/
def namedValue (s : Session L) (name : String) (ctx : Context) : Except EngineError Value × ParseStore :=
  match (s.engine.rules s.files).1 with
  | .error err => (.error err, s.store)
  | .ok c =>
    match c.get? name with
    | none => (.error (.lookup name), s.store)
    | some rule => s.engine.evaluate s.store rule.expression ctx

theorem perform_evaluateNamed (s : Session L) (name : String) (ctx : Context) :
    s.perform (.evaluateNamed name ctx) = (.value (s.namedValue name ctx).1,
      { (s.perform .collection).2 with store := (s.namedValue name ctx).2 }) := by
  have after := s.engine.engine_of_rules s.files
  simp only [perform, namedValue, Engine.evaluateNamed, Engine.ruleNamed]
  generalize s.engine.rules s.files = resolved at after
  obtain ⟨result, engine, files⟩ := resolved
  dsimp only at after
  subst after
  cases result with
  | error err => rfl
  | ok c =>
    dsimp only
    cases c.get? name <;> rfl

/-- A call leaves the loader and the resource as they are, and no change of settings or evaluator
depends on the collection. -/
theorem engine_of_perform (s : Session L) (call : Call) :
    (s.perform call).2.engine =
      { configure s.engine call with collection := (s.perform call).2.engine.collection } := by
  cases call with
  | collection =>
    simp only [perform, s.engine.engine_of_rules s.files]
    rfl
  | evaluateNamed name ctx =>
    rw [perform_evaluateNamed]
    simp only [perform, s.engine.engine_of_rules s.files]
    rfl
  | evaluate source ctx => rfl
  | setOption key v => rfl
  | setOptions pairs => rfl
  | register x => rfl
  | edit change => rfl

theorem collection_of_perform (resolved : s.engine.collection = some c) (call : Call) :
    (s.perform call).2.engine.collection = some c := by
  have kept (e : Engine L) (h : e.collection = some c) (t : FileTree) : (e.rules t).2.1 = e := by
    rw [Engine.rules_of_resolved h]
  cases call with
  | collection =>
    rw [← resolved]
    exact congrArg _ (kept _ resolved s.files)
  | evaluateNamed name ctx =>
    rw [perform_evaluateNamed, ← resolved]
    exact congrArg _ (kept _ resolved s.files)
  | evaluate source ctx => exact resolved
  | setOption key v => exact resolved
  | setOptions pairs => exact resolved
  | register x => exact resolved
  | edit change => exact resolved

theorem files_of_perform (resolved : s.engine.collection = some c) (call : Call) :
    (s.perform call).2.files = edited s.files call := by
  have rules := Engine.rules_of_resolved resolved s.files
  cases call with
  | collection => simp only [perform, rules, edited]
  | evaluateNamed name ctx =>
    rw [perform_evaluateNamed]
    simp only [perform, rules, edited]
  | evaluate source ctx => rfl
  | setOption key v => rfl
  | setOptions pairs => rfl
  | register x => rfl
  | edit change => rfl

/-- A resolved engine answers alike wherever it is, and stays the same but for where it is. -/
theorem perform_elsewhere {L' : Type} [Source.Loads L'] (resolved : s.engine.collection = some c)
    (loader : L') (resource : String) (settings : Settings) (files : FileTree) (call : Call) :
    ((s.elsewhere loader resource settings files).perform call).1 = (s.perform call).1 ∧
      ∃ settings' files', ((s.elsewhere loader resource settings files).perform call).2 =
        (s.perform call).2.elsewhere loader resource settings' files' := by
  have here := Engine.rules_of_resolved resolved s.files
  have there := Engine.rules_of_resolved
    (e := (s.elsewhere loader resource settings files).engine) resolved files
  cases call with
  | collection =>
    refine ⟨?_, settings, files, ?_⟩
    · simp only [perform, here]
      exact congrArg (fun r => Answer.collection r.1) there
    · simp only [perform, here]
      exact congrArg (fun r => Session.mk r.2.1 r.2.2 s.store) there
  | evaluateNamed name ctx =>
    have same : (s.elsewhere loader resource settings files).namedValue name ctx =
        s.namedValue name ctx := by
      have result := congrArg Prod.fst there
      simp only [namedValue, here]
      rw [show (s.elsewhere loader resource settings files).files = files from rfl, result]
      rfl
    rw [perform_evaluateNamed, perform_evaluateNamed, same]
    refine ⟨rfl, settings, files, ?_⟩
    simp only [perform, here]
    exact congrArg (fun r => Session.mk r.2.1 r.2.2 (s.namedValue name ctx).2) there
  | evaluate source ctx => exact ⟨rfl, settings, files, rfl⟩
  | setOption key v =>
    have alike := Settings.set_alike settings s.engine.settings key v
    exact ⟨congrArg (Answer.setting ∘ Except.mapError .setting) alike, _, files, rfl⟩
  | setOptions pairs =>
    have alike := Settings.setAll_alike settings s.engine.settings pairs
    exact ⟨congrArg (Answer.setting ∘ Except.mapError .setting) alike, _, files, rfl⟩
  | register x => exact ⟨rfl, settings, files, rfl⟩
  | edit change => exact ⟨rfl, settings, change files, rfl⟩

theorem collection_of_run (resolved : s.engine.collection = some c) (calls : List Call) :
    (s.run calls).2.engine.collection = some c := by
  induction calls generalizing s with
  | nil => exact resolved
  | cons call rest ih => exact ih (collection_of_perform resolved call)

theorem files_of_run (resolved : s.engine.collection = some c) (calls : List Call) :
    (s.run calls).2.files = calls.foldl edited s.files := by
  induction calls generalizing s with
  | nil => rfl
  | cons call rest ih =>
    rw [run, ih (collection_of_perform resolved call), files_of_perform resolved call]
    rfl

theorem answers_elsewhere {L' : Type} [Source.Loads L'] (resolved : s.engine.collection = some c)
    (loader : L') (resource : String) (settings : Settings) (files : FileTree) (calls : List Call) :
    ((s.elsewhere loader resource settings files).run calls).1 = (s.run calls).1 := by
  induction calls generalizing s settings files with
  | nil => rfl
  | cons call rest ih =>
    obtain ⟨answer, settings', files', after⟩ :=
      perform_elsewhere resolved loader resource settings files call
    have later := ih (collection_of_perform resolved call) settings' files'
    simp only [run]
    rw [answer, after, later]

theorem engine_of_run (s : Session L) (calls : List Call) :
    (s.run calls).2.engine = { calls.foldl configure s.engine with
      collection := (s.run calls).2.engine.collection } := by
  induction calls generalizing s with
  | nil => rfl
  | cons call rest ih =>
    have first := engine_of_perform s call
    have later := ih (s.perform call).2
    rw [first, configured_collection] at later
    exact later

/-- What holds of a session whose engine is resolved. -/
structure Settled (s : Session L) (c : Collection) : Prop where
  /-- The collection is given again after any calls and edits, and nothing changes by that. -/
  again : ∀ later, (s.run later).2.perform .collection = (.collection (.ok c), (s.run later).2)
  /-- No answer depends on the files, or on what a resolution would look at. -/
  unread : ∀ later {L' : Type} [Source.Loads L'] (loader : L') resource settings files,
    ((s.elsewhere loader resource settings files).run later).1 = (s.run later).1
  /-- No call changes the files, only edits do. -/
  unwritten : ∀ later, (s.run later).2.files = later.foldl edited s.files

theorem settled_of_resolved (resolved : s.engine.collection = some c) : s.Settled c where
  again later := by
    have kept := collection_of_run resolved later
    simp only [perform, Engine.rules_of_resolved kept]
  unread later _ _ loader resource settings files :=
    answers_elsewhere resolved loader resource settings files later
  unwritten later := files_of_run resolved later

/-- How an engine comes to its collection, whatever was called before. -/
structure ResolvesOnce (s : Session L) : Prop where
  settled : ∀ c, (s.perform .collection).1 = .collection (.ok c) →
    (s.perform .collection).2.Settled c
  /-- A resolution that fails leaves the engine as it was. -/
  failed : ∀ err, (s.perform .collection).1 = .collection (.error err) →
    s.engine.isResolved = false ∧ (s.perform .collection).2.engine = s.engine ∧
      (s.perform .collection).2.store = s.store
  /-- Evaluating a named rule resolves the collection too. -/
  named : ∀ name ctx, (s.perform (.evaluateNamed name ctx)).2.engine = (s.perform .collection).2.engine ∧
    (s.perform (.evaluateNamed name ctx)).2.files = (s.perform .collection).2.files
  unresolved : ∀ name ctx err, (s.perform .collection).1 = .collection (.error err) →
    (s.perform (.evaluateNamed name ctx)).1 = .value (.error err)
  missing : ∀ name ctx looked,
    (s.perform (.evaluateNamed name ctx)).1 = .value (.error (.lookup looked)) ↔
      looked = name ∧ ∃ c, (s.perform .collection).1 = .collection (.ok c) ∧ name ∉ c.names
  found : ∀ name ctx c rule, (s.perform .collection).1 = .collection (.ok c) →
    c.get? name = some rule →
      (s.perform (.evaluateNamed name ctx)).1 = (s.perform (.evaluate rule.expression ctx)).1 ∧
        (s.perform (.evaluateNamed name ctx)).2.store =
          (s.perform (.evaluate rule.expression ctx)).2.store

theorem rules_of_answer {result : Except EngineError Collection}
    (answer : (s.perform .collection).1 = .collection result) :
    (s.engine.rules s.files).1 = result := Answer.collection.inj answer

theorem missing_iff (s : Session L) (name : String) (ctx : Context) (looked : String) :
    (s.perform (.evaluateNamed name ctx)).1 = .value (.error (.lookup looked)) ↔
      looked = name ∧ ∃ c, (s.perform .collection).1 = .collection (.ok c) ∧ name ∉ c.names := by
  have own : (s.perform .collection).1 = .collection (s.engine.rules s.files).1 := rfl
  rw [perform_evaluateNamed, own, Answer.value.injEq, namedValue]
  cases resolved : (s.engine.rules s.files).1 with
  | error err =>
    refine ⟨fun failed => ?_, fun ⟨_, c, answer, _⟩ => nomatch answer⟩
    exact absurd (Except.error.inj failed) (s.engine.rules_fails s.files err resolved looked)
  | ok c =>
    dsimp only
    cases there : c.get? name with
    | none =>
      have absent : name ∉ c.names := (Entries.find?_eq_none_iff _ _).mp there
      constructor
      · rintro ⟨⟩
        exact ⟨rfl, c, rfl, absent⟩
      · rintro ⟨rfl, _⟩
        rfl
    | some rule =>
      refine ⟨fun failed => absurd failed (Engine.evaluate_ne_lookup _ _ _ _ _), ?_⟩
      rintro ⟨rfl, d, answer, absent⟩
      cases answer
      rw [Collection.get?, (Entries.find?_eq_none_iff _ _).mpr absent] at there
      cases there

theorem resolvesOnce (s : Session L) : s.ResolvesOnce where
  settled c answer := by
    refine settled_of_resolved ?_
    simp only [perform, s.engine.engine_of_rules s.files, rules_of_answer answer]
    rfl
  failed err answer := by
    have result := rules_of_answer answer
    have unresolved := Engine.unresolved_of_rules result
    refine ⟨by rw [Engine.isResolved, unresolved]; rfl, ?_, rfl⟩
    simp only [perform, s.engine.engine_of_rules s.files, result]
    exact congrArg (fun o => { s.engine with collection := o }) unresolved.symm
  named name ctx := by
    rw [perform_evaluateNamed]
    exact ⟨rfl, rfl⟩
  unresolved name ctx err answer := by
    rw [perform_evaluateNamed, namedValue, rules_of_answer answer]
  missing := s.missing_iff
  found name ctx c rule answer there := by
    rw [perform_evaluateNamed, namedValue, rules_of_answer answer]
    dsimp only
    rw [there]
    exact ⟨rfl, rfl⟩

/-- After any calls and edits: what an engine does for its collection, that only its settings, its
evaluator and its collection may have changed, and that it resolves as an engine with these settings
does on the files of that time. -/
theorem resolves_once (start : Session L) (calls : List Call) :
    (start.run calls).2.ResolvesOnce ∧
    (start.run calls).2.engine = { calls.foldl configure start.engine with
      collection := (start.run calls).2.engine.collection } ∧
    ((start.run calls).2.engine.isResolved = false →
      ((start.run calls).2.perform .collection).1 = .collection
        ((calls.foldl configure start.engine).resolve (start.run calls).2.files).1) := by
  refine ⟨resolvesOnce _, engine_of_run start calls, fun unresolved => ?_⟩
  have none := Option.isSome_eq_false_iff.mp unresolved
  rw [Option.isNone_iff_eq_none] at none
  simp only [perform, Engine.rules_of_unresolved none]
  rw [engine_of_run start calls]
  rfl

end Session

end RuleRegistry
