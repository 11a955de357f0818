import RuleRegistry.Proofs.CachedRun

namespace RuleRegistry

open Outcome FileTree Source

section

variable {kind : ArtifactKind} {className : String} {loaded c : Collection}

theorem ReadsBack.named (h : ReadsBack .binary className loaded c) (regular : loaded.Regular) :
    className ≠ "" := by
  intro unnamed
  obtain ⟨content, archive, written, read, _⟩ := h
  rw [ArtifactKind.read, Artifact.readBinary_of_unnamed regular unnamed written] at read
  cases read

/-- A collection that is restored in place of one that was loaded. -/
structure Restores (kind : ArtifactKind) (className : String) (loaded c : Collection) : Prop where
  reads : ReadsBack kind className loaded c
  rules : (kind = .yaml → kind.Keeps loaded { className := className }) → c.rules = loaded.rules

theorem ReadsBack.restores (h : ReadsBack kind className loaded c) (regular : loaded.Regular) :
    Restores kind className loaded c where
  reads := h
  rules := by
    intro keeps
    cases kind with
    | yaml => exact h.rules_of_keeps regular (keeps rfl)
    | binary => exact h.rules_of_keeps regular (ArtifactKind.keeps_binary regular (h.named regular))

end

/-- What is left of an artifact by a write that fails: the old file or the new one. -/
theorem ArtifactCache.artifact_of_write_error {c : ArtifactCache} {t t' : FileTree} {content : Bytes}
    {files : List Path} {e : CacheError} (h : c.write t content files = (.error e, t')) :
    t'.current = t.current ∧ (t'.fileAt? (t.place c.path) = t.fileAt? (t.place c.path) ∨
      ∃ modified, t'.fileAt? (t.place c.path) = some ⟨content, modified⟩) := by
  unfold write at h
  split at h
  · cases h
    exact ⟨rfl, .inl rfl⟩
  · split at h
    · rename_i failed
      cases h
      have grown := grown_of_error failed
      exact ⟨grown.current, .inl (by rw [fileAt?, grown.files, fileAt?])⟩
    · rename_i s first
      have one := replaced_of_ok first
      have grown := grown_of_error h
      obtain ⟨modified, there⟩ := one.written
      refine ⟨grown.current.trans one.current, .inr ⟨modified, ?_⟩⟩
      rw [fileAt?, grown.files]
      exact there

namespace Engine

def artifactPath (dir className : String) (kind : ArtifactKind) : Path :=
  (Path.mk dir).join ⟨className ++ "." ++ kind.extension⟩

/-- The engine has its artifact in this folder, under this name and in this format. -/
structure Shares (e : Engine Loader) (dir className : String) (kind : ArtifactKind) : Prop where
  cacheDir : e.settings.cacheDir = some dir
  cacheClass : e.settings.cacheClass = some className
  artifactKind : e.settings.artifactKind = kind

variable {e : Engine Loader} {dir className : String} {kind : ArtifactKind} {start t : FileTree}
  {c : Collection}

/-- The artifact as the engine sees it. -/
def cacheIn (e : Engine Loader) (dir className : String) (kind : ArtifactKind) : ArtifactCache :=
  ⟨artifactPath dir className kind, e.settings.debug⟩

theorem Shares.artifact?_eq (h : e.Shares dir className kind) :
    e.artifact? = some (e.cacheIn dir className kind, className) := by
  rw [artifact?, h.cacheDir, h.cacheClass, h.artifactKind]
  rfl

/-- A resolution leaves the artifact as it was, or puts there what the engine loaded. -/
theorem artifact_of_resolve (h : e.Shares dir className kind) (t : FileTree) :
    (e.resolve t).2.current = t.current ∧
      ((e.resolve t).2.fileAt? (t.place (artifactPath dir className kind)) =
          t.fileAt? (t.place (artifactPath dir className kind)) ∨
        ∃ loaded content modified, e.load t = .ok loaded ∧
          kind.write loaded { className := className } = .ok content ∧
            (e.resolve t).2.fileAt? (t.place (artifactPath dir className kind)) =
              some ⟨content, modified⟩) := by
  have does := resolution h.artifact?_eq t
  generalize (e.resolve t).1 = outcome, (e.resolve t).2 = t' at does
  cases does with
  | fresh | unloaded | unwritten => exact ⟨rfl, .inl rfl⟩
  | unstored loaded written failed =>
    rw [h.artifactKind] at written
    obtain ⟨current, same | ⟨modified, there⟩⟩ := ArtifactCache.artifact_of_write_error failed
    · exact ⟨current, .inl same⟩
    · exact ⟨current, .inr ⟨_, _, modified, loaded, written, there⟩⟩
  | stored loaded written stored =>
    rw [h.artifactKind] at written
    obtain ⟨_, _, files⟩ := ArtifactCache.written_of_ok (named_of_artifact? h.artifact?_eq) stored
    obtain ⟨modified, there⟩ := files.artifact
    exact ⟨files.current, .inr ⟨_, _, modified, loaded, written, there⟩⟩

/-- The files after resolutions of these engines in turn. -/
def resolveAll (start : FileTree) (engines : List (Engine Loader)) : FileTree :=
  engines.foldl (fun t e => (e.resolve t).2) start

/-- The artifact is one that an engine of the run wrote of what it had loaded, and that the engines
after it left as it was. -/
inductive Holds (start : FileTree) (dir className : String) (kind : ArtifactKind) :
    List (Engine Loader) → Collection → Prop
  | left (earlier : List (Engine Loader)) {later w loaded content modified}
      (loads : w.load (resolveAll start earlier) = .ok loaded)
      (written : kind.write loaded { className := className } = .ok content)
      (put : (resolveAll start (earlier ++ [w])).fileAt?
        (start.place (artifactPath dir className kind)) = some ⟨content, modified⟩)
      (kept : (resolveAll start (earlier ++ w :: later)).fileAt?
        (start.place (artifactPath dir className kind)) = some ⟨content, modified⟩) :
      Holds start dir className kind (earlier ++ w :: later) loaded

theorem Holds.prepend {w : Engine Loader} {engines : List (Engine Loader)} {loaded : Collection}
    (current : (w.resolve start).2.current = start.current)
    (h : Holds (w.resolve start).2 dir className kind engines loaded) :
    Holds start dir className kind (w :: engines) loaded := by
  cases h with
  | left _ loads written put kept =>
    rw [place_congr current] at put kept
    exact .left (w :: _) loads written put kept

theorem artifact_of_resolveAll {engines : List (Engine Loader)}
    (shares : ∀ w ∈ engines, w.Shares dir className kind) (start : FileTree) :
    (resolveAll start engines).current = start.current ∧
      ((resolveAll start engines).fileAt? (start.place (artifactPath dir className kind)) =
          start.fileAt? (start.place (artifactPath dir className kind)) ∨
        ∃ loaded, Holds start dir className kind engines loaded) := by
  induction engines generalizing start with
  | nil => exact ⟨rfl, .inl rfl⟩
  | cons w rest ih =>
    obtain ⟨first, others⟩ := List.forall_mem_cons.mp shares
    obtain ⟨current, step⟩ := artifact_of_resolve first start
    obtain ⟨final, run⟩ := ih others (w.resolve start).2
    refine ⟨final.trans current, ?_⟩
    rcases run with same | ⟨loaded, holds⟩
    · rw [place_congr current] at same
      rcases step with kept | ⟨loaded, content, modified, loads, written, put⟩
      · exact .inl (same.trans kept)
      · exact .inr ⟨loaded, .left [] loads written put (same.trans put)⟩
    · exact .inr ⟨loaded, holds.prepend current⟩

theorem restores_of_restore {w : Engine Loader} {origin : FileTree} {loaded : Collection}
    {content : Bytes} {modified : Option Moment} (own : e.Shares dir className kind)
    (loads : w.load origin = .ok loaded)
    (written : kind.write loaded { className := className } = .ok content)
    (there : t.fileAt? (t.place (artifactPath dir className kind)) = some ⟨content, modified⟩)
    (restored : e.restore (e.cacheIn dir className kind) t = .ok c) :
    Restores kind className loaded c := by
  rw [← own.artifactKind] at written ⊢
  exact (readsBack_of_restore restored written there).restores
    (Loader.load_regular (mapError_ok_iff.mp loads))

/-- Where the artifact is not fresh the rules are those of the engine's own resource. Where it is they
are those of the engine that wrote it last, or of an artifact that was there before any of them. -/
theorem rules_of_shared_artifact {before : List (Engine Loader)}
    (others : ∀ w ∈ before, w.Shares dir className kind) (own : e.Shares dir className kind)
    (resolved : (e.resolve (resolveAll start before)).1 = .ok c) :
    ((e.cacheIn dir className kind).isFresh (resolveAll start before) = false →
      ∃ loaded, e.load (resolveAll start before) = .ok loaded ∧ Restores kind className loaded c) ∧
    ((e.cacheIn dir className kind).isFresh (resolveAll start before) = true →
      (∃ loaded, Holds start dir className kind before loaded ∧ Restores kind className loaded c) ∨
        ∃ f archive, start.fileAt? (start.place (artifactPath dir className kind)) = some f ∧
          (resolveAll start before).fileAt? (start.place (artifactPath dir className kind)) = some f ∧
            kind.read f.content = .ok archive ∧ archive.build = .ok c) := by
  obtain ⟨current, run⟩ := artifact_of_resolveAll others start
  have asked := own.artifact?_eq
  constructor
  · intro stale
    have does := resolution asked (resolveAll start before)
    generalize (e.resolve (resolveAll start before)).2 = t' at does
    rw [resolved] at does
    generalize outcome : Except.ok c = result at does
    cases does with
    | fresh fresh =>
      rw [stale] at fresh
      cases fresh
    | unloaded | unwritten | unstored => cases outcome
    | stored loaded written stored =>
      obtain ⟨_, _, files⟩ := ArtifactCache.written_of_ok (named_of_artifact? asked) stored
      obtain ⟨modified, there⟩ := files.artifact
      rw [← place_congr files.current] at there
      rw [own.artifactKind] at written
      exact ⟨_, loaded, restores_of_restore own loaded written there outcome.symm⟩
  · intro fresh
    have restored : e.restore (e.cacheIn dir className kind) (resolveAll start before) = .ok c := by
      rw [← resolved, resolve, asked]
      simp only [fresh, if_true]
    rcases run with same | ⟨loaded, holds⟩
    · obtain ⟨f, archive, there, decoded, built⟩ := reads_of_restore restored
      rw [own.artifactKind] at decoded
      rw [place_congr current] at there
      exact .inr ⟨f, archive, same.symm.trans there, there, decoded, built⟩
    · refine .inl ⟨loaded, holds, ?_⟩
      cases holds with
      | left _ loads written put kept =>
        rw [← place_congr current] at kept
        exact restores_of_restore own loads written kept restored

def sharingEngine (resource : String) : Engine Loader where
  loader := {}
  resource := resource
  settings := { cacheDir := some "c" }

theorem shares_sharingEngine (resource : String) :
    (sharingEngine resource).Shares "c" "ProjectRuleCollection" .binary := ⟨rfl, rfl, rfl⟩

def sharedStart : FileTree where
  current := []
  files := [(["a.xml".toList], oneRule "1" ⟨1, 0⟩), (["b.xml".toList], oneRule "2" ⟨1, 0⟩)]

theorem ok_of_expressionsOf {result : Except EngineError Collection} {expressions : List String}
    (h : expressionsOf result = some expressions) : ∃ c, result = .ok c := by
  cases result with
  | error err => cases h
  | ok c => exact ⟨c, rfl⟩

set_option maxRecDepth 100000 in
theorem resolve_after_first : expressionsOf ((sharingEngine "b.xml").resolve
    (resolveAll sharedStart [sharingEngine "a.xml"])).1 = some ["1"] := by
  decide +kernel

set_option maxRecDepth 100000 in
theorem rules_of_shared_artifact_two :
    (∃ c loaded, ((sharingEngine "a.xml").resolve sharedStart).1 = .ok c ∧
      (sharingEngine "a.xml").load sharedStart = .ok loaded ∧ c.rules = loaded.rules) ∧
    ∃ c loaded,
      ((sharingEngine "b.xml").resolve (resolveAll sharedStart [sharingEngine "a.xml"])).1 = .ok c ∧
        Holds sharedStart "c" "ProjectRuleCollection" .binary [sharingEngine "a.xml"] loaded ∧
          c.rules = loaded.rules := by
  constructor
  · have first : expressionsOf ((sharingEngine "a.xml").resolve sharedStart).1 = some ["1"] := by
      decide +kernel
    obtain ⟨c, resolved⟩ := ok_of_expressionsOf first
    have others : ∀ w ∈ ([] : List (Engine Loader)), w.Shares "c" "ProjectRuleCollection" .binary :=
      nofun
    obtain ⟨loaded, loads, restores⟩ := (rules_of_shared_artifact others
      (shares_sharingEngine "a.xml") resolved).1 (by decide +kernel)
    exact ⟨c, loaded, resolved, loads, restores.rules nofun⟩
  · obtain ⟨c, resolved⟩ := ok_of_expressionsOf resolve_after_first
    have others : ∀ w ∈ [sharingEngine "a.xml"], w.Shares "c" "ProjectRuleCollection" .binary := by
      simp [shares_sharingEngine]
    have fresh : ((sharingEngine "b.xml").cacheIn "c" "ProjectRuleCollection" .binary).isFresh
        (resolveAll sharedStart [sharingEngine "a.xml"]) = true := by
      decide +kernel
    have absent : sharedStart.fileAt?
        (sharedStart.place (artifactPath "c" "ProjectRuleCollection" .binary)) = none := by
      decide +kernel
    obtain ⟨loaded, holds, restores⟩ | ⟨f, _, there, _⟩ := (rules_of_shared_artifact others
      (shares_sharingEngine "b.xml") resolved).2 fresh
    · exact ⟨c, loaded, resolved, holds, restores.rules nofun⟩
    · rw [absent] at there
      cases there

set_option maxRecDepth 100000 in
/-- The second of two engines gets the rule of the first one's resource, not that of its own. -/
theorem resolve_ne_load_of_shared :
    (sharingEngine "a.xml").resource ≠ (sharingEngine "b.xml").resource ∧
      (∀ resource, (sharingEngine resource).Shares "c" "ProjectRuleCollection" .binary) ∧
        ∃ c loaded,
          ((sharingEngine "b.xml").resolve (resolveAll sharedStart [sharingEngine "a.xml"])).1 = .ok c ∧
            (sharingEngine "b.xml").load (resolveAll sharedStart [sharingEngine "a.xml"]) = .ok loaded ∧
              c.rules ≠ loaded.rules := by
  have resolved := resolve_after_first
  have loads : expressionsOf ((sharingEngine "b.xml").load
      (resolveAll sharedStart [sharingEngine "a.xml"])) = some ["2"] := by
    decide +kernel
  obtain ⟨c, restored⟩ := ok_of_expressionsOf resolved
  obtain ⟨loaded, own⟩ := ok_of_expressionsOf loads
  refine ⟨by decide, shares_sharingEngine, c, loaded, restored, own, fun same => ?_⟩
  rw [restored, expressionsOf, Except.toOption, Option.map_some, same] at resolved
  rw [own, expressionsOf, Except.toOption, Option.map_some, resolved] at loads
  exact absurd loads (by decide)

end Engine

end RuleRegistry
