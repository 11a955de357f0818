import RuleRegistry.Engine
import RuleRegistry.Proofs.ArtifactFiles
import RuleRegistry.Proofs.BinaryArtifact
import RuleRegistry.Proofs.Probing
import RuleRegistry.Proofs.StampRecord

/-!
Resolutions with artifacts. A record stands for the collection that was loaded when it was written:
while it is fresh and the paths of that load are clear of it, a load gives that collection again.
-/

namespace RuleRegistry

open Outcome FileTree Source

/-- The path leads neither to the files of the artifact nor through a folder that is still to be made
for them. -/
def ArtifactCache.Clear (c : ArtifactCache) (t : FileTree) (p : Path) : Prop :=
  ∀ l ∈ t.wayTo p, l ≠ t.place c.path ∧ l ≠ t.place c.recordPath ∧
    (l ∈ t.wayTo (ArtifactCache.folderOf c.path) → t.isFolder l = true)

instance (c : ArtifactCache) (t : FileTree) (p : Path) : Decidable (c.Clear t p) :=
  inferInstanceAs (Decidable (∀ l ∈ t.wayTo p, l ≠ t.place c.path ∧ l ≠ t.place c.recordPath ∧
    (l ∈ t.wayTo (ArtifactCache.folderOf c.path) → t.isFolder l = true)))

/-- Whatever is written of the collection, reading gives it again. -/
def ArtifactKind.Keeps (kind : ArtifactKind) (c : Collection) (names : ArtifactNames) : Prop :=
  ∀ content, kind.write c names = .ok content → kind.read content = .ok (.ofCollection c names)

theorem ArtifactKind.keeps_binary {c : Collection} {names : ArtifactNames} (regular : c.Regular)
    (named : names.className ≠ "") : ArtifactKind.binary.Keeps c names :=
  fun _ written => Artifact.readBinary_of_regular regular named written

/-- The second collection is what an artifact of the first one is read as. -/
def ReadsBack (kind : ArtifactKind) (className : String) (loaded c : Collection) : Prop :=
  ∃ content archive, kind.write loaded { className := className } = .ok content ∧
    kind.read content = .ok archive ∧ archive.build = .ok c

theorem ReadsBack.rules_of_keeps {kind : ArtifactKind} {className : String} {loaded c : Collection}
    (h : ReadsBack kind className loaded c) (regular : loaded.Regular)
    (keeps : kind.Keeps loaded { className := className }) : c.rules = loaded.rules := by
  obtain ⟨content, archive, written, read, built⟩ := h
  rw [keeps content written] at read
  cases read
  rw [Archive.build_ofCollection regular] at built
  cases built
  rfl

namespace Engine

variable {L : Type} {e : Engine L} {cache : ArtifactCache} {className : String} {t t' : FileTree}
  {c : Collection}

theorem named_of_artifact? (asked : e.artifact? = some (cache, className)) : cache.Named := by
  unfold artifact? at asked
  split at asked
  · rename_i dir name _ _
    cases asked
    obtain ⟨front, text⟩ := (Path.mk dir).join_text
      ⟨className ++ "." ++ e.settings.artifactKind.extension⟩
    refine ⟨⟨front ++ className⟩, "." ++ e.settings.artifactKind.extension, ?_, ?_⟩
    · cases e.settings.artifactKind
      · exact ⟨'b', _, rfl, by decide, by decide⟩
      · exact ⟨'y', _, rfl, by decide, by decide⟩
    · rw [Path.addText, Path.mk.injEq, text]
      simp [String.append_assoc]
  · cases asked

theorem verify_of_artifact? (asked : e.artifact? = some (cache, className)) :
    cache.verify = e.settings.debug := by
  unfold artifact? at asked
  split at asked
  · cases asked
    rfl
  · cases asked

theorem reads_of_restore (h : e.restore cache t = .ok c) :
    ∃ f archive, t.fileAt? (t.place cache.path) = some f ∧
      e.settings.artifactKind.read f.content = .ok archive ∧ archive.build = .ok c := by
  unfold restore at h
  obtain ⟨bytes, read, rest⟩ := do_ok_iff.mp h
  obtain ⟨archive, decoded, built⟩ := do_ok_iff.mp rest
  rw [mapError_ok_iff] at read decoded built
  unfold ArtifactCache.read at read
  split at read
  · rename_i found
    cases read
    obtain ⟨f, at_path, rfl⟩ := Option.map_eq_some_iff.mp found
    exact ⟨f, archive, (file?_eq_some_iff.mp at_path).2, decoded, built⟩
  · cases read

theorem readsBack_of_restore {content : Bytes} {modified : Option Moment} {restored : Collection}
    (h : e.restore cache t = .ok restored)
    (written : e.settings.artifactKind.write c { className := className } = .ok content)
    (there : t.fileAt? (t.place cache.path) = some ⟨content, modified⟩) :
    ReadsBack e.settings.artifactKind className c restored := by
  obtain ⟨f, archive, at_path, decoded, built⟩ := reads_of_restore h
  rw [there] at at_path
  cases at_path
  exact ⟨content, archive, written, decoded, built⟩

theorem rules_of_restore (binary : e.settings.artifactKind = .binary) (named : className ≠ "")
    (regular : c.Regular) {content : Bytes} {modified : Option Moment}
    (written : e.settings.artifactKind.write c { className := className } = .ok content)
    (there : t.fileAt? (t.place cache.path) = some ⟨content, modified⟩) {restored : Collection}
    (h : e.restore cache t = .ok restored) : restored.rules = c.rules := by
  have reads := readsBack_of_restore h written there
  rw [binary] at reads
  exact reads.rules_of_keeps regular (ArtifactKind.keeps_binary regular named)

variable [Loads L]

/-- What a resolution can do. -/
inductive Resolution (e : Engine L) (cache : ArtifactCache) (className : String) (t : FileTree) :
    Except EngineError Collection → FileTree → Prop
  | fresh (fresh : cache.isFresh t = true) : Resolution e cache className t (e.restore cache t) t
  | unloaded {err} (failed : e.load t = .error err) : Resolution e cache className t (.error err) t
  | unwritten {c err} (loaded : e.load t = .ok c)
      (failed : e.settings.artifactKind.write c { className := className } = .error err) :
      Resolution e cache className t (.error (.artifact err)) t
  | unstored {c content err t'} (loaded : e.load t = .ok c)
      (written : e.settings.artifactKind.write c { className := className } = .ok content)
      (failed : cache.write t content c.resources = (.error err, t')) :
      Resolution e cache className t (.error (.cache err)) t'
  | stored {c content t'} (loaded : e.load t = .ok c)
      (written : e.settings.artifactKind.write c { className := className } = .ok content)
      (stored : cache.write t content c.resources = (.ok (), t')) :
      Resolution e cache className t (e.restore cache t') t'

theorem resolution (asked : e.artifact? = some (cache, className)) (t : FileTree) :
    Resolution e cache className t (e.resolve t).1 (e.resolve t).2 := by
  unfold resolve
  rw [asked]
  dsimp only
  split
  · exact .fresh ‹_›
  · unfold rebuild
    cases loaded : e.load t with
    | error err => exact .unloaded loaded
    | ok c =>
      dsimp only
      cases written : e.settings.artifactKind.write c { className := className } with
      | error err => exact .unwritten loaded written
      | ok content =>
        dsimp only
        generalize stored : cache.write t content c.resources = result
        obtain ⟨outcome, t'⟩ := result
        cases outcome with
        | error err => exact .unstored loaded written stored
        | ok _ => exact .stored loaded written stored

/-- The artifact and its record are those of a collection that was loaded from an earlier tree. Since
then no file was added and no folder taken away. -/
structure Recorded (e : Engine L) (cache : ArtifactCache) (className : String) (t origin : FileTree)
    (c : Collection) : Prop where
  loaded : e.load origin = .ok c
  artifact : ∃ content modified,
    e.settings.artifactKind.write c { className := className } = .ok content ∧
      t.fileAt? (t.place cache.path) = some ⟨content, modified⟩
  record : ∃ stamps modified, ArtifactCache.stampAll origin c.resources = .ok stamps ∧
    t.fileAt? (t.place cache.recordPath) = some ⟨Wire.encodeRun Stamp.encode stamps, modified⟩
  current : t.current = origin.current
  files : ∀ l, l ≠ t.place cache.path → l ≠ t.place cache.recordPath →
    (t.fileAt? l).isSome = true → (origin.fileAt? l).isSome = true
  kept : ∀ l, origin.isFolder l = true → t.isFolder l = true
  within : ∀ l, t.isFolder l = true →
    origin.isFolder l = true ∨ l ∈ origin.wayTo (ArtifactCache.folderOf cache.path)
  ready : cache.Ready t

section

variable {origin : FileTree} {p : Path}

theorem Recorded.missing (recorded : e.Recorded cache className t origin c)
    (clear : cache.Clear origin p) (absent : origin.isFile p = false) : t.isFile p = false := by
  have ways := wayTo_congr recorded.current p
  have places := place_congr recorded.current
  rw [Bool.eq_false_iff]
  intro present
  obtain ⟨f, found⟩ := Option.isSome_iff_exists.mp present
  obtain ⟨leads, there⟩ := file?_eq_some_iff.mp found
  obtain ⟨not_artifact, not_record, _⟩ := clear _ (place_mem_wayTo origin p)
  have was : (origin.fileAt? (t.place p)).isSome = true :=
    recorded.files _ (by rw [places, places]; exact not_artifact)
      (by rw [places, places]; exact not_record) (Option.isSome_iff_exists.mpr ⟨f, there⟩)
  have led : origin.find? p = some (t.place p) := by
    -- A folder on the way that is new would be one made for the artifact.
    refine find?_keeps recorded.current.symm (fun l hl folder => ?_) (.inr was) leads
    rw [ways] at hl
    exact (recorded.within l folder).elim id fun made => (clear l hl).2.2 made
  obtain ⟨g, at_place⟩ := Option.isSome_iff_exists.mp was
  rw [isFile, file?, led, Option.bind_some, at_place] at absent
  cases absent

/-- A file that was opened is still the same where its stamp, or that of the same file under another
path, tells so. -/
theorem Recorded.sameFile (recorded : e.Recorded cache className t origin c) {q : Path} {f f' : File}
    (same : p.same q = true) (present : origin.isFile p = true) (was : origin.file? q = some f)
    (is : t.file? q = some f') (content : f'.content = f.content) :
    Loader.SameFile origin t p := by
  have places := place_congr recorded.current
  have place_eq := origin.place_of_same same
  obtain ⟨g, found⟩ := Option.isSome_iff_exists.mp present
  obtain ⟨leads, there⟩ := file?_eq_some_iff.mp found
  have at_place : t.fileAt? (origin.place p) = some f' := by
    rw [place_eq, ← places]
    exact (file?_eq_some_iff.mp is).2
  have still : t.find? p = some (origin.place p) :=
    find?_keeps recorded.current (fun l _ => recorded.kept l)
      (.inr (Option.isSome_iff_exists.mpr ⟨f', at_place⟩)) leads
  have old : g = f := by
    rw [place_eq, (file?_eq_some_iff.mp was).2] at there
    cases there
    rfl
  constructor
  · rw [still, leads]
  · rw [read?, read?, file?, still, Option.bind_some, at_place, found, Option.map_some, Option.map_some,
      content, old]

/-- While the artifact is fresh, a load gives the collection that it was made from. -/
theorem Recorded.load_eq {e : Engine Loader} (recorded : e.Recorded cache className t origin c)
    (fresh : cache.isFresh t = true)
    (clear : ∀ p, e.loader.Probes origin e.resource e.settings.resourceType none p →
      cache.Clear origin p)
    (distinct : ∀ l f f', l ≠ origin.place cache.path → l ≠ origin.place cache.recordPath →
      origin.fileAt? l = some f → t.fileAt? l = some f' → f'.modified = f.modified →
        f'.content.length = f.content.length →
          (cache.verify = true → Blake3.digest f'.content = Blake3.digest f.content) →
            f'.content = f.content)
    (measured : ∀ l f, origin.fileAt? l = some f → f.Measured)
    (measured' : ∀ l f, t.fileAt? l = some f → f.Measured) : e.load t = .ok c := by
  have loads := mapError_ok_iff.mp recorded.loaded
  have places := place_congr recorded.current
  obtain ⟨stamps, modified, stamped, at_record⟩ := recorded.record
  have read : cache.stamps? t = some stamps := by
    obtain ⟨f, found⟩ := ArtifactCache.record_of_isFresh fresh
    have there := (file?_eq_some_iff.mp found).2
    rw [at_record, Option.some.injEq] at there
    subst there
    exact ArtifactCache.stamps?_of_record found rfl (measured' _ _ at_record).length stamped
      fun p _ f at_p => measured _ f (file?_eq_some_iff.mp at_p).2
  refine mapError_ok_iff.mpr (Loader.load_transfer loads
    (fun p probed => recorded.missing (clear p probed)) fun p mem => ?_)
  obtain ⟨present, probed⟩ := Loader.probes_of_mem_files loads mem
  -- The record has one stamp for all the paths that are the same.
  obtain ⟨q, listed, same⟩ := Collection.mem_distinct mem
  obtain ⟨f, f', was, is, time, length, digest⟩ :=
    ArtifactCache.same_of_isFresh read stamped fresh listed
  refine recorded.sameFile same present was is ?_
  obtain ⟨not_artifact, not_record, _⟩ := clear p probed _ (place_mem_wayTo origin p)
  rw [origin.place_of_same same] at not_artifact not_record
  refine distinct (origin.place q) f f' not_artifact not_record (file?_eq_some_iff.mp was).2 ?_ time
    length digest
  rw [← places]
  exact (file?_eq_some_iff.mp is).2

end

theorem recorded_of_write (named : cache.Named) {content : Bytes} (loaded : e.load t = .ok c)
    (written : e.settings.artifactKind.write c { className := className } = .ok content)
    (stored : cache.write t content c.resources = (.ok (), t')) :
    e.Recorded cache className t' t c := by
  obtain ⟨stamps, stamped, files⟩ := ArtifactCache.written_of_ok named stored
  have places := place_congr files.current
  obtain ⟨modified, at_artifact⟩ := files.artifact
  obtain ⟨modified', at_record⟩ := files.record
  exact {
    loaded := loaded
    artifact := ⟨content, modified, written, by rw [places]; exact at_artifact⟩
    record := ⟨stamps, modified', stamped, by rw [places]; exact at_record⟩
    current := files.current
    files := fun x other more there => by
      rw [places] at other more
      rwa [files.others x other more] at there
    kept := files.kept
    within := files.within
    ready := files.ready }

end Engine

end RuleRegistry
