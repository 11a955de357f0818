import RuleRegistry.Proofs.ArtifactFiles
import RuleRegistry.Proofs.StampRecord

namespace RuleRegistry

open FileTree Outcome

namespace ArtifactCache

variable {t t' later : FileTree} {p : Path} {content : Bytes} {files : List Path} {c : ArtifactCache}

/-- The folder of the artifact is there or can be made, and both files can be written in it. -/
structure Writable (c : ArtifactCache) (t : FileTree) : Prop where
  folder : (t.createFolder (folderOf c.path)).1 = true
  artifact : ((t.createFolder (folderOf c.path)).2.target? c.path).isSome = true
  record : ((t.createFolder (folderOf c.path)).2.target? c.recordPath).isSome = true

/-- A file to record: one that can be read, and neither the artifact nor its record. -/
structure Source (c : ArtifactCache) (t : FileTree) (p : Path) : Prop where
  readable : t.isFile p = true
  measured : ∀ f, t.file? p = some f → f.Measured
  not_artifact : t.place p ≠ t.place c.path
  not_record : t.place p ≠ t.place c.recordPath

theorem Writable.hasName (h : c.Writable t) : c.path.HasName := by
  obtain ⟨l, target⟩ := Option.isSome_iff_exists.mp h.artifact
  exact hasName_of_target? target

theorem Settled.file?_eq {f : File} (h : Settled t p) (there : t.fileAt? (t.place p) = some f) :
    t.file? p = some f :=
  file?_eq_some_iff.mpr ⟨find?_of_target? h.target (by rw [there]; rfl), there⟩

section

variable {stamps : List Stamp} (h : c.Written t t' content stamps)

include h

theorem Written.read? : t'.read? c.path = some content := by
  obtain ⟨modified, there⟩ := h.artifact
  rw [← place_congr h.current] at there
  rw [FileTree.read?, h.ready.artifact.file?_eq there, Option.map_some]

theorem Written.read?_record : t'.read? c.recordPath = some (Wire.encodeRun Stamp.encode stamps) := by
  obtain ⟨modified, there⟩ := h.record
  rw [← place_congr h.current] at there
  rw [FileTree.read?, h.ready.record.file?_eq there, Option.map_some]

theorem Written.file?_source (source : c.Source t p) : t'.file? p = t.file? p := by
  obtain ⟨f, there⟩ := Option.isSome_iff_exists.mp source.readable
  obtain ⟨found, at_place⟩ := file?_eq_some_iff.mp there
  have same := h.others _ source.not_artifact source.not_record
  have still : (t'.fileAt? (t.place p)).isSome = true := by rw [same, at_place]; rfl
  rw [there, file?_eq_some_iff, place_congr h.current]
  exact ⟨find?_keeps h.current (fun x _ => h.kept x) (.inr still) found, same.trans at_place⟩

end

theorem isFresh_of_no_artifact (missing : t.isFile c.path = false) : c.isFresh t = false := by
  rw [isFresh, missing, Bool.false_and]

theorem isFresh_of_no_stamps (missing : c.stamps? t = none) : c.isFresh t = false := by
  rw [isFresh, missing, Bool.and_false]

/-- What a write of the artifact leaves: the content is read back, and from then on the artifact is
fresh exactly while the files have the times and lengths of before the write, and the digests too
where contents are compared. -/
structure Stored (c : ArtifactCache) (t t' : FileTree) (content : Bytes) (files : List Path) : Prop where
  read : c.read t' = .ok content
  fresh : c.isFresh t' = true
  stays : ∀ later, later.isFile c.path = true → later.read? c.recordPath = t'.read? c.recordPath →
    (c.isFresh later = true ↔ ∀ p ∈ files, Stamp.Unchanged c.verify t later p)

theorem Written.stored {stamps : List Stamp} (h : c.Written t t' content stamps)
    (stamped : stampAll t files = .ok stamps) (sources : ∀ p ∈ files, c.Source t p)
    (few : files.length < 0x10000000000000000) : c.Stored t t' content files := by
  have measured : ∀ p ∈ files, ∀ f, t.file? p = some f → f.Measured :=
    fun p hp => (sources p hp).measured
  have stays : ∀ later, later.isFile c.path = true →
      later.read? c.recordPath = t'.read? c.recordPath →
        (c.isFresh later = true ↔ ∀ p ∈ files, Stamp.Unchanged c.verify t later p) := by
    intro later artifact record
    have read := stamps?_of_few (record.trans h.read?_record) rfl few stamped measured
    rw [isFresh_iff read stamped]
    exact and_iff_right artifact
  have artifact : t'.isFile c.path = true := by
    have read := h.read?
    rw [FileTree.read?, Option.map_eq_some_iff] at read
    obtain ⟨f, there, _⟩ := read
    rw [isFile, there]
    rfl
  refine ⟨by rw [ArtifactCache.read, h.read?], (stays t' artifact rfl).mpr fun p hp => ?_, stays⟩
  obtain ⟨f, there⟩ := Option.isSome_iff_exists.mp (sources p hp).readable
  exact ⟨f, f, there, (h.file?_source (sources p hp)).trans there, rfl, rfl, fun _ => rfl⟩

/-- The artifact or the record is missing, or there are no stamps in the record. -/
inductive Broken (c : ArtifactCache) (t : FileTree) : Prop where
  | artifact (missing : t.isFile c.path = false)
  | record (missing : t.isFile c.recordPath = false)
  | stamps {bytes : Bytes} (there : t.read? c.recordPath = some bytes)
      (unread : Wire.decodeRun Stamp.decode bytes = none)

theorem Broken.isFresh (h : c.Broken t) : c.isFresh t = false := by
  cases h with
  | artifact missing => exact isFresh_of_no_artifact missing
  | record missing =>
    refine isFresh_of_no_stamps ?_
    rw [isFile, Option.isSome_eq_false_iff, Option.isNone_iff_eq_none] at missing
    rw [stamps?, FileTree.read?, missing]
    rfl
  | stamps there unread =>
    refine isFresh_of_no_stamps ?_
    rw [stamps?, there, Option.bind_some, unread]
    rfl

end ArtifactCache

end RuleRegistry
