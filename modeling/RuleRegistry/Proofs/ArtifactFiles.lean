import RuleRegistry.Artifact.Cache
import RuleRegistry.Proofs.Places

namespace RuleRegistry

open FileTree

namespace ArtifactCache

variable {t t' : FileTree} {p : Path} {content : Bytes} {c : ArtifactCache}

/-- The folder of a file is there with all that is on the way to it, and the file can be written. -/
structure Settled (t : FileTree) (p : Path) : Prop where
  folder : t.createFolder (folderOf p) = (true, t)
  target : t.target? p = some (t.place p)

structure Replaced (t t' : FileTree) (p : Path) (content : Bytes) : Prop where
  current : t'.current = t.current
  written : ∃ modified, t'.fileAt? (t.place p) = some ⟨content, modified⟩
  others : ∀ x, x ≠ t.place p → t'.fileAt? x = t.fileAt? x
  kept : ∀ x, t.isFolder x = true → t'.isFolder x = true
  within : ∀ x, t'.isFolder x = true → t.isFolder x = true ∨ x ∈ t.wayTo (folderOf p)
  settled : Settled t' p

theorem Settled.keeps (h : Settled t p) (current : t'.current = t.current)
    (kept : ∀ x, t.isFolder x = true → t'.isFolder x = true)
    (free : t'.isFolder (t.place p) = false) : Settled t' p where
  folder := createFolder_again h.folder current kept
  target := by
    rw [place_congr current]
    exact target?_keeps current kept free h.target

theorem replaced_of_ok (h : replace t p content = (.ok (), t')) : Replaced t t' p content := by
  unfold replace at h
  have grown := createFolder_grown t (folderOf p)
  generalize made : t.createFolder (folderOf p) = result at h grown
  obtain ⟨done, s⟩ := result
  cases done with
  | false => cases h
  | true =>
    dsimp only at h grown
    split at h
    · cases h
    · rename_i s' done
      cases h
      obtain ⟨target, current, folders, modified, written⟩ := writeNow?_eq_some done
      have same_place : s.place p = t.place p := place_congr grown.current p
      have same_folders := isFolder_congr current folders
      exact {
        current := current.trans grown.current
        written := ⟨modified, by rw [written, if_pos same_place.symm]⟩
        others := fun x other => by
          rw [written, if_neg (same_place ▸ other), fileAt?, grown.files, fileAt?]
        kept := fun x hx => (same_folders x).trans (grown.kept x hx)
        within := fun x hx => grown.within x ((same_folders x).symm.trans hx)
        settled := {
          folder := createFolder_again made (current.trans grown.current)
            fun x hx => (same_folders x).trans hx
          target := by
            rw [place_congr current]
            exact target?_keeps current (fun x hx => (same_folders x).trans hx)
              ((same_folders _).trans (place_of_target? target).2) target } }

theorem grown_of_error {e : CacheError} (h : replace t p content = (.error e, t')) :
    Grown t t' (t.wayTo (folderOf p)) := by
  unfold replace at h
  have grown := createFolder_grown t (folderOf p)
  generalize t.createFolder (folderOf p) = result at h grown
  obtain ⟨done, s⟩ := result
  cases done with
  | false =>
    cases h
    exact grown
  | true =>
    dsimp only at h
    split at h
    · cases h
      exact grown
    · cases h

theorem replace_of_settled (h : Settled t p) (content : Bytes) :
    ∃ t', replace t p content = (.ok (), t') := by
  obtain ⟨s, written⟩ := writeNow?_isSome h.target content
  refine ⟨s, ?_⟩
  unfold replace
  rw [h.folder]
  dsimp only
  rw [written]

theorem isFolder_of_replace (folder : t.createFolder (folderOf p) = (true, t))
    (replaced : replace t p content = (.ok (), t')) (x : Location) : t'.isFolder x = t.isFolder x := by
  unfold replace at replaced
  rw [folder] at replaced
  dsimp only at replaced
  cases done : t.writeNow? p content with
  | none =>
    rw [done] at replaced
    cases replaced
  | some s =>
    rw [done] at replaced
    cases replaced
    obtain ⟨_, current, folders, _⟩ := writeNow?_eq_some done
    exact isFolder_congr current folders x

/-- An artifact whose path ends like one. -/
def Named (c : ArtifactCache) : Prop :=
  ∃ (base : Path) (s : String), Path.IsEnding s ∧ c.path = base.addText s

theorem isEnding_meta : Path.IsEnding ".meta" := ⟨'m', _, rfl, by decide, by decide⟩

theorem folderOf_recordPath (named : c.path.HasName) : folderOf c.recordPath = folderOf c.path := by
  rw [folderOf, folderOf, recordPath, named.parent?_addText isEnding_meta]

theorem place_recordPath_ne (named : c.path.HasName) (t : FileTree) :
    t.place c.recordPath ≠ t.place c.path := t.place_addText_ne named isEnding_meta

theorem Named.hasName (h : c.Named) : c.path.HasName := by
  obtain ⟨base, s, ending, path_eq⟩ := h
  rw [path_eq]
  exact base.hasName_addText ending

/-- Both files can be written without making a folder. -/
structure Ready (c : ArtifactCache) (t : FileTree) : Prop where
  artifact : Settled t c.path
  record : Settled t c.recordPath

theorem Ready.keeps (h : c.Ready t) (current : t'.current = t.current)
    (folders : ∀ x, t'.isFolder x = t.isFolder x) : c.Ready t' where
  artifact := h.artifact.keeps current (fun x hx => (folders x).trans hx)
    ((folders _).trans (place_of_target? h.artifact.target).2)
  record := h.record.keeps current (fun x hx => (folders x).trans hx)
    ((folders _).trans (place_of_target? h.record.target).2)

structure Written (c : ArtifactCache) (t t' : FileTree) (content : Bytes) (stamps : List Stamp) :
    Prop where
  current : t'.current = t.current
  artifact : ∃ modified, t'.fileAt? (t.place c.path) = some ⟨content, modified⟩
  record : ∃ modified, t'.fileAt? (t.place c.recordPath) =
    some ⟨Wire.encodeRun Stamp.encode stamps, modified⟩
  others : ∀ x, x ≠ t.place c.path → x ≠ t.place c.recordPath → t'.fileAt? x = t.fileAt? x
  kept : ∀ x, t.isFolder x = true → t'.isFolder x = true
  within : ∀ x, t'.isFolder x = true → t.isFolder x = true ∨ x ∈ t.wayTo (folderOf c.path)
  ready : c.Ready t'

theorem written_of_hasName (named : c.path.HasName) {files : List Path}
    (h : c.write t content files = (.ok (), t')) :
    ∃ stamps, stampAll t files = .ok stamps ∧ c.Written t t' content stamps := by
  unfold write at h
  split at h
  · cases h
  · rename_i stamps stamped
    split at h
    · cases h
    · rename_i s first
      have one := replaced_of_ok first
      have two := replaced_of_ok h
      have record_place : s.place c.recordPath = t.place c.recordPath := place_congr one.current _
      have apart := place_recordPath_ne named t
      have folder_there : s.createFolder (folderOf c.recordPath) = (true, s) := by
        rw [folderOf_recordPath named]
        exact one.settled.folder
      have folders := isFolder_of_replace folder_there h
      refine ⟨stamps, stamped, {
        current := two.current.trans one.current
        artifact := ?_
        record := record_place ▸ two.written
        others := fun x other more => ?_
        kept := fun x hx => (folders x).trans (one.kept x hx)
        within := fun x hx => one.within x ((folders x).symm.trans hx)
        ready := ⟨?_, two.settled⟩ }⟩
      · obtain ⟨modified, there⟩ := one.written
        exact ⟨modified, (two.others _ (record_place ▸ apart.symm)).trans there⟩
      · exact (two.others x (record_place ▸ more)).trans (one.others x other)
      · exact one.settled.keeps two.current (fun x hx => (folders x).trans hx)
          ((folders _).trans (place_of_target? one.settled.target).2)

theorem written_of_ok (named : c.Named) {files : List Path}
    (h : c.write t content files = (.ok (), t')) :
    ∃ stamps, stampAll t files = .ok stamps ∧ c.Written t t' content stamps :=
  written_of_hasName named.hasName h

theorem record_of_write_error (named : c.Named) {files : List Path} {e : CacheError}
    (h : c.write t content files = (.error e, t')) :
    t'.current = t.current ∧
      t'.fileAt? (t.place c.recordPath) = t.fileAt? (t.place c.recordPath) := by
  unfold write at h
  split at h
  · cases h
    exact ⟨rfl, rfl⟩
  · split at h
    · rename_i error s first
      cases h
      have grown := grown_of_error first
      exact ⟨grown.current, by rw [fileAt?, grown.files, fileAt?]⟩
    · rename_i s first
      have one := replaced_of_ok first
      have grown := grown_of_error h
      refine ⟨grown.current.trans one.current, ?_⟩
      rw [← one.others _ (place_recordPath_ne named.hasName t), fileAt?, grown.files, fileAt?]

theorem eq_of_write_error (ready : c.Ready t) {files : List Path} {e : CacheError}
    (h : c.write t content files = (.error e, t')) : t' = t := by
  unfold write at h
  split at h
  · cases h
    rfl
  · split at h
    · rename_i first
      obtain ⟨_, replaced⟩ := replace_of_settled ready.artifact content
      rw [replaced] at first
      cases first
    · rename_i s first
      have current := (replaced_of_ok first).current
      have folders := isFolder_of_replace ready.artifact.folder first
      obtain ⟨_, replaced⟩ := replace_of_settled (ready.keeps current folders).record
        (Wire.encodeRun Stamp.encode _)
      rw [replaced] at h
      cases h

end ArtifactCache

end RuleRegistry
