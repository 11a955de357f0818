import RuleRegistry.Proofs.Freshness
import RuleRegistry.Proofs.SharedArtifact

/-!
Rebuilds with edits between their steps. The files are read in one step and stamped in a later one,
so an artifact that stays fresh has stamps of the files as they were when it was written, and rules of
the files as they were when they were loaded.
-/

namespace RuleRegistry

open FileTree Outcome Source

/-- A change of the file at a place; without a file, the old one is taken away. -/
structure Edit where
  place : Location
  file : Option File

namespace FileTree

variable {t t' : FileTree} {l : Location} {p : Path} {xs ys : List Edit}

def edit (t : FileTree) (x : Edit) : FileTree :=
  match x.file with
  | some f => t.put x.place f
  | none => t.drop x.place

def edits (t : FileTree) (xs : List Edit) : FileTree := xs.foldl edit t

theorem edits_append : t.edits (xs ++ ys) = (t.edits xs).edits ys := List.foldl_append

theorem fileAt?_edit (t : FileTree) (x : Edit) (l : Location) :
    (t.edit x).fileAt? l = if l = x.place then x.file else t.fileAt? l := by
  unfold edit
  split
  · rename_i f there
    rw [fileAt?_put, there]
  · rename_i taken
    rw [fileAt?_drop, taken]

/-- After edits a place has the file of the last edit of it, and without one that of before. -/
theorem fileAt?_edits (t : FileTree) (xs : List Edit) (l : Location) :
    (∀ x ∈ xs, x.place ≠ l) ∧ (t.edits xs).fileAt? l = t.fileAt? l ∨
      ∃ x ∈ xs, x.place = l ∧ (t.edits xs).fileAt? l = x.file := by
  induction xs generalizing t with
  | nil => exact .inl ⟨nofun, rfl⟩
  | cons x rest ih =>
    rcases ih (t.edit x) with ⟨untouched, same⟩ | ⟨y, listed, here, now⟩
    · by_cases here : x.place = l
      · refine .inr ⟨x, List.mem_cons_self, here, same.trans ?_⟩
        rw [fileAt?_edit, if_pos here.symm]
      · refine .inl ⟨List.forall_mem_cons.mpr ⟨here, untouched⟩, same.trans ?_⟩
        rw [fileAt?_edit, if_neg (Ne.symm here)]
    · exact .inr ⟨y, List.mem_cons_of_mem _ listed, here, now⟩

theorem frame_edits (t : FileTree) (xs : List Edit) :
    (t.edits xs).current = t.current ∧ (t.edits xs).folders = t.folders := by
  induction xs generalizing t with
  | nil => exact ⟨rfl, rfl⟩
  | cons x rest ih =>
    obtain ⟨current, folders⟩ := ih (t.edit x)
    refine ⟨current.trans ?_, folders.trans ?_⟩ <;> (unfold edit; split <;> rfl)

theorem place_edits (t : FileTree) (xs : List Edit) (p : Path) : (t.edits xs).place p = t.place p :=
  place_congr (frame_edits t xs).1 p

/-- A file is found as before where neither the folders nor what stands at its place has changed. -/
theorem file?_congr (current : t'.current = t.current) (folders : t'.folders = t.folders)
    (same : t'.fileAt? (t.place p) = t.fileAt? (t.place p)) : t'.file? p = t.file? p := by
  have places := place_congr current p
  have kept := isFolder_congr current folders
  refine Option.ext fun f => ?_
  rw [file?_eq_some_iff, file?_eq_some_iff, places, same]
  refine and_congr_left fun there => ?_
  have standing : (t.fileAt? (t.place p)).isSome = true := by rw [there]; rfl
  constructor
  · intro found
    exact find?_keeps current.symm (fun x _ => (kept x).symm.trans) (.inr (places ▸ standing)) found
  · intro found
    exact find?_keeps current (fun x _ => (kept x).trans) (.inr (same ▸ standing)) found

theorem fileAt?_unedited (untouched : ∀ x ∈ xs, x.place ≠ l) :
    (t.edits xs).fileAt? l = t.fileAt? l := by
  rcases fileAt?_edits t xs l with ⟨_, same⟩ | ⟨x, listed, here, _⟩
  · exact same
  · exact absurd here (untouched x listed)

theorem file?_unedited (untouched : ∀ x ∈ xs, x.place ≠ t.place p) :
    (t.edits xs).file? p = t.file? p := by
  obtain ⟨current, folders⟩ := frame_edits t xs
  exact file?_congr current folders (fileAt?_unedited untouched)

end FileTree

/-- Edits between the steps of a rebuild, and after it. -/
structure Gaps where
  beforeLoad : List Edit := []
  beforeDump : List Edit := []
  beforeWrite : List Edit := []
  beforeRestore : List Edit := []
  afterwards : List Edit := []

namespace Gaps

/-- The files that are loaded. -/
def origin (g : Gaps) (t : FileTree) : FileTree := t.edits g.beforeLoad

/-- The edits after the load and before the stamps. -/
def window (g : Gaps) : List Edit := g.beforeDump ++ g.beforeWrite

/-- The files that are stamped. -/
def stamped (g : Gaps) (t : FileTree) : FileTree := (g.origin t).edits g.window

def since (g : Gaps) : List Edit := g.beforeRestore ++ g.afterwards

/-- No edit falls between the steps. -/
structure Calm (g : Gaps) : Prop where
  beforeLoad : g.beforeLoad = []
  beforeDump : g.beforeDump = []
  beforeWrite : g.beforeWrite = []
  beforeRestore : g.beforeRestore = []

theorem place_origin (g : Gaps) (t : FileTree) (p : Path) : (g.origin t).place p = t.place p :=
  place_edits _ _ p

theorem place_stamped (g : Gaps) (t : FileTree) (p : Path) : (g.stamped t).place p = t.place p :=
  (place_edits _ _ p).trans (g.place_origin t p)

end Gaps

namespace Engine

variable {e : Engine Loader} {cache : ArtifactCache} {className : String} {t s : FileTree} {g : Gaps}
  {c : Collection} {p : Path}

/-- A rebuild up to the write, amid edits. -/
def storeAmid (e : Engine Loader) (cache : ArtifactCache) (className : String) (g : Gaps)
    (t : FileTree) : Except EngineError Collection × FileTree :=
  let origin := t.edits g.beforeLoad
  match e.load origin with
  | .error err => (.error err, origin)
  | .ok c =>
    let dumped := origin.edits g.beforeDump
    match e.settings.artifactKind.write c { className := className } with
    | .error err => (.error (.artifact err), dumped)
    | .ok content =>
      match cache.write (dumped.edits g.beforeWrite) content c.resources with
      | (.error err, s) => (.error (.cache err), s)
      | (.ok (), s) => (.ok c, s)

/-- A resolution that rebuilds the artifact, amid edits. -/
def resolveAmid (e : Engine Loader) (cache : ArtifactCache) (className : String) (g : Gaps)
    (t : FileTree) : Except EngineError Collection × FileTree :=
  match e.storeAmid cache className g t with
  | (.error err, s) => (.error err, s)
  | (.ok _, s) => (e.restore cache (s.edits g.beforeRestore), s.edits g.beforeRestore)

/-- The files after a resolution amid edits, and after the edits that follow it. -/
def finalAmid (e : Engine Loader) (cache : ArtifactCache) (className : String) (g : Gaps)
    (t : FileTree) : FileTree := (e.resolveAmid cache className g t).2.edits g.afterwards

/-- Without edits between its steps this is how an engine resolves its collection where the artifact
is not fresh. -/
theorem resolveAmid_of_calm (asked : e.artifact? = some (cache, className))
    (stale : cache.isFresh t = false) (calm : g.Calm) :
    e.resolveAmid cache className g t = e.resolve t := by
  rw [resolve, asked]
  simp only [resolveAmid, storeAmid, rebuild, calm.beforeLoad, calm.beforeDump, calm.beforeWrite,
    calm.beforeRestore, edits, List.foldl_nil, stale]
  cases e.load t with
  | error err => rfl
  | ok c =>
    dsimp only
    cases e.settings.artifactKind.write c { className := className } with
    | error err => rfl
    | ok content =>
      dsimp only
      generalize cache.write t content c.resources = result
      obtain ⟨outcome, t'⟩ := result
      cases outcome <;> rfl

theorem resolveAmid_of_storeAmid (stored : e.storeAmid cache className g t = (.ok c, s)) :
    e.resolveAmid cache className g t =
      (e.restore cache (s.edits g.beforeRestore), s.edits g.beforeRestore) := by
  rw [resolveAmid, stored]

theorem finalAmid_of_storeAmid (stored : e.storeAmid cache className g t = (.ok c, s)) :
    e.finalAmid cache className g t = s.edits g.since := by
  rw [finalAmid, resolveAmid_of_storeAmid stored, Gaps.since, edits_append]

theorem stored_of_storeAmid (h : e.storeAmid cache className g t = (.ok c, s)) :
    e.load (g.origin t) = .ok c ∧ ∃ content,
      e.settings.artifactKind.write c { className := className } = .ok content ∧
        cache.write (g.stamped t) content c.resources = (.ok (), s) := by
  rw [Gaps.stamped, Gaps.window, edits_append, Gaps.origin]
  unfold storeAmid at h
  dsimp only at h
  split at h
  · cases h
  · rename_i loaded
    split at h
    · cases h
    · rename_i content written
      split at h
      · cases h
      · rename_i stored
        cases h
        exact ⟨loaded, content, written, stored⟩

/-- The edits after the write leave the artifact and its record alone and never give a file the time
of its stamp again, and what is recorded are files that can be. -/
structure Observed (cache : ArtifactCache) (g : Gaps) (t : FileTree) (files : List Path) : Prop where
  spared : ∀ x ∈ g.since, x.place ≠ t.place cache.path ∧ x.place ≠ t.place cache.recordPath
  dated : ∀ x ∈ g.since, ∀ f f', x.file = some f → (g.stamped t).fileAt? x.place = some f' →
    f.modified ≠ f'.modified
  sources : ∀ p ∈ files, cache.Source (g.stamped t) p
  few : files.length < 0x10000000000000000

/-- A recorded file has the time of its stamp only if it was not edited after the write. -/
theorem unchanged_iff {verify : Bool} (current : s.current = t.current)
    (same : s.file? p = (g.stamped t).file? p) (readable : (g.stamped t).isFile p = true)
    (dated : ∀ x ∈ g.since, ∀ f f', x.file = some f → (g.stamped t).fileAt? x.place = some f' →
      f.modified ≠ f'.modified) :
    Stamp.Unchanged verify (g.stamped t) (s.edits g.since) p ↔ ∀ x ∈ g.since, x.place ≠ t.place p := by
  have places := place_congr current p
  constructor
  · rintro ⟨f, f', was, is, modified, _⟩
    have at_stamp := (file?_eq_some_iff.mp was).2
    have now := (file?_eq_some_iff.mp is).2
    rw [place_edits, places] at now
    rw [g.place_stamped] at at_stamp
    rcases fileAt?_edits s g.since (t.place p) with ⟨untouched, _⟩ | ⟨x, listed, here, last⟩
    · exact untouched
    · rw [last] at now
      exact absurd modified (dated x listed f' f now (here ▸ at_stamp))
  · intro untouched
    obtain ⟨f, was⟩ := Option.isSome_iff_exists.mp readable
    rw [← places] at untouched
    exact ⟨f, f, was, (file?_unedited untouched).trans (same.trans was), rfl, rfl, fun _ => rfl⟩

/-- The file is what the load read, or else what the last edit before the write left. -/
theorem loaded_or_edited (readable : (g.stamped t).isFile p = true) :
    (∀ x ∈ g.window, x.place ≠ t.place p) ∧ (g.stamped t).file? p = (g.origin t).file? p ∨
      ∃ x ∈ g.window, x.place = t.place p ∧ (g.stamped t).file? p = x.file := by
  have places := g.place_origin t p
  rcases fileAt?_edits (g.origin t) g.window (t.place p) with ⟨untouched, _⟩ | ⟨x, listed, here, last⟩
  · rw [← places] at untouched
    exact .inl ⟨places ▸ untouched, file?_unedited untouched⟩
  · obtain ⟨f, there⟩ := Option.isSome_iff_exists.mp readable
    have now := (file?_eq_some_iff.mp there).2
    rw [g.place_stamped] at now
    exact .inr ⟨x, listed, here, there.trans (now.symm.trans last)⟩

theorem written_of_storeAmid (asked : e.artifact? = some (cache, className))
    (stored : e.storeAmid cache className g t = (.ok c, s)) :
    e.load (g.origin t) = .ok c ∧ ∃ content stamps,
      e.settings.artifactKind.write c { className := className } = .ok content ∧
        ArtifactCache.stampAll (g.stamped t) c.resources = .ok stamps ∧
          cache.Written (g.stamped t) s content stamps := by
  obtain ⟨loaded, content, written, wrote⟩ := stored_of_storeAmid stored
  obtain ⟨stamps, stamped, files⟩ := ArtifactCache.written_of_ok (named_of_artifact? asked) wrote
  exact ⟨loaded, content, stamps, written, stamped, files⟩

theorem place_of_written {content : Bytes} {stamps : List Stamp}
    (files : cache.Written (g.stamped t) s content stamps) (p : Path) : s.place p = t.place p :=
  (place_congr files.current p).trans (g.place_stamped t p)

theorem isFresh_amid (asked : e.artifact? = some (cache, className))
    (stored : e.storeAmid cache className g t = (.ok c, s)) (observed : Observed cache g t c.resources) :
    cache.isFresh (s.edits g.since) = true ↔ ∀ p ∈ c.resources, ∀ x ∈ g.since, x.place ≠ t.place p := by
  obtain ⟨_, content, stamps, _, stamped, files⟩ := written_of_storeAmid asked stored
  have holds := files.stored stamped observed.sources observed.few
  have places := place_of_written files
  have current : s.current = t.current :=
    files.current.trans ((frame_edits _ _).1.trans (frame_edits _ _).1)
  -- The edits left the artifact and its record alone.
  have artifact : (s.edits g.since).file? cache.path = s.file? cache.path :=
    file?_unedited fun x listed => places cache.path ▸ (observed.spared x listed).1
  have record : (s.edits g.since).file? cache.recordPath = s.file? cache.recordPath :=
    file?_unedited fun x listed => places cache.recordPath ▸ (observed.spared x listed).2
  have there : (s.edits g.since).isFile cache.path = true := by
    rw [isFile, artifact]
    exact (Bool.and_eq_true_iff.mp holds.fresh).1
  apply (holds.stays (s.edits g.since) there (by rw [read?, record, read?])).trans
  refine forall₂_congr fun p mem => ?_
  exact unchanged_iff current (files.file?_source (observed.sources p mem))
    (observed.sources p mem).readable observed.dated

/-- A recorded file that was not edited after the write is what the load read, or else what the last
edit between load and write left. -/
theorem source_amid (asked : e.artifact? = some (cache, className))
    (stored : e.storeAmid cache className g t = (.ok c, s)) (observed : Observed cache g t c.resources)
    (mem : p ∈ c.resources) (untouched : ∀ x ∈ g.since, x.place ≠ t.place p) :
    (∀ x ∈ g.window, x.place ≠ t.place p) ∧ (s.edits g.since).file? p = (g.origin t).file? p ∨
      ∃ x ∈ g.window, x.place = t.place p ∧ (s.edits g.since).file? p = x.file := by
  obtain ⟨_, _, _, _, _, files⟩ := written_of_storeAmid asked stored
  have source := observed.sources p mem
  rw [← place_of_written files p] at untouched
  rw [file?_unedited untouched, files.file?_source source]
  exact loaded_or_edited source.readable

/-- Whatever is restored after some of the edits has the rules of the load. -/
theorem restores_amid (asked : e.artifact? = some (cache, className))
    (stored : e.storeAmid cache className g t = (.ok c, s)) (observed : Observed cache g t c.resources)
    {xs : List Edit} (part : xs ⊆ g.since) {restored : Collection}
    (h : e.restore cache (s.edits xs) = .ok restored) :
    Restores e.settings.artifactKind className c restored := by
  obtain ⟨loaded, content, _, written, _, files⟩ := written_of_storeAmid asked stored
  obtain ⟨modified, there⟩ := files.artifact
  have still : (s.edits xs).fileAt? ((s.edits xs).place cache.path) = some ⟨content, modified⟩ := by
    rw [place_edits, place_of_written files,
      fileAt?_unedited fun x listed => (observed.spared x (part listed)).1]
    rwa [g.place_stamped] at there
  exact (readsBack_of_restore h written still).restores
    (Loader.load_regular (mapError_ok_iff.mp loaded))

/-- An artifact that was rebuilt amid edits is fresh exactly while no recorded file was edited after
the write. Then each such file is what the load read or what an edit between load and write left. The
resolution itself and the engines after it restore the rules of the load in both cases. Without edits
between the steps it is the resolution of an engine. -/
theorem fresh_iff_unedited_since_write (asked : e.artifact? = some (cache, className))
    (stored : e.storeAmid cache className g t = (.ok c, s)) (observed : Observed cache g t c.resources) :
    (cache.isFresh (e.finalAmid cache className g t) = true ↔
      ∀ p ∈ c.resources, ∀ x ∈ g.since, x.place ≠ t.place p) ∧
    (cache.isFresh (e.finalAmid cache className g t) = true →
      (∀ p ∈ c.resources,
        (∀ x ∈ g.window, x.place ≠ t.place p) ∧
            (e.finalAmid cache className g t).file? p = (g.origin t).file? p ∨
          ∃ x ∈ g.window, x.place = t.place p ∧
            (e.finalAmid cache className g t).file? p = x.file) ∧
      ∀ restored, (e.resolve (e.finalAmid cache className g t)).1 = .ok restored →
        Restores e.settings.artifactKind className c restored) ∧
    (∀ restored, (e.resolveAmid cache className g t).1 = .ok restored →
      Restores e.settings.artifactKind className c restored) ∧
    (g.Calm → cache.isFresh t = false → e.resolveAmid cache className g t = e.resolve t) := by
  have fresh_iff := isFresh_amid asked stored observed
  rw [finalAmid_of_storeAmid stored]
  refine ⟨fresh_iff, fun fresh => ⟨fun p mem => ?_, fun restored h => ?_⟩, ?_, ?_⟩
  · exact source_amid asked stored observed mem (fresh_iff.mp fresh p mem)
  · rw [resolve, asked] at h
    simp only [fresh, if_true] at h
    exact restores_amid asked stored observed (List.Subset.refl _) h
  · intro restored h
    rw [resolveAmid_of_storeAmid stored] at h
    exact restores_amid asked stored observed (List.subset_append_left _ _) h
  · intro calm stale
    exact resolveAmid_of_calm asked stale calm

def interruptedEngine (debug : Bool) : Engine Loader where
  loader := {}
  resource := "rules.xml"
  settings := { cacheDir := some "cache", debug := debug }

def interruptedCache (debug : Bool) : ArtifactCache where
  path := ⟨"cache/ProjectRuleCollection.bin"⟩
  verify := debug

/-- The source gets another rule after it was loaded and before it is stamped; another file follows
in the end. -/
def editBeforeWrite : Gaps where
  beforeWrite := [⟨["rules.xml".toList], some (oneRule "2" ⟨2, 0⟩)⟩]
  afterwards := [⟨["notes.txt".toList], some ⟨[], none⟩⟩]

def interruptedStore (debug : Bool) : Except EngineError Collection × FileTree :=
  (interruptedEngine debug).storeAmid (interruptedCache debug) "ProjectRuleCollection" editBeforeWrite
    editedStart

def interruptedTree (debug : Bool) : FileTree :=
  (interruptedEngine debug).finalAmid (interruptedCache debug) "ProjectRuleCollection" editBeforeWrite
    editedStart

set_option maxRecDepth 100000 in
theorem resources_interrupted :
    (interruptedStore true).1.toOption.map Collection.resources = some [⟨"rules.xml"⟩] := by
  decide +kernel

theorem observed_interrupted :
    Observed (interruptedCache true) editBeforeWrite editedStart [⟨"rules.xml"⟩] where
  spared := by decide +kernel
  dated := by
    intro x listed f f' _ was
    obtain rfl := List.mem_singleton.mp listed
    have absent : (editBeforeWrite.stamped editedStart).fileAt? ["notes.txt".toList] = none := by
      decide +kernel
    rw [absent] at was
    cases was
  sources := by
    intro p mem
    obtain rfl := List.mem_singleton.mp mem
    have measured : ∀ f ∈ (editBeforeWrite.stamped editedStart).file? ⟨"rules.xml"⟩, f.Measured := by
      decide +kernel
    exact ⟨by decide +kernel, measured, by decide +kernel, by decide +kernel⟩
  few := by decide

theorem fresh_iff_unedited_since_write_interrupted :
    (interruptedCache true).isFresh (interruptedTree true) = true ∧
      (interruptedTree true).file? ⟨"rules.xml"⟩ = some (oneRule "2" ⟨2, 0⟩) := by
  obtain ⟨c, result, listed⟩ := exists_of_toOption resources_interrupted
  have stored : interruptedStore true = (.ok c, (interruptedStore true).2) := Prod.ext result rfl
  have observed := observed_interrupted
  rw [← listed] at observed
  obtain ⟨fresh_iff, described, _⟩ := fresh_iff_unedited_since_write rfl stored observed
  have fresh := fresh_iff.mpr (by rw [listed]; decide +kernel)
  refine ⟨fresh, ?_⟩
  rcases (described fresh).1 ⟨"rules.xml"⟩ (by rw [listed]; decide) with ⟨untouched, _⟩ | ⟨x, edit, _, now⟩
  · exact absurd untouched (by decide +kernel)
  · obtain rfl := List.mem_singleton.mp edit
    exact now

/-- The artifact stays fresh although the file is not what was loaded: the next engine restores the
rule of the contents that were overwritten. -/
structure Overwritten (debug : Bool) : Prop where
  stored : expressionsOf (interruptedStore debug).1 = some ["1"]
  fresh : (interruptedCache debug).isFresh (interruptedTree debug) = true
  differs : (interruptedTree debug).read? ⟨"rules.xml"⟩ ≠
    (editBeforeWrite.origin editedStart).read? ⟨"rules.xml"⟩
  restored : expressionsOf ((interruptedEngine debug).resolve (interruptedTree debug)).1 = some ["1"]
  loaded : expressionsOf ((interruptedEngine debug).load (interruptedTree debug)) = some ["2"]

set_option maxRecDepth 100000 in
theorem overwritten_by_edit_before_write : Overwritten false ∧ Overwritten true := by
  constructor
  · exact ⟨by decide +kernel, by decide +kernel, by decide +kernel, by decide +kernel,
      by decide +kernel⟩
  · exact ⟨by decide +kernel, by decide +kernel, by decide +kernel, by decide +kernel,
      by decide +kernel⟩

end Engine

end RuleRegistry
