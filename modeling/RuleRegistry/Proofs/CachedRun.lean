import RuleRegistry.Proofs.Resolution

namespace RuleRegistry

open FileTree Source Outcome

/-- One thing that happens to the files: an edit of one that is there, or a resolution. -/
inductive Event where
  | rewrite (l : Location) (f : File)
  | delete (l : Location)
  | resolve

def Event.edited? : Event → Option Location
  | rewrite l _ => some l
  | delete l => some l
  | resolve => none

namespace Engine

/-- What an event makes of the files. Each resolution is that of a new engine. -/
def step (e : Engine Loader) (t : FileTree) : Event → FileTree
  | .rewrite l f => if (t.fileAt? l).isSome then t.put l f else t
  | .delete l => t.drop l
  | .resolve => (e.resolve t).2

def run (e : Engine Loader) (t : FileTree) (events : List Event) : FileTree := events.foldl e.step t

def Visits (e : Engine Loader) (start : FileTree) (events : List Event) (t : FileTree) : Prop :=
  ∃ before, before <+: events ∧ t = e.run start before

/-- A resolution gives the rules that a load gives, and fails where and as a load fails. -/
def Transparent (e : Engine Loader) (t : FileTree) : Prop :=
  (∀ c, (e.resolve t).1 = .ok c → ∃ loaded, e.load t = .ok loaded ∧ c.rules = loaded.rules) ∧
    ∀ err, e.load t = .error err → (e.resolve t).1 = .error err

/-- A run in which artifacts and sources keep apart and stamps tell the versions of a file apart. -/
structure Undisturbed (e : Engine Loader) (cache : ArtifactCache) (start : FileTree)
    (events : List Event) : Prop where
  /-- No edit touches the artifact or its record. -/
  spared : ∀ event ∈ events, ∀ l, event.edited? = some l →
    l ≠ start.place cache.path ∧ l ≠ start.place cache.recordPath
  /-- A load that succeeds looks at paths that are clear of both. -/
  clear : ∀ t, e.Visits start events t → ∀ c, e.load t = .ok c → ∀ p,
    e.loader.Probes t e.resource e.settings.resourceType none p → cache.Clear t p
  /-- No file has two contents with the same time and length, and the same digest where contents are
  compared too. -/
  distinct : ∀ t t', e.Visits start events t → e.Visits start events t' → ∀ l f f',
    l ≠ start.place cache.path → l ≠ start.place cache.recordPath →
      t.fileAt? l = some f → t'.fileAt? l = some f' → f'.modified = f.modified →
        f'.content.length = f.content.length →
          (e.settings.debug = true → Blake3.digest f'.content = Blake3.digest f.content) →
            f'.content = f.content
  /-- Lengths and times are such as file systems have. -/
  measured : ∀ t, e.Visits start events t → ∀ l f, t.fileAt? l = some f → f.Measured

variable {e : Engine Loader} {cache : ArtifactCache} {className : String} {start t t' : FileTree}
  {events : List Event} {c : Collection}

/-- At most one file, which was there, is changed or taken away. -/
structure Edited (t t' : FileTree) (l : Location) : Prop where
  current : t'.current = t.current
  folders : ∀ x, t'.isFolder x = t.isFolder x
  others : ∀ x, x ≠ l → t'.fileAt? x = t.fileAt? x
  there : (t'.fileAt? l).isSome = true → (t.fileAt? l).isSome = true

theorem edited_step {event : Event} {l : Location} (edits : event.edited? = some l) :
    Edited t (e.step t event) l := by
  cases event with
  | rewrite place f =>
    cases edits
    rw [step]
    split
    · rename_i there
      exact ⟨rfl, fun _ => rfl, fun x other => by rw [fileAt?_put, if_neg other], fun _ => there⟩
    · exact ⟨rfl, fun _ => rfl, fun _ _ => rfl, id⟩
  | delete place =>
    cases edits
    exact ⟨rfl, fun _ => rfl, fun x other => by rw [step, fileAt?_drop, if_neg other],
      fun there => by rw [step, fileAt?_drop, if_pos rfl] at there; cases there⟩
  | resolve => cases edits

theorem Recorded.edit {origin : FileTree} {l : Location}
    (recorded : e.Recorded cache className t origin c) (edited : Edited t t' l)
    (not_artifact : l ≠ t.place cache.path) (not_record : l ≠ t.place cache.recordPath) :
    e.Recorded cache className t' origin c := by
  have places := place_congr edited.current
  obtain ⟨content, modified, written, at_artifact⟩ := recorded.artifact
  obtain ⟨stamps, modified', stamped, at_record⟩ := recorded.record
  exact {
    loaded := recorded.loaded
    artifact := ⟨content, modified, written, by
      rw [places, edited.others _ not_artifact.symm]
      exact at_artifact⟩
    record := ⟨stamps, modified', stamped, by
      rw [places, edited.others _ not_record.symm]
      exact at_record⟩
    current := edited.current.trans recorded.current
    files := fun x other more there => by
      rw [places] at other more
      refine recorded.files x other more ?_
      by_cases same : x = l
      · subst same
        exact edited.there there
      · rwa [edited.others x same] at there
    kept := fun x folder => (edited.folders x).trans (recorded.kept x folder)
    within := fun x folder => recorded.within x ((edited.folders x).symm.trans folder)
    ready := recorded.ready.keeps edited.current edited.folders }

/-- The record is missing, or it stands for a collection that was loaded from an earlier tree. -/
def Faithful (e : Engine Loader) (cache : ArtifactCache) (className : String) (start : FileTree)
    (events : List Event) (t : FileTree) : Prop :=
  t.current = start.current ∧ (t.fileAt? (t.place cache.recordPath) = none ∨
    ∃ origin c, e.Visits start events origin ∧ e.Recorded cache className t origin c)

theorem Faithful.edit {l : Location} (faithful : e.Faithful cache className start events t)
    (edited : Edited t t' l) (not_artifact : l ≠ start.place cache.path)
    (not_record : l ≠ start.place cache.recordPath) :
    e.Faithful cache className start events t' := by
  obtain ⟨current, state⟩ := faithful
  have places := place_congr current
  rw [← places] at not_artifact not_record
  refine ⟨edited.current.trans current, state.imp (fun absent => ?_) ?_⟩
  · rw [place_congr edited.current, edited.others _ not_record.symm]
    exact absent
  · rintro ⟨origin, c, visits, recorded⟩
    exact ⟨origin, c, visits, recorded.edit edited not_artifact not_record⟩

theorem Faithful.resolve (named : cache.Named)
    (faithful : e.Faithful cache className start events t) (visits : e.Visits start events t)
    {outcome : Except EngineError Collection} (h : Resolution e cache className t outcome t') :
    e.Faithful cache className start events t' := by
  obtain ⟨current, state⟩ := faithful
  cases h with
  | fresh => exact ⟨current, state⟩
  | unloaded => exact ⟨current, state⟩
  | unwritten => exact ⟨current, state⟩
  | unstored _ _ failed =>
    -- The artifact may be new by now, but then there was no record and still is none.
    rcases state with absent | ⟨origin, c, came, recorded⟩
    · obtain ⟨same, record⟩ := ArtifactCache.record_of_write_error named failed
      refine ⟨same.trans current, .inl ?_⟩
      rw [place_congr same, record]
      exact absent
    · obtain rfl := ArtifactCache.eq_of_write_error recorded.ready failed
      exact ⟨current, .inr ⟨origin, c, came, recorded⟩⟩
  | stored loaded written stored =>
    have recorded := recorded_of_write named loaded written stored
    exact ⟨recorded.current.trans current, .inr ⟨t, _, visits, recorded⟩⟩

theorem run_append (done rest : List Event) :
    e.run start (done ++ rest) = e.run (e.run start done) rest := List.foldl_append

theorem faithful_run (asked : e.artifact? = some (cache, className))
    (undisturbed : e.Undisturbed cache start events) (rest done : List Event)
    (part : done ++ rest <+: events)
    (faithful : e.Faithful cache className start events (e.run start done)) :
    e.Faithful cache className start events (e.run start (done ++ rest)) := by
  -- The events that are done grow, so each tree on the way is one that the run visits.
  induction rest generalizing done with
  | nil => rwa [List.append_nil]
  | cons event more ih =>
    have split : done ++ event :: more = (done ++ [event]) ++ more := by simp
    rw [split] at part ⊢
    refine ih (done ++ [event]) part ?_
    have reached : done <+: events :=
      (List.prefix_append _ _).trans ((List.prefix_append _ _).trans part)
    have listed : event ∈ events := part.subset (by simp)
    rw [run_append]
    change e.Faithful cache className start events (e.step (e.run start done) event)
    cases edits : event.edited? with
    | some l =>
      obtain ⟨not_artifact, not_record⟩ := undisturbed.spared event listed l edits
      exact faithful.edit (edited_step edits) not_artifact not_record
    | none =>
      cases event with
      | rewrite => cases edits
      | delete => cases edits
      | resolve =>
        exact faithful.resolve (named_of_artifact? asked) ⟨done, reached, rfl⟩
          (resolution asked _)

/-- What is restored from an artifact agrees with the load that the artifact was made from. -/
theorem agrees_of_restore (binary : e.settings.artifactKind = .binary) (named : className ≠ "")
    (loaded : e.load t = .ok c) {content : Bytes} {modified : Option Moment}
    (written : e.settings.artifactKind.write c { className := className } = .ok content)
    (there : t'.fileAt? (t'.place cache.path) = some ⟨content, modified⟩) :
    (∀ restored, e.restore cache t' = .ok restored →
      ∃ loaded, e.load t = .ok loaded ∧ restored.rules = loaded.rules) ∧
      ∀ err, e.load t = .error err → e.restore cache t' = .error err := by
  have regular := Loader.load_regular (mapError_ok_iff.mp loaded)
  constructor
  · intro restored h
    exact ⟨c, loaded, rules_of_restore binary named regular written there h⟩
  · intro err failed
    rw [loaded] at failed
    cases failed

/-- In a run that starts without a record, every resolution is transparent. -/
theorem transparent_of_undisturbed (asked : e.artifact? = some (cache, className))
    (named : className ≠ "") (binary : e.settings.artifactKind = .binary)
    (absent : start.fileAt? (start.place cache.recordPath) = none)
    (undisturbed : e.Undisturbed cache start events) {before : List Event}
    (part : before ++ [.resolve] <+: events) : e.Transparent (e.run start before) := by
  have reached : before <+: events := (List.prefix_append _ _).trans part
  have visits : e.Visits start events (e.run start before) := ⟨before, reached, rfl⟩
  have cache_named := named_of_artifact? asked
  have faithful := faithful_run asked undisturbed before [] reached ⟨rfl, .inl absent⟩
  rw [List.nil_append] at faithful
  -- From here on it only counts what a resolution can do.
  have does := resolution asked (e.run start before)
  generalize e.run start before = t at *
  unfold Transparent
  generalize (e.resolve t).1 = outcome, (e.resolve t).2 = t' at does
  cases does with
  | fresh fresh =>
    obtain ⟨current, absent | ⟨origin, c, came, recorded⟩⟩ := faithful
    · obtain ⟨f, found⟩ := ArtifactCache.record_of_isFresh fresh
      rw [(file?_eq_some_iff.mp found).2] at absent
      cases absent
    · have origin_current := recorded.current.symm.trans current
      have loaded : e.load t = .ok c := by
        refine recorded.load_eq fresh (undisturbed.clear origin came c recorded.loaded) ?_
          (undisturbed.measured origin came) (undisturbed.measured t visits)
        intro l f f' not_artifact not_record was is time length digest
        rw [place_congr origin_current] at not_artifact not_record
        rw [verify_of_artifact? asked] at digest
        exact undisturbed.distinct origin t came visits l f f' not_artifact not_record was is time
          length digest
      obtain ⟨content, modified, written, there⟩ := recorded.artifact
      exact agrees_of_restore binary named loaded written there
  | unloaded failed =>
    rw [failed]
    refine ⟨nofun, fun err same => ?_⟩
    cases same
    rfl
  | unwritten loaded =>
    rw [loaded]
    exact ⟨nofun, nofun⟩
  | unstored loaded =>
    rw [loaded]
    exact ⟨nofun, nofun⟩
  | @stored c content t' loaded written stored =>
    obtain ⟨stamps, _, files⟩ := ArtifactCache.written_of_ok cache_named stored
    obtain ⟨modified, there⟩ := files.artifact
    rw [← place_congr files.current] at there
    exact agrees_of_restore binary named loaded written there

theorem Visits.take (visits : e.Visits start events t) :
    ∃ n ∈ List.range (events.length + 1), t = e.run start (events.take n) := by
  obtain ⟨before, part, rfl⟩ := visits
  refine ⟨before.length, List.mem_range.mpr (Nat.lt_succ_of_le part.length_le), ?_⟩
  rw [← List.prefix_iff_eq_take.mp part]

/-- Whether no tree of a run has a file that imports another, and two trees agree on a file that has
the same time and length in both. -/
def isSimpleRun (e : Engine Loader) (start : FileTree) (events : List Event) : Bool :=
  let trees := (List.range (events.length + 1)).map fun n => e.run start (events.take n)
  trees.all fun t =>
    ((e.loader.opened? t e.resource e.settings.resourceType none).all fun ds => ds.all fun d =>
      match d with | .rule _ _ => true | .reference _ _ _ => false) &&
    trees.all fun t' => t.files.all fun v => t'.files.all fun v' =>
      decide (v.1 = v'.1 → v'.2.modified = v.2.modified →
        v'.2.content.length = v.2.content.length → v'.2.content = v.2.content)

section

variable (simple : isSimpleRun e start events = true)

include simple

theorem Visits.mem_candidates (visits : e.Visits start events t) {p : Path}
    (probed : e.loader.Probes t e.resource e.settings.resourceType none p) :
    p ∈ e.loader.candidates e.resource none := by
  obtain ⟨n, inside, rfl⟩ := visits.take
  have here := List.all_eq_true.mp simple _ (List.mem_map_of_mem inside)
  exact probed.mem_candidates (Bool.and_eq_true_iff.mp here).1

theorem Visits.same_content (visits : e.Visits start events t) (visits' : e.Visits start events t')
    {l : Location} {f f' : File} (was : t.fileAt? l = some f) (is : t'.fileAt? l = some f')
    (time : f'.modified = f.modified) (length : f'.content.length = f.content.length) :
    f'.content = f.content := by
  obtain ⟨n, inside, rfl⟩ := visits.take
  obtain ⟨n', inside', rfl⟩ := visits'.take
  have here := List.all_eq_true.mp simple _ (List.mem_map_of_mem inside)
  have both := List.all_eq_true.mp (Bool.and_eq_true_iff.mp here).2 _ (List.mem_map_of_mem inside')
  have versions := List.all_eq_true.mp (List.all_eq_true.mp both _ (mem_files_of_fileAt? was)) _
    (mem_files_of_fileAt? is)
  exact of_decide_eq_true versions rfl time length

end

def oneRule (expression : String) (modified : Moment) : File :=
  ⟨Bytes.ofText ("<r><rule id='a' expression='" ++ expression ++ "'/></r>"), modified⟩

def expressionsOf (result : Except EngineError Collection) : Option (List String) :=
  result.toOption.map fun c => c.rules.map fun e => e.2.expression

def editedEngine : Engine Loader where
  loader := {}
  resource := "rules.xml"
  settings := { cacheDir := some "cache" }

def editedCache : ArtifactCache where
  path := ⟨"cache/ProjectRuleCollection.bin"⟩

def editedStart : FileTree where
  current := []
  files := [(["rules.xml".toList], oneRule "1" ⟨1, 0⟩)]

def editedEvents : List Event :=
  [.resolve, .rewrite ["rules.xml".toList] (oneRule "2" ⟨2, 0⟩), .resolve]

set_option maxRecDepth 100000 in
theorem edited_visits : isSimpleRun editedEngine editedStart editedEvents = true ∧
    ∀ n ∈ List.range (editedEvents.length + 1),
      let t := editedEngine.run editedStart (editedEvents.take n)
      (∀ v ∈ t.files, v.2.Measured) ∧
        ∀ p ∈ editedEngine.loader.candidates "rules.xml" none, editedCache.Clear t p := by
  decide +kernel

theorem undisturbed_edited : editedEngine.Undisturbed editedCache editedStart editedEvents where
  spared := by
    intro event listed l edits
    simp only [editedEvents, List.mem_cons, List.not_mem_nil, or_false] at listed
    rcases listed with rfl | rfl | rfl <;> cases edits
    decide +kernel
  clear := by
    intro t visits c loaded p probed
    have listed := visits.mem_candidates edited_visits.1 probed
    obtain ⟨n, inside, rfl⟩ := visits.take
    exact (edited_visits.2 n inside).2 p listed
  distinct := by
    intro t t' visits visits' l f f' _ _ was is time length _
    exact visits.same_content edited_visits.1 visits' was is time length
  measured := by
    intro t visits l f there
    obtain ⟨n, inside, rfl⟩ := visits.take
    exact (edited_visits.2 n inside).1 _ (mem_files_of_fileAt? there)

set_option maxRecDepth 100000 in
theorem transparent_edited :
    editedEngine.Transparent (editedEngine.run editedStart (editedEvents.take 2)) ∧
      expressionsOf (editedEngine.resolve (editedEngine.run editedStart (editedEvents.take 2))).1 =
        some ["2"] := by
  have asked : editedEngine.artifact? = some (editedCache, "ProjectRuleCollection") := rfl
  have part : editedEvents.take 2 ++ [.resolve] <+: editedEvents := ⟨[], rfl⟩
  exact ⟨transparent_of_undisturbed asked (by decide) rfl (by decide +kernel) undisturbed_edited part,
    by decide +kernel⟩

/-- Conditions that are not enough: edits and loads keep out of the folder for artifacts, and no file
has two contents with the same time and length. -/
structure Outside (e : Engine Loader) (folder : String) (start : FileTree) (events : List Event) :
    Prop where
  caching : e.settings.cacheDir = some folder
  named : ∃ name, e.settings.cacheClass = some name ∧ name ≠ ""
  binary : e.settings.artifactKind = .binary
  absent : ∀ cache className, e.artifact? = some (cache, className) →
    start.fileAt? (start.place cache.path) = none ∧
      start.fileAt? (start.place cache.recordPath) = none
  spared : ∀ event ∈ events, ∀ l, event.edited? = some l → ¬ start.place ⟨folder⟩ <+: l
  clear : ∀ t, e.Visits start events t → ∀ p,
    e.loader.Probes t e.resource e.settings.resourceType none p →
      ¬ start.place ⟨folder⟩ <+: start.place p
  distinct : ∀ t t', e.Visits start events t → e.Visits start events t' → ∀ l f f',
    t.fileAt? l = some f → t'.fileAt? l = some f' → f'.modified = f.modified →
      f'.content.length = f.content.length → f'.content = f.content

/-- A search folder that is reached through a folder which is only made for the artifact. -/
def detourEngine : Engine Loader where
  loader := { search := [⟨"a/../sub"⟩, ⟨""⟩] }
  resource := "rules.xml"
  settings := { cacheDir := some "a/b" }

def detourStart : FileTree where
  current := []
  files := [(["rules.xml".toList], oneRule "1" ⟨1, 0⟩),
    (["sub".toList, "rules.xml".toList], oneRule "2" ⟨1, 0⟩)]
  folders := [["sub".toList]]

/-- An artifact whose class name leads out of the folder for artifacts. -/
def strayEngine : Engine Loader where
  loader := {}
  resource := "rules.xml"
  settings := { cacheDir := some "c", cacheClass := some "../x" }

def strayEvents : List Event :=
  [.resolve, .rewrite ["x.bin.meta".toList] ⟨[0], some ⟨1, 0⟩⟩, .delete ["rules.xml".toList]]

set_option maxRecDepth 100000 in
theorem isSimpleRun_detour : isSimpleRun detourEngine detourStart [.resolve] = true := by
  decide +kernel

set_option maxRecDepth 100000 in
theorem isSimpleRun_stray : isSimpleRun strayEngine editedStart strayEvents = true := by
  decide +kernel

set_option maxRecDepth 100000 in
theorem outside_detour : Outside detourEngine "a/b" detourStart [.resolve] where
  caching := rfl
  named := ⟨_, rfl, by decide⟩
  binary := rfl
  absent := by
    intro cache className asked
    cases asked
    exact ⟨by decide +kernel, by decide +kernel⟩
  spared := by simp [Event.edited?]
  clear := by
    intro t visits p probed
    have listed := visits.mem_candidates isSimpleRun_detour probed
    clear probed
    revert p
    decide +kernel
  distinct := fun t t' visits visits' l f f' => visits.same_content isSimpleRun_detour visits'

set_option maxRecDepth 100000 in
theorem outside_stray : Outside strayEngine "c" editedStart strayEvents where
  caching := rfl
  named := ⟨_, rfl, by decide⟩
  binary := rfl
  absent := by
    intro cache className asked
    cases asked
    exact ⟨by decide +kernel, by decide +kernel⟩
  spared := by
    intro event listed l edits
    simp only [strayEvents, List.mem_cons, List.not_mem_nil, or_false] at listed
    rcases listed with rfl | rfl | rfl <;> cases edits <;> decide +kernel
  clear := by
    intro t visits p probed
    have listed := visits.mem_candidates isSimpleRun_stray probed
    clear probed
    revert p
    decide +kernel
  distinct := fun t t' visits visits' l f f' => visits.same_content isSimpleRun_stray visits'

theorem Transparent.expressions_eq (h : e.Transparent t) {restored : List String}
    (resolved : expressionsOf (e.resolve t).1 = some restored) :
    expressionsOf (e.load t) = some restored := by
  obtain ⟨c, result, rfl⟩ := Option.map_eq_some_iff.mp resolved
  cases outcome : (e.resolve t).1 with
  | error err =>
    rw [outcome] at result
    cases result
  | ok c' =>
    rw [outcome] at result
    cases result
    obtain ⟨loaded, loads, same⟩ := h.1 c outcome
    rw [expressionsOf, loads, same]
    rfl

set_option maxRecDepth 100000 in
/-- An artifact hides a file that is found only after the artifact's folder was made, and an edit of
a record that lies elsewhere makes an artifact look fresh. -/
theorem not_transparent_of_outside :
    (Outside detourEngine "a/b" detourStart [.resolve] ∧
      ¬ detourEngine.Transparent (detourEngine.run detourStart [.resolve])) ∧
    Outside strayEngine "c" editedStart strayEvents ∧
      ¬ strayEngine.Transparent (strayEngine.run editedStart strayEvents) := by
  refine ⟨⟨outside_detour, fun h => ?_⟩, outside_stray, fun h => ?_⟩
  · have resolved : expressionsOf (detourEngine.resolve (detourEngine.run detourStart [.resolve])).1 =
        some ["1"] := by decide +kernel
    have loads : expressionsOf (detourEngine.load (detourEngine.run detourStart [.resolve])) =
        some ["2"] := by decide +kernel
    rw [h.expressions_eq resolved] at loads
    exact absurd loads (by decide)
  · have resolved : expressionsOf (strayEngine.resolve (strayEngine.run editedStart strayEvents)).1 =
        some ["1"] := by decide +kernel
    have loads : expressionsOf (strayEngine.load (strayEngine.run editedStart strayEvents)) = none := by
      decide +kernel
    rw [h.expressions_eq resolved] at loads
    cases loads

end Engine

end RuleRegistry
