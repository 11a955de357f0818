import RuleRegistry.Proofs.Freshness
import RuleRegistry.Proofs.Resolution
import RuleRegistry.Proofs.SettingBatch
import RuleRegistry.Proofs.YamlArtifact
import RuleRegistry.Settings.Document

namespace RuleRegistry

open Outcome

theorem ArtifactKind.name_ne_empty (kind : ArtifactKind) : kind.name ≠ "" := by
  cases kind <;> decide

namespace Settings

variable {o o' : Settings}

/-- Every value is one that its key takes. -/
def Settable (o : Settings) : Prop := ∀ key : Key, key.Takes (o.getKey key)

theorem takes_of_setKey {key : Key} {v : Value} (set : o.setKey key v = (.ok (), o')) :
    key.Takes v := by
  by_contra refused
  rw [setKey_of_not_takes o refused] at set
  cases set

theorem Settable.set (h : o.Settable) {name : String} {v : Value}
    (set : o.set name v = (.ok (), o')) : o'.Settable := by
  unfold Settings.set at set
  split at set
  · intro other
    rw [getKey_of_setKey set]
    split
    · rename_i same
      exact same ▸ takes_of_setKey set
    · exact h other
  · cases set

theorem Settable.setEach {pairs : List (String × Value)} (h : o.Settable)
    (set : o.setEach pairs = (.ok (), o')) : o'.Settable := by
  induction pairs generalizing o with
  | nil =>
    cases set
    exact h
  | cons p rest ih =>
    rw [Settings.setEach] at set
    split at set
    · cases set
    · rename_i first
      exact ih (h.set first) set

theorem Settable.setAll {pairs : List (String × Value)} (h : o.Settable)
    (set : o.setAll pairs = (.ok (), o')) : o'.Settable := by
  rw [Settings.setAll] at set
  split at set
  · split at set
    · cases set
    · rename_i each
      cases set
      exact h.setEach each
  · cases set

theorem settable_default : Settable {} := by
  intro key
  cases key with
  | cacheDir | resourceType => exact .inl rfl
  | debug => exact ⟨false, rfl⟩
  | artifactKind => exact ⟨.binary, rfl⟩
  | cacheClass => exact .inr ⟨_, by decide, rfl⟩

theorem takes_getKey_iff {key : Key} : key.Takes (o.getKey key) ↔ o.getKey key ≠ .string "" := by
  have texts (text : Option String) : (textOrNull text = .null ∨ ∃ s, s ≠ "" ∧
      textOrNull text = .string s) ↔ textOrNull text ≠ .string "" := by
    cases text <;> simp [textOrNull]
  cases key with
  | cacheDir | cacheClass | resourceType => exact texts _
  | debug => simp [Key.Takes, getKey]
  | artifactKind =>
    exact iff_of_true ⟨o.artifactKind, rfl⟩ fun empty =>
      o.artifactKind.name_ne_empty (Value.string.inj empty)

theorem optionalText_textOrNull (key : Key) {text : Option String}
    (filled : textOrNull text ≠ .string "") : optionalText key (textOrNull text) = .ok text := by
  cases text with
  | none => rfl
  | some s => exact if_neg fun empty => filled (congrArg Value.string empty)

theorem setEach_values (h : o.Settable) :
    setEach {} (keys.map fun key => (key.name, o.getKey key)) = (.ok (), o) := by
  have dir := optionalText_textOrNull .cacheDir (takes_getKey_iff.mp (h .cacheDir))
  have cls := optionalText_textOrNull .cacheClass (takes_getKey_iff.mp (h .cacheClass))
  have kind := optionalText_textOrNull .resourceType (takes_getKey_iff.mp (h .resourceType))
  have named : (o.getKey .artifactKind).asString.bind ArtifactKind.ofName? = some o.artifactKind :=
    ofName?_eq_some_iff.mpr rfl
  simp only [getKey] at named
  simp [keys, Settings.setEach, Settings.set, key?_name, setKey, store, boolean, format, getKey, dir,
    cls, kind, named, Value.asBool]

/-- A batch comes to exactly the settings whose values are right for their keys. -/
theorem exists_ofPairs_iff : (∃ pairs, ofPairs pairs = .ok o) ↔ o.Settable := by
  constructor
  · rintro ⟨pairs, made⟩
    obtain ⟨_, result, rfl⟩ := map_ok_iff.mp made
    exact settable_default.setAll (Prod.ext result rfl)
  · intro h
    refine ⟨keys.map fun key => (key.name, o.getKey key), ?_⟩
    have known : unknownIn (keys.map fun key => (key.name, o.getKey key)) = [] := rfl
    rw [ofPairs, setAll_of_setEach known (setEach_values h)]
    rfl

end Settings

namespace Yaml

namespace Anchors

variable (a : Anchors) (n : Node Nat)

/-- The node, or the one that it is an alias of. -/
def behind? : Option (Node Nat) :=
  match n with
  | .alias number => a.target? number
  | n => some n

def Spells (s : String) : Prop := ∃ props style, a.behind? n = some (.scalar props style s)

/-- A text with nothing in it that does not stand for null: it is no plain one, or has a tag. -/
def IsEmptyText : Prop :=
  ∃ props style, a.behind? n = some (.scalar props style "") ∧
    (style = .plain → props.tag ≠ none ∧ props.tag ≠ some (.core "null"))

def fields : List (Node Nat × Node Nat) :=
  match a.behind? n with
  | some (.mapping _ pairs) => pairs
  | _ => []

variable {a n}

theorem Spells.unique {s s' : String} (h : a.Spells n s) (h' : a.Spells n s') : s = s' := by
  obtain ⟨props, style, behind⟩ := h
  obtain ⟨props', style', behind'⟩ := h'
  rw [behind] at behind'
  cases behind'
  rfl

end Anchors

namespace Reading

variable {α β : Type} {a : Anchors} {n m : Node Nat} {left left' : Nat}

theorem bind_eq_some_iff {read : Reading α} {next : α → Reading β} {result : β × Nat} :
    (read >>= next) left = some result ↔
      ∃ x between, read left = some (x, between) ∧ next x between = some result := by
  rw [bind_apply, Option.bind_eq_some_iff]
  exact Prod.exists

theorem behind?_of_follow (h : follow a n left = some (m, left')) : a.behind? n = some m := by
  cases n with
  | «alias» number =>
    cases left with
    | zero => cases h
    | succ left =>
      obtain ⟨target, found, same⟩ := Option.map_eq_some_iff.mp h
      cases same
      exact found
  | _ =>
    cases h
    rfl

theorem spells_of_text {s : String} (h : text a n left = some (s, left')) : a.Spells n s := by
  obtain ⟨m, between, followed, read⟩ := bind_eq_some_iff.mp h
  split at read
  · cases read
    exact ⟨_, _, behind?_of_follow followed⟩
  · cases read

theorem fields_of_pairs {ps : List (Node Nat × Node Nat)} (h : pairs a n left = some (ps, left')) :
    ps = a.fields n := by
  obtain ⟨m, between, followed, read⟩ := bind_eq_some_iff.mp h
  rw [Anchors.fields, behind?_of_follow followed]
  split at read
  · cases read
    rfl
  · cases read
    rfl
  · cases read

theorem find?_of_foldlM {step : Entries (Node Nat) → Node Nat × Node Nat → Reading (Entries (Node Nat))}
    {name : String} {m : Node Nat}
    (each : ∀ acc p left acc' left', step acc p left = some (acc', left') →
      (Entries.find? acc' name = some m ↔
        Entries.find? acc name = some m ∨ (a.Spells p.1 name ∧ p.2 = m)))
    {ps : List (Node Nat × Node Nat)} {acc parts : Entries (Node Nat)}
    (h : ps.foldlM step acc left = some (parts, left')) :
    Entries.find? parts name = some m ↔
      Entries.find? acc name = some m ∨ ∃ p ∈ ps, a.Spells p.1 name ∧ p.2 = m := by
  induction ps generalizing acc left with
  | nil =>
    cases h
    simp
  | cons p rest ih =>
    rw [List.foldlM_cons] at h
    obtain ⟨between, middle, added, folded⟩ := bind_eq_some_iff.mp h
    rw [ih folded, each acc p left between middle added, or_assoc, List.exists_mem_cons_iff]

/-- The parts of a record are the fields of the mapping with known names. -/
theorem find?_of_record {strict : Bool} {names : List String} {parts : Entries (Node Nat)}
    (h : record a strict names n left = some (parts, left')) {name : String} (known : name ∈ names)
    (m : Node Nat) :
    Entries.find? parts name = some m ↔ ∃ field ∈ a.fields n, a.Spells field.1 name ∧ field.2 = m := by
  obtain ⟨ps, between, read, folded⟩ := bind_eq_some_iff.mp h
  rw [← fields_of_pairs read]
  refine Iff.trans (find?_of_foldlM (a := a) ?_ folded) (by simp [Entries.find?])
  intro acc p left acc' left' added
  obtain ⟨key, between, spelled, added⟩ := bind_eq_some_iff.mp added
  have spells : a.Spells p.1 name ↔ key = name :=
    ⟨fun other => (spells_of_text spelled).unique other, fun same => same ▸ spells_of_text spelled⟩
  rw [spells]
  split at added
  · rename_i stray
    have other : key ≠ name := by
      rintro rfl
      simp [known] at stray
    split at added
    · cases added
    · cases added
      simp [other]
  · split at added
    · cases added
    · rename_i fresh
      cases added
      rw [Entries.find?_put]
      split
      · rename_i same
        subst same
        have missing : Entries.find? acc key = none := by
          simpa [Entries.has] using fresh
        simp [missing]
      · rename_i other
        simp [other]

end Reading

end Yaml

namespace Settings

open Yaml Reading

variable {o : Settings} {a : Anchors} {n : Node Nat} {left left' : Nat}

def textKeys : List Key := [.cacheDir, .cacheClass, .resourceType]

/-- A text that may be missing is given, with nothing in it. -/
def LeavesEmpty (d : Document) (key : Key) : Prop :=
  key ∈ textKeys ∧ ∃ field ∈ d.anchors.fields d.root,
    d.anchors.Spells field.1 key.name ∧ d.anchors.IsEmptyText field.2

theorem isEmptyText_of_readOptionalText {s : Option String}
    (h : readOptionalText a n left = some (s, left')) : s = some "" ↔ a.IsEmptyText n := by
  obtain ⟨m, between, followed, read⟩ := bind_eq_some_iff.mp h
  have behind := behind?_of_follow followed
  have isEmptyText_iff {props : Properties} {style : Style} {text : String}
      (found : a.behind? n = some (.scalar props style text)) : a.IsEmptyText n ↔
        text = "" ∧ (style = .plain → props.tag ≠ none ∧ props.tag ≠ some (.core "null")) := by
    rw [Anchors.IsEmptyText, found]
    constructor
    · rintro ⟨_, _, ⟨⟩, tagged⟩
      exact ⟨rfl, tagged⟩
    · rintro ⟨rfl, tagged⟩
      exact ⟨_, _, rfl, tagged⟩
  split at read
  · rw [isEmptyText_iff behind]
    split at read
    · rename_i untagged
      cases read
      split
      · simp [untagged]
      · rename_i filled
        rw [not_or] at filled
        simp [untagged, filled.1]
    · rename_i tagged
      split at read
      · rename_i null
        split at read
        · cases read
          simp [null]
        · cases read
      · rename_i other
        cases read
        simp [tagged, other]
  · rename_i unplain
    cases read
    rw [isEmptyText_iff behind]
    simp [show _ ≠ Style.plain from unplain]
  · cases read

theorem isEmptyText_of_part {d : Document} {parts : Entries (Node Nat)}
    (recorded : record d.anchors true (keys.map Key.name) d.root left = some (parts, left'))
    {key : Key} (listed : key ∈ textKeys) {missing s : Option String} {after after' : Nat}
    (h : part parts key.name (readOptionalText d.anchors) (pure missing) after = some (s, after'))
    (filled : missing ≠ some "") : s = some "" ↔ LeavesEmpty d key := by
  have known : key.name ∈ keys.map Key.name := by cases key <;> decide
  have found := find?_of_record recorded known
  unfold LeavesEmpty
  rw [part] at h
  cases there : Entries.find? parts key.name with
  | some n =>
    simp only [there] at h
    rw [isEmptyText_of_readOptionalText h]
    constructor
    · intro empty
      obtain ⟨field, mem, spells, rfl⟩ := (found n).mp there
      exact ⟨listed, field, mem, spells, empty⟩
    · rintro ⟨_, field, mem, spells, empty⟩
      have same := (found field.2).mpr ⟨field, mem, spells, rfl⟩
      rw [there] at same
      exact Option.some.inj same ▸ empty
  | none =>
    simp only [there] at h
    cases h
    refine ⟨fun empty => absurd empty filled, ?_⟩
    rintro ⟨_, field, mem, spells, _⟩
    have some_part := (found field.2).mpr ⟨field, mem, spells, rfl⟩
    rw [there] at some_part
    cases some_part

theorem textOrNull_eq_empty {text : Option String} :
    textOrNull text = .string "" ↔ text = some "" := by
  cases text <;> simp [textOrNull]

/-- A value is an empty text where the document leaves it empty, and nowhere else. -/
theorem getKey_of_document {d : Document} (read : run? d readSettings = some o) (key : Key) :
    o.getKey key = .string "" ↔ LeavesEmpty d key := by
  obtain ⟨⟨o, left⟩, run, rfl⟩ := Option.map_eq_some_iff.mp read
  unfold readSettings at run
  obtain ⟨parts, _, recorded, run⟩ := bind_eq_some_iff.mp run
  dsimp only at run
  obtain ⟨dir, _, dir_read, run⟩ := bind_eq_some_iff.mp run
  obtain ⟨debug, _, debug_read, run⟩ := bind_eq_some_iff.mp run
  obtain ⟨kind, _, kind_read, run⟩ := bind_eq_some_iff.mp run
  obtain ⟨cls, _, cls_read, run⟩ := bind_eq_some_iff.mp run
  obtain ⟨resource, _, resource_read, run⟩ := bind_eq_some_iff.mp run
  cases run
  have not_text {key : Key} (other : key ∉ textKeys) : ¬ LeavesEmpty d key := fun h => other h.1
  cases key with
  | cacheDir =>
    exact textOrNull_eq_empty.trans (isEmptyText_of_part recorded (by decide) dir_read nofun)
  | debug => exact iff_of_false nofun (not_text (by decide))
  | artifactKind =>
    exact iff_of_false (fun empty => kind.name_ne_empty (Value.string.inj empty))
      (not_text (by decide))
  | cacheClass =>
    exact textOrNull_eq_empty.trans (isEmptyText_of_part recorded (by decide) cls_read (by decide))
  | resourceType =>
    exact textOrNull_eq_empty.trans (isEmptyText_of_part recorded (by decide) resource_read nofun)

end Settings

/-- An artifact in YAML is one that the library reads back as it was written. -/
def ArtifactKind.Trusted (kind : ArtifactKind) (c : Collection) (names : ArtifactNames) : Prop :=
  kind = .yaml → Yaml.Writer.RoundTrips (Artifact.documentFields (.ofCollection c names))

theorem ArtifactKind.read_of_written {kind : ArtifactKind} {c : Collection} {names : ArtifactNames}
    {bytes : Bytes} (regular : c.Regular) (trusted : kind.Trusted c names)
    (written : kind.write c names = .ok bytes) :
    kind.read bytes =
      if names.className = "" then .error .emptyClassName else .ok (.ofCollection c names) := by
  cases kind with
  | binary =>
    split
    · exact Artifact.readBinary_of_unnamed regular ‹_› written
    · exact Artifact.readBinary_of_regular regular ‹_› written
  | yaml =>
    rw [ArtifactKind.write, Except.ok.injEq] at written
    subst written
    rw [ArtifactKind.read]
    exact Artifact.readDocument_of_library regular (trusted rfl)

namespace Engine

variable {e : Engine Source.Loader} {cache : ArtifactCache} {className : String} {t t' : FileTree}

theorem cacheClass_of_artifact? (asked : e.artifact? = some (cache, className)) :
    e.settings.cacheClass = some className := by
  unfold artifact? at asked
  split at asked
  · rename_i named
    cases asked
    exact named
  · cases asked

/-- An engine restores what it wrote, unless the class has no name. -/
theorem restore_of_rebuild (asked : e.artifact? = some (cache, className))
    (rebuilt : e.rebuild cache className t = (.ok (), t'))
    (trusted : ∀ c, e.load t = .ok c →
      e.settings.artifactKind.Trusted c { className := className }) :
    ∃ c, e.load t = .ok c ∧ e.restore cache t' =
      if className = "" then .error (.artifact .emptyClassName) else .ok ⟨c.rules, []⟩ := by
  unfold rebuild at rebuilt
  cases loaded : e.load t with
  | error err => simp [loaded] at rebuilt
  | ok c =>
    cases written : e.settings.artifactKind.write c { className := className } with
    | error err => simp [loaded, written] at rebuilt
    | ok content =>
      have stored : cache.write t content c.resources = (.ok (), t') := by
        simp only [loaded, written] at rebuilt
        split at rebuilt
        · cases rebuilt
        · rename_i same
          cases rebuilt
          exact same
      have regular := Source.Loader.load_regular (mapError_ok_iff.mp loaded)
      obtain ⟨stamps, _, files⟩ := ArtifactCache.written_of_ok (named_of_artifact? asked) stored
      have read := ArtifactKind.read_of_written regular (trusted c loaded) written
      refine ⟨c, rfl, ?_⟩
      simp only [restore, ArtifactCache.read, files.read?, Except.mapError, bind, Except.bind, read]
      by_cases unnamed : className = ""
      · simp only [if_pos unnamed]
      · simp only [if_neg unnamed, Archive.build_ofCollection regular]

end Engine

namespace Settings

open Yaml

/-- What settings are in view of the document that they were read from. -/
structure ReadFrom (d : Document) (o : Settings) : Prop where
  obtainable : (∃ pairs, ofPairs pairs = .ok o) ↔ ∀ key, ¬ LeavesEmpty d key
  empty : ∀ key, LeavesEmpty d key → o.getKey key = .string ""
  filled : ∀ key, ¬ LeavesEmpty d key → key.Takes (o.getKey key)
  restores : ∀ (e : Engine Source.Loader) (cache : ArtifactCache) (className : String)
      (t t' : FileTree), e.settings = o → e.artifact? = some (cache, className) →
    e.rebuild cache className t = (.ok (), t') →
    (∀ c, e.load t = .ok c → o.artifactKind.Trusted c { className := className }) →
      (e.restore cache t' = .error (.artifact .emptyClassName) ↔ LeavesEmpty d .cacheClass)

/-- Settings from a document could be set by their keys as well, unless the document leaves a text
empty. A class with an empty name is that of artifacts which cannot be restored. -/
theorem readFrom_of_ofYaml {text : String} {o : Settings} (accepted : ofYaml text = .ok o) :
    ∃ d, document? text.toList = some d ∧ ReadFrom d o := by
  unfold ofYaml at accepted
  split at accepted
  · rename_i read
    cases accepted
    obtain ⟨d, found, read⟩ := Option.bind_eq_some_iff.mp read
    have empty_iff := getKey_of_document read
    refine ⟨d, found, {
      obtainable := ?_
      empty := fun key left => (empty_iff key).mpr left
      filled := fun key given => takes_getKey_iff.mpr fun empty => given ((empty_iff key).mp empty)
      restores := ?_ }⟩
    · rw [exists_ofPairs_iff]
      exact forall_congr' fun key => takes_getKey_iff.trans (not_congr (empty_iff key))
    · rintro e cache className t t' rfl asked rebuilt trusted
      obtain ⟨c, _, restored⟩ := Engine.restore_of_rebuild asked rebuilt trusted
      have given : e.settings.getKey .cacheClass = .string className := by
        rw [getKey, Engine.cacheClass_of_artifact? asked]
        rfl
      rw [restored, ← empty_iff, given, Value.string.injEq]
      split
      · rename_i unnamed
        exact iff_of_true rfl unnamed
      · rename_i named
        exact iff_of_false nofun named
  · cases accepted

/-- A class with an empty name. -/
theorem readFrom_of_ofYaml_empty :
    ofYaml "rule_collection_cache_class: ''\n" = .ok { cacheClass := some "" } ∧
      ∃ d, document? "rule_collection_cache_class: ''\n".toList = some d ∧
        ReadFrom d { cacheClass := some "" } := by
  have accepted : ofYaml "rule_collection_cache_class: ''\n" = .ok { cacheClass := some "" } := by
    decide +kernel
  exact ⟨accepted, readFrom_of_ofYaml accepted⟩

theorem not_obtainable_of_empty_class : ∃ o, ofYaml "rule_collection_cache_class: ''\n" = .ok o ∧
    o.cacheClass = some "" ∧ ¬ ∃ pairs, ofPairs pairs = .ok o := by
  refine ⟨{ cacheClass := some "" }, by decide +kernel, rfl, ?_⟩
  rw [exists_ofPairs_iff]
  intro settable
  exact takes_getKey_iff.mp (settable .cacheClass) rfl

end Settings

end RuleRegistry
