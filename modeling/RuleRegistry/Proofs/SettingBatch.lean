import RuleRegistry.Proofs.Outcome
import RuleRegistry.Settings

namespace RuleRegistry.Settings

open Outcome

variable {o o' : Settings} {key : Key} {v : Value} {name : String} {pairs : List (String × Value)}

theorem key?_name (key : Key) : key? key.name = some key := by cases key <;> rfl

theorem key?_eq_some_iff : key? name = some key ↔ key.name = name := by
  constructor
  · intro found
    have hit := List.find?_some found
    exact eq_of_beq hit
  · rintro rfl
    exact key?_name key

theorem Key.eq_of_name {key' : Key} (same : key.name = key'.name) : key = key' := by
  have found := key?_name key
  rw [same, key?_name] at found
  exact (Option.some.inj found).symm

theorem key?_eq_none_iff : key? name = none ↔ name ∉ keys.map Key.name := by
  simp [key?, List.find?_eq_none]

def Key.expectation : Key → String
  | debug => "a boolean"
  | artifactKind => "\"binary\" or \"yaml\""
  | cacheDir | cacheClass | resourceType => "a non-empty string or null"

/-- The values of a key: a Boolean, the name of a format, or a text that is not empty or null. -/
def Key.Takes (key : Key) (v : Value) : Prop :=
  match key with
  | debug => ∃ b, v = .bool b
  | artifactKind => ∃ kind : ArtifactKind, v = .string kind.name
  | cacheDir | cacheClass | resourceType => v = .null ∨ ∃ s, s ≠ "" ∧ v = .string s

theorem ofName?_eq_some_iff {s : String} {kind : ArtifactKind} :
    ArtifactKind.ofName? s = some kind ↔ kind.name = s := by
  constructor
  · intro found
    unfold ArtifactKind.ofName? at found
    split at found
    · cases found
      exact Eq.symm ‹_›
    · split at found
      · cases found
        exact Eq.symm ‹_›
      · cases found
  · rintro rfl
    cases kind <;> rfl

theorem asString_eq_some_iff {s : String} : v.asString = some s ↔ v = .string s := by
  cases v <;> simp [Value.asString]

theorem textOrNull_of_optionalText {text : Option String} (read : optionalText key v = .ok text) :
    textOrNull text = v := by
  cases v with
  | null =>
    cases read
    rfl
  | string s =>
    rw [optionalText] at read
    split at read
    · cases read
    · cases read
      rfl
  | _ => cases read

theorem optionalText_of_takes (key : Key) (takes : v = .null ∨ ∃ s, s ≠ "" ∧ v = .string s) :
    ∃ text, optionalText key v = .ok text := by
  rcases takes with rfl | ⟨s, filled, rfl⟩
  · exact ⟨none, rfl⟩
  · exact ⟨some s, if_neg filled⟩

theorem optionalText_of_not_takes (key : Key)
    (refused : ¬ (v = .null ∨ ∃ s, s ≠ "" ∧ v = .string s)) :
    optionalText key v = .error (.invalidValue key.name "a non-empty string or null" v.text) := by
  cases v with
  | null => exact absurd (.inl rfl) refused
  | string s =>
    by_cases empty : s = ""
    · rw [optionalText, if_pos empty]
    · exact absurd (.inr ⟨s, empty, rfl⟩) refused
  | _ => rfl

theorem boolean_of_takes (takes : Key.debug.Takes v) : ∃ b, boolean .debug v = .ok b := by
  obtain ⟨b, rfl⟩ := takes
  exact ⟨b, rfl⟩

theorem format_of_takes (takes : Key.artifactKind.Takes v) :
    ∃ kind, format .artifactKind v = .ok kind := by
  obtain ⟨kind, rfl⟩ := takes
  have read : (Value.string kind.name).asString.bind ArtifactKind.ofName? = some kind :=
    ofName?_eq_some_iff.mpr rfl
  exact ⟨kind, by rw [format, read]⟩

theorem eq_of_boolean {b : Bool} (read : boolean key v = .ok b) : v = .bool b := by
  cases v with
  | bool b' =>
    cases read
    rfl
  | _ => cases read

theorem eq_of_format {kind : ArtifactKind} (read : format key v = .ok kind) :
    v = .string kind.name := by
  unfold format at read
  split at read
  · rename_i found
    cases read
    obtain ⟨s, spelled, named⟩ := Option.bind_eq_some_iff.mp found
    obtain rfl := ofName?_eq_some_iff.mp named
    exact asString_eq_some_iff.mp spelled
  · cases read

theorem boolean_of_not_takes (refused : ¬ Key.debug.Takes v) :
    boolean .debug v = .error (.invalidValue Key.debug.name Key.debug.expectation v.text) := by
  cases v with
  | bool b => exact absurd ⟨b, rfl⟩ refused
  | _ => rfl

theorem format_of_not_takes (refused : ¬ Key.artifactKind.Takes v) :
    format .artifactKind v =
      .error (.invalidValue Key.artifactKind.name Key.artifactKind.expectation v.text) := by
  have unread : v.asString.bind ArtifactKind.ofName? = none := by
    rw [Option.eq_none_iff_forall_ne_some]
    intro kind found
    have read : format .artifactKind v = .ok kind := by rw [format, found]
    exact refused ⟨kind, eq_of_format read⟩
  rw [format, unread]
  rfl

theorem store_ok_iff {α : Type} {put : Settings → α → Settings} {read : Except SettingError α} :
    o.store put read = (.ok (), o') ↔ ∃ x, read = .ok x ∧ put o x = o' := by
  cases read <;> simp [store]

theorem setKey_of_takes (o : Settings) (takes : key.Takes v) : ∃ o', o.setKey key v = (.ok (), o') := by
  cases key with
  | cacheDir | cacheClass | resourceType =>
    obtain ⟨text, read⟩ := optionalText_of_takes _ takes
    exact ⟨_, by rw [setKey, store_ok_iff]; exact ⟨text, read, rfl⟩⟩
  | debug =>
    obtain ⟨b, read⟩ := boolean_of_takes takes
    exact ⟨_, by rw [setKey, store_ok_iff]; exact ⟨b, read, rfl⟩⟩
  | artifactKind =>
    obtain ⟨kind, read⟩ := format_of_takes takes
    exact ⟨_, by rw [setKey, store_ok_iff]; exact ⟨kind, read, rfl⟩⟩

/-- The value is read before anything is put, so a value that is refused changes nothing. -/
theorem setKey_of_not_takes (o : Settings) (refused : ¬ key.Takes v) :
    o.setKey key v = (.error (.invalidValue key.name key.expectation v.text), o) := by
  cases key with
  | cacheDir | cacheClass | resourceType =>
    rw [setKey, optionalText_of_not_takes _ refused]
    rfl
  | debug =>
    rw [setKey, boolean_of_not_takes refused]
    rfl
  | artifactKind =>
    rw [setKey, format_of_not_takes refused]
    rfl

/-- A key that is set has the new value, and the other keys keep theirs. -/
theorem getKey_of_setKey (set : o.setKey key v = (.ok (), o')) (other : Key) :
    o'.getKey other = if other = key then v else o.getKey other := by
  cases key with
  | cacheDir | cacheClass | resourceType =>
    rw [setKey, store_ok_iff] at set
    obtain ⟨text, read, rfl⟩ := set
    have given := textOrNull_of_optionalText read
    cases other <;> first | rfl | exact given
  | debug =>
    rw [setKey, store_ok_iff] at set
    obtain ⟨b, read, rfl⟩ := set
    obtain rfl := eq_of_boolean read
    cases other <;> rfl
  | artifactKind =>
    rw [setKey, store_ok_iff] at set
    obtain ⟨kind, read, rfl⟩ := set
    obtain rfl := eq_of_format read
    cases other <;> rfl

/-- A value that is right for the option of a name. -/
def Accepts (name : String) (v : Value) : Prop := ∃ key : Key, key.name = name ∧ key.Takes v

theorem set_of_accepts (o : Settings) (accepted : Accepts name v) :
    ∃ o', o.set name v = (.ok (), o') := by
  obtain ⟨key, rfl, takes⟩ := accepted
  rw [set, key?_name]
  exact setKey_of_takes o takes

theorem set_of_not_takes (o : Settings) (refused : ¬ key.Takes v) :
    o.set key.name v = (.error (.invalidValue key.name key.expectation v.text), o) := by
  rw [set, key?_name]
  exact setKey_of_not_takes o refused

theorem get_of_set (set : o.set name v = (.ok (), o')) (other : String) :
    o'.get other = if other = name then .ok v else o.get other := by
  rw [Settings.set] at set
  split at set
  · rename_i key found
    obtain rfl := key?_eq_some_iff.mp found
    unfold get
    cases found' : key? other with
    | none =>
      have apart : other ≠ key.name := by
        rintro rfl
        rw [found] at found'
        cases found'
      rw [if_neg apart]
    | some key' =>
      obtain rfl := key?_eq_some_iff.mp found'
      dsimp only
      rw [getKey_of_setKey set key']
      by_cases same : key' = key
      · rw [if_pos same, if_pos (congrArg Key.name same)]
      · have apart : key'.name ≠ key.name := fun named => same (Key.eq_of_name named)
        rw [if_neg same, if_neg apart]
  · cases set

/-- The settings after setting each pair by itself, one after the other. -/
def setInTurn (o : Settings) (pairs : List (String × Value)) : Settings :=
  pairs.foldl (fun o p => (o.set p.1 p.2).2) o

/-- The keys that are not known, in their order and as often as they come. -/
def unknownIn (pairs : List (String × Value)) : List String :=
  (pairs.map Prod.fst).filter fun name => name ∉ keys.map Key.name

theorem unknownIn_eq (pairs : List (String × Value)) :
    (pairs.map Prod.fst).filter (fun name => (key? name).isNone) = unknownIn pairs := by
  apply List.filter_congr
  intro name _
  rw [Bool.eq_iff_iff, Option.isNone_iff_eq_none, key?_eq_none_iff, decide_eq_true_iff]

theorem setAll_of_unknown (o : Settings) (unknown : unknownIn pairs ≠ []) :
    o.setAll pairs = (.error (.unsupported (unknownIn pairs)), o) := by
  rw [setAll, unknownIn_eq]
  exact if_neg unknown

theorem setAll_of_setEach (known : unknownIn pairs = []) (each : o.setEach pairs = (.ok (), o')) :
    o.setAll pairs = (.ok (), o') := by
  rw [setAll, unknownIn_eq, each]
  exact if_pos known

/-- Whatever became of the copy, the settings are as they were before the batch. -/
theorem setAll_of_refused {e : SettingError} (known : unknownIn pairs = [])
    (broken : o.setEach pairs = (.error e, o')) : o.setAll pairs = (.error e, o) := by
  rw [setAll, unknownIn_eq, broken]
  exact if_pos known

theorem setEach_cons (set : o.set name v = (.ok (), o')) (rest : List (String × Value)) :
    o.setEach ((name, v) :: rest) = o'.setEach rest := by
  rw [setEach, set]

theorem setInTurn_cons (set : o.set name v = (.ok (), o')) (rest : List (String × Value)) :
    o.setInTurn ((name, v) :: rest) = o'.setInTurn rest := by
  rw [setInTurn, List.foldl_cons, set]
  rfl

theorem setEach_of_accepts (o : Settings) (accepted : ∀ p ∈ pairs, Accepts p.1 p.2) :
    o.setEach pairs = (.ok (), o.setInTurn pairs) := by
  induction pairs generalizing o with
  | nil => rfl
  | cons p rest ih =>
    obtain ⟨first, others⟩ := List.forall_mem_cons.mp accepted
    obtain ⟨o', set⟩ := set_of_accepts o first
    rw [setEach_cons set, setInTurn_cons set]
    exact ih o' others

/-- The loop breaks off at a value that is refused, and keeps what it has set by then. -/
theorem setEach_of_refused {before after : List (String × Value)} (o : Settings)
    (accepted : ∀ p ∈ before, Accepts p.1 p.2) (refused : ¬ key.Takes v) :
    o.setEach (before ++ (key.name, v) :: after) =
      (.error (.invalidValue key.name key.expectation v.text), o.setInTurn before) := by
  induction before generalizing o with
  | nil =>
    rw [List.nil_append, setEach, set_of_not_takes o refused]
    rfl
  | cons p rest ih =>
    obtain ⟨first, others⟩ := List.forall_mem_cons.mp accepted
    obtain ⟨o', set⟩ := set_of_accepts o first
    rw [List.cons_append, setEach_cons set, setInTurn_cons set]
    exact ih o' others

/-- An option that a batch does not name keeps its value. -/
theorem get_setInTurn_of_not_mem (o : Settings) (accepted : ∀ p ∈ pairs, Accepts p.1 p.2)
    (other : name ∉ pairs.map Prod.fst) : (o.setInTurn pairs).get name = o.get name := by
  induction pairs generalizing o with
  | nil => rfl
  | cons p rest ih =>
    obtain ⟨first, others⟩ := List.forall_mem_cons.mp accepted
    obtain ⟨o', set⟩ := set_of_accepts o first
    rw [List.map_cons, List.mem_cons, not_or] at other
    rw [setInTurn_cons set, ih o' others other.2, get_of_set set, if_neg other.1]

theorem get_setInTurn_of_last {before after : List (String × Value)} (o : Settings)
    (accepted : ∀ p ∈ before ++ (name, v) :: after, Accepts p.1 p.2)
    (last : name ∉ after.map Prod.fst) :
    (o.setInTurn (before ++ (name, v) :: after)).get name = .ok v := by
  induction before generalizing o with
  | nil =>
    obtain ⟨first, others⟩ := List.forall_mem_cons.mp accepted
    obtain ⟨o', set⟩ := set_of_accepts o first
    rw [List.nil_append, setInTurn_cons set, get_setInTurn_of_not_mem o' others last,
      get_of_set set, if_pos rfl]
  | cons p rest ih =>
    obtain ⟨first, others⟩ := List.forall_mem_cons.mp accepted
    obtain ⟨o', set⟩ := set_of_accepts o first
    rw [List.cons_append, setInTurn_cons set]
    exact ih o' others

theorem known_of_unknownIn (known : unknownIn pairs = []) {p : String × Value} (mem : p ∈ pairs) :
    ∃ key : Key, key.name = p.1 := by
  have listed := List.filter_eq_nil_iff.mp known p.1 (List.mem_map_of_mem mem)
  rw [decide_eq_true_iff, Decidable.not_not] at listed
  obtain ⟨key, _, named⟩ := List.mem_map.mp listed
  exact ⟨key, named⟩

/-- Of the values that are not right for their keys one is the first. -/
theorem exists_first_refused (known : unknownIn pairs = [])
    (refused : ∃ p ∈ pairs, ¬ Accepts p.1 p.2) :
    ∃ before key v after, pairs = before ++ (Key.name key, v) :: after ∧
      (∀ p ∈ before, Accepts p.1 p.2) ∧ ¬ key.Takes v := by
  classical
  obtain ⟨q, mem, wrong⟩ := refused
  have found : (pairs.find? fun p => ¬ Accepts p.1 p.2).isSome :=
    List.find?_isSome.mpr ⟨q, mem, decide_eq_true wrong⟩
  obtain ⟨⟨name, v⟩, first⟩ := Option.isSome_iff_exists.mp found
  obtain ⟨wrong, before, after, split, right⟩ := List.find?_eq_some_iff_append.mp first
  obtain ⟨key, rfl⟩ := known_of_unknownIn known (p := (name, v)) (by simp [split])
  refine ⟨before, key, v, after, split, ?_, ?_⟩
  · intro p hp
    simpa using right p hp
  · intro takes
    exact of_decide_eq_true wrong ⟨key, rfl, takes⟩

/-- A batch with keys that are not known, or else with a value that is refused, changes nothing, even
where a copy that was set pair by pair has changed by then. Any other batch comes to the same as its
pairs one by one, and each key has the last value that was given for it. -/
theorem setAll_atomic (o : Settings) (pairs : List (String × Value)) :
    (unknownIn pairs ≠ [] → o.setAll pairs = (.error (.unsupported (unknownIn pairs)), o)) ∧
    (unknownIn pairs = [] → (∃ p ∈ pairs, ¬ Accepts p.1 p.2) →
      ∃ before key v after, pairs = before ++ (Key.name key, v) :: after ∧
        (∀ p ∈ before, Accepts p.1 p.2) ∧ ¬ key.Takes v ∧
        o.setEach pairs =
          (.error (.invalidValue key.name key.expectation v.text), o.setInTurn before) ∧
        o.setAll pairs = (.error (.invalidValue key.name key.expectation v.text), o)) ∧
    (unknownIn pairs = [] → (∀ p ∈ pairs, Accepts p.1 p.2) →
      o.setAll pairs = (.ok (), o.setInTurn pairs) ∧
      (∀ before name v after, pairs = before ++ (name, v) :: after → name ∉ after.map Prod.fst →
        (o.setInTurn pairs).get name = .ok v) ∧
      ∀ name, name ∉ pairs.map Prod.fst → (o.setInTurn pairs).get name = o.get name) := by
  refine ⟨setAll_of_unknown o, ?_, ?_⟩
  · intro known refused
    obtain ⟨before, key, v, after, split, accepted, wrong⟩ := exists_first_refused known refused
    have broken : o.setEach pairs =
        (.error (.invalidValue key.name key.expectation v.text), o.setInTurn before) := by
      rw [split]
      exact setEach_of_refused o accepted wrong
    exact ⟨before, key, v, after, split, accepted, wrong, broken, setAll_of_refused known broken⟩
  · intro known accepted
    refine ⟨setAll_of_setEach known (setEach_of_accepts o accepted), ?_, ?_⟩
    · rintro before name v after rfl last
      exact get_setInTurn_of_last o accepted last
    · intro name other
      exact get_setInTurn_of_not_mem o accepted other

def strayBatch : List (String × Value) := [("foo", .null), ("debug", .int 3), ("foo", .bool true)]

def brokenBatch : List (String × Value) :=
  [("cache_dir", .string "a"), ("debug", .int 3), ("resource_type", .string "xml")]

def repeatedBatch : List (String × Value) :=
  [("cache_dir", .string "a"), ("debug", .bool true), ("cache_dir", .null)]

/-- The wrong value of the first batch is not reported. The second one breaks off when its folder is
set in the copy, and in the third one a key has two values. -/
theorem setAll_atomic_batches :
    (unknownIn strayBatch ≠ [] ∧
      setAll {} strayBatch = (.error (.unsupported ["foo", "foo"]), {})) ∧
    (unknownIn brokenBatch = [] ∧ (∃ p ∈ brokenBatch, ¬ Accepts p.1 p.2) ∧
      (setEach {} brokenBatch).2 = { cacheDir := some "a" } ∧
      setAll {} brokenBatch = (.error (.invalidValue "debug" "a boolean" "3"), {})) ∧
    unknownIn repeatedBatch = [] ∧ (∀ p ∈ repeatedBatch, Accepts p.1 p.2) ∧
    setAll { resourceType := some "xml" } repeatedBatch =
      (.ok (), setInTurn { resourceType := some "xml" } repeatedBatch) ∧
    (setInTurn { resourceType := some "xml" } repeatedBatch).get "cache_dir" = .ok .null ∧
    (setInTurn { resourceType := some "xml" } repeatedBatch).get "resource_type" =
      .ok (.string "xml") := by
  have stray : unknownIn strayBatch ≠ [] := by decide
  have known : unknownIn repeatedBatch = [] := by decide
  have accepted : ∀ p ∈ repeatedBatch, Accepts p.1 p.2 := by
    simp only [repeatedBatch, List.forall_mem_cons]
    exact ⟨⟨.cacheDir, rfl, .inr ⟨"a", by decide, rfl⟩⟩, ⟨.debug, rfl, true, rfl⟩,
      ⟨.cacheDir, rfl, .inl rfl⟩, nofun⟩
  have split : repeatedBatch =
      [("cache_dir", .string "a"), ("debug", .bool true)] ++ ("cache_dir", .null) :: [] := rfl
  obtain ⟨reported, _, _⟩ := setAll_atomic {} strayBatch
  obtain ⟨_, _, applied⟩ := setAll_atomic { resourceType := some "xml" } repeatedBatch
  obtain ⟨whole, last, others⟩ := applied known accepted
  refine ⟨⟨stray, reported stray⟩, ?_, known, accepted, whole, ?_, ?_⟩
  · have refused : ∃ p ∈ brokenBatch, ¬ Accepts p.1 p.2 := by
      refine ⟨("debug", .int 3), by simp [brokenBatch], ?_⟩
      rintro ⟨key, named, takes⟩
      obtain rfl : key = .debug := Key.eq_of_name named
      obtain ⟨b, wrong⟩ := takes
      cases wrong
    obtain ⟨_, _, _, _, _, _, _, broken, kept⟩ := (setAll_atomic {} brokenBatch).2.1 rfl refused
    have result : (setEach {} brokenBatch).1 = .error (.invalidValue "debug" "a boolean" "3") := by
      rfl
    rw [broken] at result
    dsimp only at result
    rw [result] at kept
    exact ⟨rfl, refused, rfl, kept⟩
  · exact last _ _ _ _ split (by decide)
  · exact others "resource_type" (by decide)

end RuleRegistry.Settings
