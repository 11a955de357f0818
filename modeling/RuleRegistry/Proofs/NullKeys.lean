import Mathlib.Data.List.Forall2
import RuleRegistry.Proofs.DocumentTrees
import RuleRegistry.Proofs.Outcome
import RuleRegistry.Source.YamlRules

/-!
Keys with null in a definition. A definition is checked and read with its null keys as without them,
but for two slips: an expression beside a null resource is taken for an import, and a null with a tag
of its own is no text where the type of an import is read.
-/

namespace RuleRegistry

open Outcome

namespace Source.YamlRules

open Yaml

/-- One of the keys of a definition, with null. -/
def isNullKey (pair : Tree × Tree) : Bool :=
  match Tree.plainKey? pair with
  | some key => definitionKeys.contains key && pair.2.isNull
  | none => false

def withoutNulls (fields : Fields) : Fields := fields.filter fun pair => !isNullKey pair

variable {fields fields' : Fields} {key rule : String} {path : Path}

theorem lookup?_withoutNulls (nodup : (fields.filterMap Tree.plainKey?).Nodup)
    (known : key ∈ definitionKeys) :
    Tree.lookup? (withoutNulls fields) key =
      (Tree.lookup? fields key).filter fun v => !v.isNull := by
  induction fields with
  | nil => rfl
  | cons pair rest ih =>
    have others : (rest.filterMap Tree.plainKey?).Nodup :=
      ((List.sublist_cons_self pair rest).filterMap Tree.plainKey?).nodup nodup
    rw [withoutNulls, List.filter_cons, Tree.lookup?_cons]
    by_cases here : Tree.plainKey? pair = some key
    · have null_key : isNullKey pair = pair.2.isNull := by simp [isNullKey, here, known]
      rw [if_pos here, null_key]
      cases null : pair.2.isNull with
      | true =>
        rw [List.filterMap_cons_some here, List.nodup_cons] at nodup
        have gone := ih others
        rw [Tree.lookup?_eq_none nodup.1] at gone
        rw [Option.filter_some_neg (by simp [null])]
        exact gone
      | false =>
        rw [Option.filter_some_pos (by simp [null])]
        exact (Tree.lookup?_cons pair _ key).trans (if_pos here)
    · rw [if_neg here]
      split
      · rw [Tree.lookup?_cons, if_neg here]
        exact ih others
      · exact ih others

theorem states_eq (fields : Fields) (key : String) :
    states fields key = ((Tree.lookup? fields key).filter fun v => !v.isNull).isSome := by
  unfold states
  cases Tree.lookup? fields key with
  | none => rfl
  | some v => cases null : v.isNull <;> simp [null]

theorem states_withoutNulls (nodup : (fields.filterMap Tree.plainKey?).Nodup)
    (known : key ∈ definitionKeys) : states (withoutNulls fields) key = states fields key := by
  rw [states_eq, states_eq, lookup?_withoutNulls nodup known, Option.filter_filter]
  simp

theorem lookup?_of_states (nodup : (fields.filterMap Tree.plainKey?).Nodup)
    (known : key ∈ definitionKeys) (stated : states fields key = true) :
    Tree.lookup? (withoutNulls fields) key = Tree.lookup? fields key := by
  rw [lookup?_withoutNulls nodup known]
  rw [states] at stated
  cases found : Tree.lookup? fields key with
  | none => rfl
  | some v =>
    rw [found] at stated
    exact Option.filter_some_pos stated

theorem unknownKeys_withoutNulls (fields : Fields) :
    unknownKeys (withoutNulls fields) = unknownKeys fields := by
  rw [unknownKeys, unknownKeys, withoutNulls, List.filter_filter]
  congr 1
  refine List.filter_congr fun pair _ => ?_
  cases null : isNullKey pair with
  | false => simp
  | true =>
    unfold isNullKey at null
    split at null
    · rename_i key plain
      obtain ⟨known, _⟩ := Bool.and_eq_true_iff.mp null
      rw [Tree.plainKey?_eq_some.mp plain]
      simpa [Tree.asString, Tree.content] using known
    · cases null

theorem validate_withoutNulls (nodup : (fields.filterMap Tree.plainKey?).Nodup) (rule : String) :
    validate rule (.mapping (withoutNulls fields)) =
      (validate rule (.mapping fields)).map withoutNulls := by
  have tags : (states (withoutNulls fields) "tags" &&
      !((Tree.lookup? (withoutNulls fields) "tags").map fitTags).getD false) =
      (states fields "tags" && !((Tree.lookup? fields "tags").map fitTags).getD false) := by
    rw [states_withoutNulls nodup (by decide)]
    cases stated : states fields "tags" with
    | false => rfl
    | true => rw [lookup?_of_states nodup (by decide) stated]
  simp only [validate, unknownKeys_withoutNulls, states_withoutNulls nodup (by decide : "resource" ∈ _),
    states_withoutNulls nodup (by decide : "expression" ∈ _),
    states_withoutNulls nodup (by decide : "type" ∈ _), tags]
  repeat' split
  all_goals rfl

/-- No null is taken for a value: the resource beside an expression is not null, and an import's type
is no null with a tag of its own. -/
structure Clean (fields : Fields) : Prop where
  resource : ∀ v, Tree.lookup? fields "resource" = some v → v.isNull = true →
    states fields "expression" = false
  type : ∀ v, states fields "resource" = true → Tree.lookup? fields "type" = some v →
    v.isNull = true → v = .atom .null

theorem not_isNull_of_lookup?_withoutNulls {v : Tree} (known : key ∈ definitionKeys)
    (found : Tree.lookup? (withoutNulls fields) key = some v) : v.isNull = false := by
  induction fields with
  | nil => cases found
  | cons pair rest ih =>
    rw [withoutNulls, List.filter_cons] at found
    split at found
    · rename_i kept
      rw [Tree.lookup?_cons] at found
      split at found
      · rename_i here
        cases found
        simpa [isNullKey, here, known] using kept
      · exact ih found
    · exact ih found

theorem clean_withoutNulls (fields : Fields) : Clean (withoutNulls fields) := by
  constructor
  · intro v found null
    rw [not_isNull_of_lookup?_withoutNulls (by decide) found] at null
    cases null
  · intro v _ found null
    rw [not_isNull_of_lookup?_withoutNulls (by decide) found] at null
    cases null

theorem isNull_of_not_states {v : Tree} (unstated : states fields key = false)
    (found : Tree.lookup? fields key = some v) : v.isNull = true := by
  rw [states, found] at unstated
  simpa using unstated

/-- What a definition states that passes the check. -/
theorem states_of_validate (checked : validate rule (.mapping fields) = .ok fields') :
    fields' = fields ∧ (states fields "resource" = true ∨
      states fields "resource" = false ∧ states fields "expression" = true) := by
  simp only [validate] at checked
  repeat' split at checked
  all_goals cases checked
  refine ⟨rfl, ?_⟩
  cases resource : states fields "resource" with
  | true => exact .inl rfl
  | false => simp_all

theorem textField_of_states (rule : String) (nodup : (fields.filterMap Tree.plainKey?).Nodup)
    (known : key ∈ definitionKeys) (stated : states fields key = true) :
    textField (withoutNulls fields) key rule = textField fields key rule := by
  rw [textField, textField, lookup?_of_states nodup known stated]

theorem textField_of_plain_null (rule : String) (nodup : (fields.filterMap Tree.plainKey?).Nodup)
    (known : key ∈ definitionKeys)
    (plain : ∀ v, Tree.lookup? fields key = some v → v.isNull = true → v = .atom .null) :
    textField (withoutNulls fields) key rule = textField fields key rule := by
  cases stated : states fields key with
  | true => exact textField_of_states rule nodup known stated
  | false =>
    rw [textField, textField, lookup?_withoutNulls nodup known]
    cases found : Tree.lookup? fields key with
    | none => rfl
    | some v =>
      rw [plain v found (isNull_of_not_states stated found)]
      rfl

theorem tagsOf_withoutNulls (nodup : (fields.filterMap Tree.plainKey?).Nodup) (rule : String) :
    tagsOf (withoutNulls fields) rule = tagsOf fields rule := by
  rw [tagsOf, tagsOf, lookup?_withoutNulls nodup (by decide)]
  cases Tree.lookup? fields "tags" with
  | none => rfl
  | some v =>
    cases null : v.isNull with
    | false => rw [Option.filter_some_pos (by simp [null])]
    | true =>
      rw [Option.filter_some_neg (by simp [null])]
      cases v with
      | sequence items => cases null
      | _ => rfl

/-- But for the slips, a definition is read with its null keys as without them. -/
theorem readEntry_withoutNulls (nodup : (fields.filterMap Tree.plainKey?).Nodup)
    (clean : Clean fields) (path : Path) (k : Tree) :
    readEntry path (k, .mapping (withoutNulls fields)) = readEntry path (k, .mapping fields) := by
  unfold readEntry
  dsimp only
  cases scalarText? k with
  | none => rfl
  | some rule =>
    dsimp only
    rw [validate_withoutNulls nodup]
    cases checked : validate rule (.mapping fields) with
    | error fault => rfl
    | ok found =>
      obtain ⟨rfl, stated⟩ := states_of_validate checked
      have tags := tagsOf_withoutNulls nodup rule
      dsimp only [Except.map]
      rcases stated with resource | ⟨unstated, expression⟩
      · have type := textField_of_plain_null rule nodup (by decide : "type" ∈ _)
          fun v => clean.type v resource
        have text := textField_of_states rule nodup (by decide) resource
        have there : (Tree.lookup? found "resource").isSome = true := by
          rw [states] at resource
          split at resource
          · simp [*]
          · cases resource
        rw [lookup?_of_states nodup (by decide) resource, if_pos there, if_pos there, readReference,
          readReference, text, type, tags]
      · have absent : Tree.lookup? found "resource" = none := by
          cases there : Tree.lookup? found "resource" with
          | none => rfl
          | some v =>
            have no_expression := clean.resource v there (isNull_of_not_states unstated there)
            rw [expression] at no_expression
            cases no_expression
        have text := textField_of_states rule nodup (by decide) expression
        rw [lookup?_withoutNulls nodup (by decide), absent, readRule, readRule, text, tags]
        rfl

theorem textField_of_null (rule : String) {v : Tree} (found : Tree.lookup? fields key = some v)
    (null : v.isNull = true) :
    (v = .atom .null ∧ textField fields key rule = .ok none) ∨
      textField fields key rule = .error (.notText key rule) := by
  rw [textField, found]
  cases v with
  | atom a =>
    cases a with
    | null => exact .inl ⟨rfl, rfl⟩
    | _ => cases null
  | sequence | mapping => cases null
  | tagged => exact .inr rfl

/-- What is no import of the empty resource was read from a definition without slips. -/
theorem clean_of_readEntry {k : Tree} {d : Definition}
    (read : readEntry path (k, .mapping fields) = .ok d)
    (named : ∀ kind tags, d ≠ .reference "" kind tags) : Clean fields := by
  unfold readEntry at read
  dsimp only at read
  split at read
  · cases read
  · rename_i rule _
    split at read
    · cases read
    · rename_i found checked
      obtain ⟨rfl, stated⟩ := states_of_validate checked
      have reads_reference (v : Tree) (there : Tree.lookup? found "resource" = some v) :
          ∃ resource kind tags, textField found "resource" rule = .ok resource ∧
            textField found "type" rule = .ok kind ∧
              d = .reference (resource.getD "") kind tags := by
        rw [there] at read
        obtain ⟨resource, text, read⟩ := do_ok_iff.mp (mapError_ok_iff.mp read)
        obtain ⟨kind, type, read⟩ := do_ok_iff.mp read
        obtain ⟨tags, _, read⟩ := do_ok_iff.mp read
        exact ⟨resource, kind, tags, text, type, (Except.ok.inj read).symm⟩
      constructor
      · intro v there null
        obtain ⟨resource, kind, tags, text, _, rfl⟩ := reads_reference v there
        rcases textField_of_null rule there null with ⟨_, empty⟩ | failed
        · rw [empty, Except.ok.injEq] at text
          subst text
          exact absurd rfl (named kind tags)
        · rw [failed] at text
          cases text
      · intro v resource there null
        have present : ∃ r, Tree.lookup? found "resource" = some r := by
          rw [states] at resource
          split at resource
          · exact ⟨_, ‹_›⟩
          · cases resource
        obtain ⟨r, present⟩ := present
        obtain ⟨_, kind, _, _, type, _⟩ := reads_reference r present
        rcases textField_of_null rule there null with ⟨plain, _⟩ | failed
        · exact plain
        · rw [failed] at type
          cases type

/-- The entries of a file that is a mapping. -/
def entries? (text : String) : Option Fields :=
  if Text.isBlank text then none
  else match Tree.parse? text with
    | some (.mapping pairs) => some pairs
    | _ => none

/-- The entries are the same, or both are definitions that differ in null keys only and are related in
a given way. -/
def EntryApart (P : Fields → Fields → Prop) (entry entry' : Tree × Tree) : Prop :=
  entry' = entry ∨ ∃ fields fields', entry = (entry.1, .mapping fields) ∧
    entry' = (entry.1, .mapping fields') ∧ withoutNulls fields' = withoutNulls fields ∧
      P fields fields'

/-- Two files whose definitions differ in null keys only. -/
def TextApart (P : Fields → Fields → Prop) (text text' : String) : Prop :=
  ∃ pairs pairs', entries? text = some pairs ∧ entries? text' = some pairs' ∧
    List.Forall₂ (EntryApart P) pairs pairs'

def CleanText (text : String) : Prop :=
  ∀ pairs, entries? text = some pairs → ∀ k fields, (k, .mapping fields) ∈ pairs → Clean fields

variable {text text' : String} {pairs pairs' : Fields}

theorem entries?_eq_some (h : entries? text = some pairs) :
    Text.isBlank text = false ∧ Tree.parse? text = some (.mapping pairs) := by
  unfold entries? at h
  split at h
  · cases h
  · rename_i written
    split at h
    · cases h
      exact ⟨Bool.eq_false_iff.mpr written, ‹_›⟩
    · cases h

theorem node_of_entries? (h : entries? text = some pairs) {k v : Tree} (mem : (k, v) ∈ pairs) :
    ∃ node, Tree.ofNode? node = some v := by
  obtain ⟨_, parsed⟩ := entries?_eq_some h
  obtain ⟨d, _, parsed⟩ := Option.bind_eq_some_iff.mp parsed
  obtain ⟨node, _, read⟩ := Option.bind_eq_some_iff.mp parsed
  obtain ⟨⟨items, inside⟩, _⟩ := Tree.ofNode?_mapping read
  exact Tree.mem_ofPairs? inside mem

theorem nodup_of_entries? (h : entries? text = some pairs) {k : Tree}
    (mem : (k, .mapping fields) ∈ pairs) : (fields.filterMap Tree.plainKey?).Nodup := by
  obtain ⟨node, found⟩ := node_of_entries? h mem
  exact Tree.nodup_of_ofNode? found

theorem read_of_entries? (h : entries? text = some pairs) (path : Path) :
    YamlRules.read path text = .ofEach (readEntry path) pairs := by
  obtain ⟨written, parsed⟩ := entries?_eq_some h
  rw [YamlRules.read, written, parsed]
  rfl

theorem ofEach_congr {α : Type} {read : α → Except Error Definition} {R : α → α → Prop}
    {xs ys : List α} (related : List.Forall₂ R xs ys)
    (each : ∀ x ∈ xs, ∀ y ∈ ys, R x y → read y = read x) :
    Definitions.ofEach read ys = Definitions.ofEach read xs := by
  induction related with
  | nil => rfl
  | cons first _ ih =>
    have others := ih fun x hx y hy =>
      each x (List.mem_cons_of_mem _ hx) y (List.mem_cons_of_mem _ hy)
    rw [Definitions.ofEach, Definitions.ofEach, others,
      each _ List.mem_cons_self _ List.mem_cons_self first]

/-- Where the definitions that differ have no slips, the files are read alike. -/
theorem read_of_apart {P : Fields → Fields → Prop} (apart : TextApart P text text')
    (clean : ∀ pairs, entries? text = some pairs → ∀ k fields fields', (k, .mapping fields) ∈ pairs →
      P fields fields' → Clean fields ∧ Clean fields')
    (path : Path) : YamlRules.read path text' = YamlRules.read path text := by
  obtain ⟨pairs, pairs', entries, entries', related⟩ := apart
  rw [read_of_entries? entries, read_of_entries? entries']
  refine ofEach_congr related fun entry mem entry' mem' entry_apart => ?_
  rcases entry_apart with rfl | ⟨fields, fields', here, rfl, same, holds⟩
  · rfl
  · rw [here] at mem
    obtain ⟨one, other⟩ := clean pairs entries _ _ _ mem holds
    calc readEntry path (entry.1, .mapping fields')
      _ = readEntry path (entry.1, .mapping (withoutNulls fields')) :=
        (readEntry_withoutNulls (nodup_of_entries? entries' mem') other path _).symm
      _ = readEntry path (entry.1, .mapping (withoutNulls fields)) := by rw [same]
      _ = readEntry path (entry.1, .mapping fields) :=
        readEntry_withoutNulls (nodup_of_entries? entries mem) one path _
      _ = readEntry path entry := by rw [← here]

theorem split_of_ofEach {α : Type} {read : α → Except Error Definition} {before after : List α} {x : α}
    {found : List Definition} (all : Definitions.ofEach read (before ++ x :: after) = ⟨found, none⟩) :
    ∃ front d back, found = front ++ d :: back ∧ read x = .ok d ∧
      Definitions.ofEach read after = ⟨back, none⟩ := by
  induction before generalizing found with
  | nil =>
    rw [List.nil_append, Definitions.ofEach] at all
    cases first : read x with
    | error e =>
      rw [first] at all
      cases all
    | ok d =>
      rw [first] at all
      obtain ⟨rfl, clean⟩ := Definitions.mk.inj all
      exact ⟨[], d, _, rfl, rfl, congrArg (Definitions.mk _) clean⟩
  | cons y before ih =>
    rw [List.cons_append, Definitions.ofEach] at all
    cases first : read y with
    | error e =>
      rw [first] at all
      cases all
    | ok e =>
      rw [first] at all
      obtain ⟨rfl, clean⟩ := Definitions.mk.inj all
      obtain ⟨front, d, back, parts, rest⟩ := ih (congrArg (Definitions.mk _) clean)
      exact ⟨e :: front, d, back, congrArg (e :: ·) parts, rest⟩

theorem found_of_ofEach {α : Type} {read : α → Except Error Definition} {xs : List α}
    {found : List Definition} (all : Definitions.ofEach read xs = ⟨found, none⟩) {x : α} (mem : x ∈ xs) :
    ∃ d ∈ found, read x = .ok d := by
  obtain ⟨before, after, rfl⟩ := List.append_of_mem mem
  obtain ⟨front, d, back, rfl, ok, _⟩ := split_of_ofEach all
  exact ⟨d, List.mem_append_right _ List.mem_cons_self, ok⟩

theorem mem_of_ofEach {α : Type} {read : α → Except Error Definition} {xs : List α} {d : Definition}
    (mem : d ∈ (Definitions.ofEach read xs).found) : ∃ x ∈ xs, read x = .ok d := by
  induction xs with
  | nil => cases mem
  | cons x rest ih =>
    rw [Definitions.ofEach] at mem
    cases first : read x with
    | error e =>
      rw [first] at mem
      cases mem
    | ok e =>
      rw [first] at mem
      rcases List.mem_cons.mp mem with rfl | mem
      · exact ⟨x, List.mem_cons_self, first⟩
      · obtain ⟨y, there, read_y⟩ := ih mem
        exact ⟨y, List.mem_cons_of_mem _ there, read_y⟩

/-- A file that can be read whole, and imports nothing under the empty name, has no slips. -/
theorem cleanText_of_read {found : List Definition} (read : YamlRules.read path text = ⟨found, none⟩)
    (named : ∀ resource kind tags, .reference resource kind tags ∈ found → resource ≠ "") :
    CleanText text := by
  intro pairs entries k fields mem
  rw [read_of_entries? entries] at read
  obtain ⟨d, there, ok⟩ := found_of_ofEach read mem
  refine clean_of_readEntry ok fun kind tags same => ?_
  rw [same] at there
  exact named "" kind tags there rfl

end Source.YamlRules

end RuleRegistry
