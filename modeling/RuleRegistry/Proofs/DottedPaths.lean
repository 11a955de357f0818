import RuleRegistry.Context

namespace RuleRegistry

namespace Entries

variable {α : Type}

/-- From the first entries to the second ones only the value of one key is another or new: all other
entries stand where they stood, and a new key stands at the end. -/
structure AlteredAt (es es' : Entries α) (key : String) : Prop where
  order : keys es' = if key ∈ keys es then keys es else keys es ++ [key]
  others : ∀ (i : Nat) (e : String × α), es[i]? = some e → e.1 ≠ key → es'[i]? = some e

theorem alteredAt_put (es : Entries α) (key : String) (value : α) :
    AlteredAt es (put es key value) key where
  order := keys_put es key value
  others := by
    intro i e there other
    induction es generalizing i with
    | nil => cases there
    | cons first rest ih =>
      obtain ⟨k, v⟩ := first
      by_cases same : k = key
      · rw [put, if_pos same]
        cases i with
        | zero =>
          cases there
          exact absurd same other
        | succ i => exact there
      · rw [put, if_neg same]
        cases i with
        | zero => exact there
        | succ i => exact ih i there

end Entries

namespace Value

theorem at?_nil (v : Value) : v.at? [] = some v := by
  cases v <;> rfl

theorem at?_map (es : Entries Value) (key : String) (rest : List String) :
    (map es).at? (key :: rest) = (Entries.find? es key).bind fun v => v.at? rest := rfl

theorem at?_append (v : Value) (path rest : List String) :
    v.at? (path ++ rest) = (v.at? path).bind fun w => w.at? rest := by
  induction path generalizing v with
  | nil => rw [List.nil_append, at?_nil, Option.bind_some]
  | cons key path ih =>
    cases v with
    | map es =>
      rw [List.cons_append, at?_map, at?_map, Option.bind_assoc]
      exact Option.bind_congr fun w _ => ih w
    | _ => rfl

/-- The entries of the map at a path, none where there is no map. -/
def entriesAt (v : Value) (path : List String) : Entries Value :=
  match v.at? path with
  | some (map es) => es
  | _ => []

theorem entriesAt_nil (es : Entries Value) : (map es).entriesAt [] = es := by
  rw [entriesAt, at?_nil]

/-- No value lies below what is no map, and none below an empty one. -/
theorem at?_entriesAt (v : Value) (key : String) {rest : List String} (below : rest ≠ []) :
    (map (v.entriesAt [key])).at? rest = v.at? (key :: rest) := by
  have empty : (map []).at? rest = none := by
    obtain ⟨first, more, rfl⟩ := List.exists_cons_of_ne_nil below
    rfl
  cases v with
  | map es =>
    rw [at?_map, entriesAt, at?_map]
    cases Entries.find? es key with
    | none => exact empty
    | some w =>
      rw [Option.bind_some, Option.bind_some, at?_nil]
      cases w with
      | map inner => rfl
      | _ =>
        obtain ⟨first, more, rfl⟩ := List.exists_cons_of_ne_nil below
        rfl
  | _ => exact empty

theorem entriesAt_entriesAt (v : Value) (key : String) (rest : List String) :
    (map (v.entriesAt [key])).entriesAt rest = v.entriesAt (key :: rest) := by
  cases rest with
  | nil => exact entriesAt_nil _
  | cons next more => rw [entriesAt, at?_entriesAt v key (by simp), ← entriesAt]

end Value

namespace Context

open Value

theorem setIn_cons (key : String) {rest : List String} (below : rest ≠ []) (value : Value)
    (es : Entries Value) :
    setIn (key :: rest) value es =
      Entries.put es key (.map (setIn rest value ((Value.map es).entriesAt [key]))) := by
  obtain ⟨next, more, rfl⟩ := List.exists_cons_of_ne_nil below
  rw [setIn, entriesAt, at?_map]
  · cases Entries.find? es key with
    | none => rfl
    | some v => cases v <;> rfl
  · exact List.cons_ne_nil next more

theorem setIn_eq_put (key : String) (rest : List String) (value : Value) (es : Entries Value) :
    ∃ w, setIn (key :: rest) value es = Entries.put es key w := by
  cases rest with
  | nil => exact ⟨value, rfl⟩
  | cons next more => exact ⟨_, setIn_cons key (by simp) value es⟩

variable {path : List String} (value : Value)

theorem at?_setIn_self (there : path ≠ []) (es : Entries Value) :
    (Value.map (setIn path value es)).at? path = some value := by
  induction path generalizing es with
  | nil => exact absurd rfl there
  | cons key rest ih =>
    cases rest with
    | nil => rw [setIn, at?_map, Entries.find?_put, if_pos rfl, Option.bind_some, at?_nil]
    | cons next more =>
      rw [setIn_cons key (by simp), at?_map, Entries.find?_put, if_pos rfl, Option.bind_some]
      exact ih (by simp) _

/-- A path that leads elsewhere leads to what it led to. -/
theorem at?_setIn_apart {other : List String} (not_below : ¬ path <+: other)
    (not_above : ¬ other <+: path) (es : Entries Value) :
    (Value.map (setIn path value es)).at? other = (Value.map es).at? other := by
  induction path generalizing es other with
  | nil => exact absurd List.nil_prefix not_below
  | cons key rest ih =>
    cases other with
    | nil => exact absurd List.nil_prefix not_above
    | cons first more =>
      by_cases same : key = first
      · subst same
        rw [List.cons_prefix_cons, not_and] at not_below not_above
        have apart := not_below rfl
        have apart' := not_above rfl
        have below : rest ≠ [] := fun none => apart (none ▸ List.nil_prefix)
        have below' : more ≠ [] := fun none => apart' (none ▸ List.nil_prefix)
        rw [setIn_cons key below, at?_map, Entries.find?_put, if_pos rfl, Option.bind_some,
          ih apart apart', at?_entriesAt _ key below']
      · obtain ⟨w, put⟩ := setIn_eq_put key rest value es
        rw [put, at?_map, at?_map, Entries.find?_put, if_neg same]

/-- Above its end a path leads to a map, to which the next key was put. -/
theorem at?_setIn_above (above : List String) (key : String) (rest : List String)
    (es : Entries Value) :
    ∃ w, (Value.map (setIn (above ++ key :: rest) value es)).at? above =
      some (.map (Entries.put ((Value.map es).entriesAt above) key w)) := by
  induction above generalizing es with
  | nil =>
    obtain ⟨w, put⟩ := setIn_eq_put key rest value es
    exact ⟨w, by rw [List.nil_append, put, at?_nil, entriesAt_nil]⟩
  | cons first more ih =>
    obtain ⟨w, inside⟩ := ih ((Value.map es).entriesAt [first])
    refine ⟨w, ?_⟩
    rw [List.cons_append, setIn_cons first (by simp), at?_map, Entries.find?_put, if_pos rfl,
      Option.bind_some, inside, entriesAt_entriesAt]

theorem get?_eq_at? (c : Context) (path : String) :
    c.get? path = (Value.map c.entries).at? (Text.segments path) := by
  rw [get?]
  cases parts : Text.segments path with
  | nil => exact absurd parts (Text.segments_ne_nil path)
  | cons key rest => rfl

/-- What became of a context by a value under a path, for every other path. -/
structure HasSet (c c' : Context) (path : String) (value : Value) : Prop where
  there : c'.get? path = some value
  below : ∀ other rest, Text.segments other = Text.segments path ++ rest →
    c'.get? other = value.at? rest
  apart : ∀ other, ¬ Text.segments path <+: Text.segments other →
    ¬ Text.segments other <+: Text.segments path → c'.get? other = c.get? other
  above : ∀ other key rest, Text.segments path = Text.segments other ++ key :: rest →
    ∃ es', c'.get? other = some (.map es') ∧
      (∀ es, c.get? other = some (.map es) → Entries.AlteredAt es es' key) ∧
      ((∀ es, c.get? other ≠ some (.map es)) → ∃ w, es' = [(key, w)])
  names : ∀ first rest, Text.segments path = first :: rest →
    Entries.AlteredAt c.entries c'.entries first

theorem get?_set_self (c : Context) (path : String) :
    (c.set path value).get? path = some value := by
  rw [get?_eq_at?]
  exact at?_setIn_self value (Text.segments_ne_nil path) c.entries

theorem hasSet_set (c : Context) (path : String) (value : Value) :
    HasSet c (c.set path value) path value where
  there := get?_set_self value c path
  below := by
    intro other rest longer
    have self := get?_set_self value c path
    rw [get?_eq_at?] at self
    rw [get?_eq_at?, longer, at?_append, self, Option.bind_some]
  apart := by
    intro other not_below not_above
    rw [get?_eq_at?, get?_eq_at?]
    exact at?_setIn_apart value not_below not_above c.entries
  above := by
    intro other key rest shorter
    obtain ⟨w, inside⟩ := at?_setIn_above value (Text.segments other) key rest c.entries
    rw [← shorter] at inside
    refine ⟨_, (get?_eq_at? _ other).trans inside, ?_, ?_⟩
    · intro es was
      rw [get?_eq_at?] at was
      rw [entriesAt, was]
      exact Entries.alteredAt_put es key w
    · intro no_map
      refine ⟨w, ?_⟩
      rw [get?_eq_at?] at no_map
      have none_there : (Value.map c.entries).entriesAt (Text.segments other) = [] := by
        unfold entriesAt
        split
        · rename_i es was
          exact absurd was (no_map es)
        · rfl
      rw [none_there]
      rfl
  names := by
    intro first rest parts
    obtain ⟨w, put⟩ := setIn_eq_put first rest value c.entries
    rw [set, parts, put]
    exact Entries.alteredAt_put c.entries first w

/-- A text gives way to a map, and the names keep their order. -/
example : (set ⟨[("user", .string "old"), ("x", .null)]⟩ "user.age" (.int 30)).entries =
    [("user", .map [("age", .int 30)]), ("x", .null)] := rfl

end Context

end RuleRegistry
