namespace RuleRegistry

abbrev Entries (α : Type) := List (String × α)

namespace Entries

variable {α β γ : Type}

def find? : Entries α → String → Option α
  | [], _ => none
  | (k, v) :: rest, key => if k = key then some v else find? rest key

def has (es : Entries α) (key : String) : Bool := (find? es key).isSome

def keys (es : Entries α) : List String := es.map Prod.fst

/-- Replaces the value under a key in place, or adds the key at the end. -/
def put : Entries α → String → α → Entries α
  | [], key, value => [(key, value)]
  | (k, v) :: rest, key, value =>
    if k = key then (k, value) :: rest else (k, v) :: put rest key value

def putNew (es : Entries α) (key : String) (value : α) : Entries α :=
  if has es key then es else put es key value

def erase (es : Entries α) (key : String) : Entries α := es.filter fun e => e.1 ≠ key

/-- Puts each pair in turn: a repeated key keeps its first place and takes its last value. -/
def putAll (es : Entries α) (pairs : List (String × α)) : Entries α :=
  pairs.foldl (fun acc p => put acc p.1 p.2) es

def ofPairs (pairs : List (String × α)) : Entries α := putAll [] pairs

def mapValues (f : α → β) (es : Entries α) : Entries β := es.map fun e => (e.1, f e.2)

/-- Equality without order: as many entries, and each of the first is in the second. -/
def sameBy (same : α → α → Bool) (es fs : Entries α) : Bool :=
  es.length == fs.length && es.all fun e => match find? fs e.1 with
    | some v => same e.2 v
    | none => false

theorem find?_put (es : Entries α) (key other : String) (value : α) :
    find? (put es key value) other = if key = other then some value else find? es other := by
  induction es with
  | nil => simp [put, find?]
  | cons e rest ih =>
    obtain ⟨k, v⟩ := e
    by_cases hk : k = key
    · subst hk
      by_cases ho : k = other <;> simp [put, find?, ho]
    · by_cases ho : k = other
      · subst ho
        simp [put, find?, hk, Ne.symm hk]
      · simp [put, find?, hk, ho, ih]

theorem keys_put (es : Entries α) (key : String) (value : α) :
    keys (put es key value) = if key ∈ keys es then keys es else keys es ++ [key] := by
  induction es with
  | nil => simp [put, keys]
  | cons e rest ih =>
    obtain ⟨k, v⟩ := e
    by_cases hk : k = key
    · simp [put, keys, hk]
    · have hne : ¬ key = k := fun h => hk h.symm
      simp only [keys] at ih
      simp only [put, keys, hk, if_false, List.map_cons, ih, List.mem_cons, hne, false_or]
      by_cases hm : key ∈ List.map Prod.fst rest <;> simp [hm]

theorem find?_eq_none_iff (es : Entries α) (key : String) :
    find? es key = none ↔ key ∉ keys es := by
  induction es with
  | nil => simp [find?, keys]
  | cons e rest ih =>
    obtain ⟨k, v⟩ := e
    simp only [keys] at ih
    by_cases hk : k = key
    · simp [find?, keys, hk]
    · simp [find?, keys, hk, ih, Ne.symm hk]

theorem has_iff {es : Entries α} {key : String} : has es key = true ↔ key ∈ keys es := by
  rw [has, Option.isSome_iff_ne_none, Ne, find?_eq_none_iff, Decidable.not_not]

theorem find?_append (es fs : Entries α) (key : String) :
    find? (es ++ fs) key = (find? es key).or (find? fs key) := by
  induction es with
  | nil => rfl
  | cons e rest ih =>
    obtain ⟨k, v⟩ := e
    rw [List.cons_append, find?, find?, ih]
    split <;> rfl

theorem find?_map (name : γ → String) (value : γ → α) (xs : List γ) (key : String) :
    find? (xs.map fun x => (name x, value x)) key =
      (xs.find? fun x => name x == key).map value := by
  induction xs with
  | nil => rfl
  | cons x rest ih =>
    by_cases same : name x = key
    · simp [find?, same]
    · simp [find?, same, ih]

/-- Of the values that are put under a key the last one is found. -/
theorem find?_putAll (es : Entries α) (pairs : List (String × α)) (key : String) :
    find? (putAll es pairs) key = (find? pairs.reverse key).or (find? es key) := by
  induction pairs generalizing es with
  | nil => rfl
  | cons p rest ih =>
    rw [putAll, List.foldl_cons, ← putAll, ih, List.reverse_cons, find?_append, find?_put, find?,
      Option.or_assoc]
    split <;> rfl

/-- Of the values that are put under a new key the first one is found. -/
theorem find?_putNew (es : Entries α) (pairs : List (String × α)) (key : String) :
    find? (pairs.foldl (fun acc p => putNew acc p.1 p.2) es) key =
      (find? es key).or (find? pairs key) := by
  induction pairs generalizing es with
  | nil => exact (Option.or_none).symm
  | cons p rest ih =>
    have first : find? (putNew es p.1 p.2) key =
        (find? es key).or (if p.1 = key then some p.2 else none) := by
      unfold putNew has
      cases there : find? es p.1 with
      | some v =>
        by_cases same : p.1 = key
        · subst same
          simp [there]
        · simp [same]
      | none =>
        by_cases same : p.1 = key
        · subst same
          simp [there, find?_put]
        · simp [same, find?_put]
    rw [List.foldl_cons, ih, first, find?, Option.or_assoc]
    split <;> rfl

theorem nodup_put {es : Entries α} (h : (keys es).Nodup) (key : String) (value : α) :
    (keys (put es key value)).Nodup := by
  rw [keys_put]
  split
  · exact h
  · rename_i hk
    rw [List.nodup_append]
    refine ⟨h, by simp, ?_⟩
    intro a ha b hb
    simp only [List.mem_singleton] at hb
    subst hb
    exact fun e => hk (e ▸ ha)

theorem nodup_ofPairs (pairs : List (String × α)) : (keys (ofPairs pairs)).Nodup := by
  have grow : ∀ (ps : List (String × α)) (es : Entries α),
      (keys es).Nodup → (keys (putAll es ps)).Nodup := by
    intro ps
    induction ps with
    | nil => exact fun _ h => h
    | cons p rest ih => exact fun es h => ih _ (nodup_put h p.1 p.2)
  exact grow pairs [] (by simp [keys])

theorem mem_put {es : Entries α} {key : String} {value : α} {e : String × α}
    (h : e ∈ put es key value) : e ∈ es ∨ e = (key, value) := by
  induction es with
  | nil => simpa [put] using h
  | cons first rest ih =>
    obtain ⟨k, v⟩ := first
    by_cases hk : k = key
    · simp only [put, if_pos hk, List.mem_cons] at h
      rcases h with rfl | h
      · exact .inr (by rw [hk])
      · exact .inl (List.mem_cons_of_mem _ h)
    · simp only [put, if_neg hk, List.mem_cons] at h
      rcases h with rfl | h
      · exact .inl List.mem_cons_self
      · rcases ih h with h | h
        · exact .inl (List.mem_cons_of_mem _ h)
        · exact .inr h

theorem forall_put {P : α → Prop} {es : Entries α} (h : ∀ e ∈ es, P e.2) (key : String) {value : α}
    (hv : P value) : ∀ e ∈ put es key value, P e.2 := by
  intro e he
  rcases mem_put he with he | rfl
  · exact h e he
  · exact hv

theorem mem_putAll {pairs : List (String × α)} {es : Entries α} {e : String × α}
    (h : e ∈ putAll es pairs) : e ∈ es ∨ e ∈ pairs := by
  induction pairs generalizing es with
  | nil => exact .inl h
  | cons p rest ih =>
    rcases ih h with h | h
    · rcases mem_put h with h | h
      · exact .inl h
      · exact .inr (h ▸ List.mem_cons_self)
    · exact .inr (List.mem_cons_of_mem _ h)

theorem put_of_not_mem {es : Entries α} {key : String} (h : key ∉ keys es) (value : α) :
    put es key value = es ++ [(key, value)] := by
  induction es with
  | nil => rfl
  | cons e rest ih =>
    obtain ⟨k, v⟩ := e
    simp only [keys, List.map_cons, List.mem_cons, not_or] at h
    simp [put, Ne.symm h.1, ih h.2]

theorem not_mem_of_nodup_append {es rest : Entries α} {e : String × α}
    (h : (keys (es ++ e :: rest)).Nodup) : e.1 ∉ keys es := by
  simp only [keys, List.map_append, List.map_cons, List.nodup_append] at h
  exact fun there => h.2.2 e.1 there e.1 List.mem_cons_self rfl

theorem putAll_of_nodup (es : Entries α) (pairs : List (String × α))
    (h : (keys (es ++ pairs)).Nodup) : putAll es pairs = es ++ pairs := by
  induction pairs generalizing es with
  | nil => simp [putAll]
  | cons p rest ih =>
    have fresh : p.1 ∉ keys es := not_mem_of_nodup_append h
    have step : putAll es (p :: rest) = putAll (es ++ [p]) rest := by
      simp [putAll, put_of_not_mem fresh]
    rw [step, ih _ (by simpa using h)]
    simp

theorem ofPairs_of_nodup {pairs : List (String × α)} (h : (keys pairs).Nodup) :
    ofPairs pairs = pairs :=
  putAll_of_nodup [] pairs h

theorem mem_of_find? {es : Entries α} {key : String} {value : α} (h : find? es key = some value) :
    (key, value) ∈ es := by
  induction es with
  | nil => cases h
  | cons e rest ih =>
    obtain ⟨k, v⟩ := e
    by_cases hk : k = key
    · simp only [find?, if_pos hk] at h
      exact List.mem_cons.mpr (.inl (by rw [hk, Option.some.inj h]))
    · simp only [find?, if_neg hk] at h
      exact List.mem_cons_of_mem _ (ih h)

theorem keys_mapValues (f : α → β) (es : Entries α) : keys (mapValues f es) = keys es := by
  simp [keys, mapValues]

theorem nodup_filter {es : Entries α} (h : (keys es).Nodup) (p : String × α → Bool) :
    (keys (es.filter p)).Nodup :=
  (List.filter_sublist.map Prod.fst).nodup h

theorem find?_eq_some_iff {es : Entries α} (h : (keys es).Nodup) {key : String} {value : α} :
    find? es key = some value ↔ (key, value) ∈ es := by
  refine ⟨mem_of_find?, fun mem => ?_⟩
  induction es with
  | nil => cases mem
  | cons e rest ih =>
    obtain ⟨new, others⟩ := List.nodup_cons.mp h
    rw [find?]
    rcases List.mem_cons.mp mem with rfl | mem
    · exact if_pos rfl
    · rw [if_neg fun same : e.1 = key => new (same ▸ List.mem_map_of_mem mem)]
      exact ih others mem

theorem find?_reverse {es : Entries α} (h : (keys es).Nodup) (key : String) :
    find? es.reverse key = find? es key := by
  have turned : (keys es.reverse).Nodup := by
    rw [keys, List.map_reverse]
    exact List.pairwise_reverse.mpr (List.Pairwise.imp Ne.symm h)
  refine Option.ext fun v => ?_
  rw [find?_eq_some_iff turned, find?_eq_some_iff h, List.mem_reverse]

theorem erase_of_not_mem {es : Entries α} {key : String} (h : key ∉ keys es) : erase es key = es :=
  List.filter_eq_self.mpr fun e he => by
    simpa using fun same : e.1 = key => h (same ▸ List.mem_map_of_mem he)

theorem not_mem_keys_erase (es : Entries α) (key : String) : key ∉ keys (erase es key) := by
  simp [keys, erase]

end Entries

end RuleRegistry
