import RuleRegistry.Proofs.ParseHistory

namespace RuleRegistry

open Outcome

namespace Language

/-- What a call reads under a key. -/
def readUnder? (l : Language) (key : String) (call : Call) : Option Parsed :=
  match call.request? with
  | some (source, names) =>
    if requestKey source names = key then (l.parseFresh source names).toOption else none
  | none => none

/-- What was read first under a key. -/
def firstRead (l : Language) (key : String) : List Call → Option Parsed
  | [] => none
  | call :: rest => (l.readUnder? key call).or (firstRead (l.performFresh call).2 key rest)

variable {l : Language} {key : String} {call : Call} {calls : List Call} {source : String}
  {names : List String} {p : Parsed}

theorem readUnder?_eq_some_iff : l.readUnder? key call = some p ↔
    call.request? = some (p.source, p.names) ∧ requestKey p.source p.names = key ∧
      l.parseFresh p.source p.names = .ok p := by
  unfold readUnder?
  split
  · rename_i source names asked
    rw [asked, Option.ite_none_right_eq_some]
    constructor
    · rintro ⟨rfl, read⟩
      have fresh := ok_of_toOption read
      obtain ⟨e, _, _, rfl⟩ := parseFresh_ok_iff.mp fresh
      exact ⟨rfl, rfl, fresh⟩
    · rintro ⟨same, rfl, read⟩
      obtain ⟨rfl, rfl⟩ := Prod.mk.inj (Option.some.inj same)
      exact ⟨rfl, by rw [read]; rfl⟩
  · rename_i asked
    simp [asked]

/-- A call leaves what stands under a key, and reads what does not. -/
theorem find?_parse (l : Language) (store : ParseStore) (source : String) (names : List String)
    (key : String) :
    Entries.find? (l.parse store source names).2 key =
      (Entries.find? store key).or
        (if requestKey source names = key then (l.parseFresh source names).toOption else none) := by
  unfold parse
  dsimp only
  split
  · rename_i known found
    split
    · rename_i same
      rw [← same, found, Option.some_or]
    · rw [Option.or_none]
  · rename_i absent
    split
    · rename_i read fresh
      rw [Entries.find?_put, fresh]
      split
      · rename_i same
        rw [← same, absent]
        rfl
      · rw [Option.or_none]
    · rename_i e failed
      rw [failed]
      split <;> exact (Option.or_none).symm

theorem find?_perform (l : Language) (store : ParseStore) (call : Call) (key : String) :
    Entries.find? (l.perform store call).2.2 key =
      (Entries.find? store key).or (l.readUnder? key call) := by
  cases call with
  | addFunction | register => exact (Option.or_none).symm
  | parse source names | compile source names => exact find?_parse l store source names key
  | evaluate source ctx => exact find?_parse l store source ctx.names key

theorem run_language (l : Language) (store : ParseStore) (calls : List Call) :
    (l.run store calls).2.1 = (l.runFresh calls).2 := by
  induction calls generalizing l store with
  | nil => rfl
  | cons call rest ih =>
    simp only [run, runFresh, ← perform_language l store call]
    exact ih _ _

/-- After a history there stands under a key what stood there before, and else what was read first. -/
theorem find?_run (l : Language) (store : ParseStore) (calls : List Call) (key : String) :
    Entries.find? (l.run store calls).2.2 key =
      (Entries.find? store key).or (l.firstRead key calls) := by
  induction calls generalizing l store with
  | nil => exact (Option.or_none).symm
  | cons call rest ih =>
    rw [run, firstRead, ← Option.or_assoc, ← find?_perform, ← perform_language l store call]
    exact ih _ _

/-- What a language with its own store answers to a request after a history. -/
def parseAfter (l : Language) (calls : List Call) (source : String) (names : List String) :
    Except ExprError Parsed :=
  let (_, l, store) := l.run [] calls
  (l.parse store source names).1

theorem parse_ok_iff {store : ParseStore} : (l.parse store source names).1 = .ok p ↔
    (Entries.find? store (requestKey source names)).or (l.parseFresh source names).toOption =
      some p := by
  unfold parse
  dsimp only
  split
  · rename_i known found
    rw [found, Option.some_or, Option.some.injEq, Except.ok.injEq]
  · rename_i absent
    rw [absent, Option.none_or]
    cases l.parseFresh source names with
    | ok read => rw [Except.ok.injEq, ← Option.some.injEq]; rfl
    | error e => exact iff_of_false nofun nofun

theorem parseAfter_ok_iff : l.parseAfter calls source names = .ok p ↔
    (l.firstRead (requestKey source names) calls).or
      ((l.runFresh calls).2.parseFresh source names).toOption = some p := by
  change ((l.run [] calls).2.1.parse (l.run [] calls).2.2 source names).1 = .ok p ↔ _
  rw [parse_ok_iff, find?_run, run_language]
  rfl

/-- What was read first was read by some call, and nothing under its key was before. -/
theorem exists_of_firstRead (first : l.firstRead key calls = some p) :
    ∃ before call after, calls = before ++ call :: after ∧ l.firstRead key before = none ∧
      (l.runFresh before).2.readUnder? key call = some p := by
  induction calls generalizing l with
  | nil => cases first
  | cons call rest ih =>
    rw [firstRead, Option.or_eq_some_iff] at first
    rcases first with now | ⟨unread, later⟩
    · exact ⟨[], call, rest, rfl, rfl, now⟩
    · obtain ⟨before, asked, after, rfl, none_before, read⟩ := ih later
      refine ⟨call :: before, asked, after, rfl, ?_, read⟩
      rw [firstRead, unread, none_before]
      rfl

theorem mem_readBy_iff {r : Request} : r ∈ l.readBy call ↔
    ∃ p, call.request? = some (p.source, p.names) ∧ l.parseFresh p.source p.names = .ok p ∧
      r = (p.source, p.names.toFinset) := by
  rw [readBy]
  split
  · rename_i source names asked
    rw [asked]
    constructor
    · intro mem
      split at mem
      · rename_i fine
        obtain ⟨p, read⟩ := exists_of_isOk fine
        obtain ⟨e, _, _, rfl⟩ := parseFresh_ok_iff.mp read
        exact ⟨⟨source, names, e⟩, rfl, read, Finset.mem_singleton.mp mem⟩
      · exact absurd mem (Finset.notMem_empty r)
    · rintro ⟨p, same, read, rfl⟩
      obtain ⟨rfl, rfl⟩ := Prod.mk.inj (Option.some.inj same)
      rw [read]
      exact Finset.mem_singleton_self _
  · rename_i asked
    simp [asked]

theorem mem_readSoFar_of_firstRead (first : l.firstRead key calls = some p) :
    (p.source, p.names.toFinset) ∈ l.readSoFar calls := by
  induction calls generalizing l with
  | nil => cases first
  | cons call rest ih =>
    rw [firstRead, Option.or_eq_some_iff] at first
    rw [readSoFar, Finset.mem_union]
    rcases first with now | ⟨_, later⟩
    · obtain ⟨asked, _, read⟩ := readUnder?_eq_some_iff.mp now
      exact .inl (mem_readBy_iff.mpr ⟨p, asked, read, rfl⟩)
    · exact .inr (ih later)

/-- The key of a request is that of every list of the same names. -/
theorem not_mem_readSoFar_of_firstRead
    (unread : l.firstRead (requestKey source names) calls = none) :
    (source, names.toFinset) ∉ l.readSoFar calls := by
  induction calls generalizing l with
  | nil => exact Finset.notMem_empty _
  | cons call rest ih =>
    rw [firstRead, Option.or_eq_none_iff] at unread
    rw [readSoFar, Finset.mem_union, not_or]
    refine ⟨fun now => ?_, ih unread.2⟩
    obtain ⟨p, asked, read, same⟩ := mem_readBy_iff.mp now
    obtain ⟨rfl, set⟩ := Prod.mk.inj same
    have found := readUnder?_eq_some_iff.mpr ⟨asked, requestKey_congr set.symm, read⟩
    cases unread.1.symm.trans found

/-- Source and names of a text that was asked for after a history. The names are those of the first
call, this one included, that read the text under that set of names. -/
structure FirstReading (l : Language) (calls : List Call) (source : String) (names : List String)
    (p : Parsed) : Prop where
  text : p.source = source
  listed : p.names.toFinset = names.toFinset
  given : (source, names.toFinset) ∉ l.readSoFar calls → p.names = names
  first : ∃ before call after, calls ++ [.parse source names] = before ++ call :: after ∧
    (source, names.toFinset) ∉ l.readSoFar before ∧ call.request? = some (source, p.names) ∧
    (l.runFresh before).2.parseFresh source p.names = .ok p

/-- What was read under the key of a request has to be that request, but for the order of its names. -/
theorem firstReading_of_parseAfter
    (apart : ∀ source' names', (source', names'.toFinset) ∈ l.readSoFar calls →
      requestKey source' names' = requestKey source names →
        source' = source ∧ names'.toFinset = names.toFinset)
    (read : l.parseAfter calls source names = .ok p) : FirstReading l calls source names p := by
  rw [parseAfter_ok_iff, Option.or_eq_some_iff] at read
  rcases read with earlier | ⟨unread, now⟩
  · have known := mem_readSoFar_of_firstRead earlier
    obtain ⟨before, call, after, split, none_before, found⟩ := exists_of_firstRead earlier
    obtain ⟨asked, key, fresh⟩ := readUnder?_eq_some_iff.mp found
    obtain ⟨rfl, same⟩ := apart p.source p.names known key
    rw [same] at known
    exact ⟨rfl, same, fun new => absurd known new, before, call, after ++ [.parse p.source names],
      by simp [split], not_mem_readSoFar_of_firstRead none_before, asked, fresh⟩
  · have fresh := ok_of_toOption now
    obtain ⟨e, _, _, rfl⟩ := parseFresh_ok_iff.mp fresh
    exact ⟨rfl, rfl, fun _ => rfl, calls, _, [], rfl, not_mem_readSoFar_of_firstRead unread, rfl, fresh⟩

theorem exists_request_of_mem_readSoFar {r : Request} (known : r ∈ l.readSoFar calls) :
    ∃ call ∈ calls, ∃ listed, call.request? = some (r.1, listed) ∧ listed.toFinset = r.2 := by
  induction calls generalizing l with
  | nil => exact absurd known (Finset.notMem_empty r)
  | cons call rest ih =>
    rcases Finset.mem_union.mp known with now | later
    · obtain ⟨p, asked, _, rfl⟩ := mem_readBy_iff.mp now
      exact ⟨call, List.mem_cons_self, p.names, asked, rfl⟩
    · obtain ⟨other, mem, found⟩ := ih later
      exact ⟨other, List.mem_cons_of_mem _ mem, found⟩

/-- Names that are words keep the keys apart. -/
theorem apart_of_words (words : ∀ n ∈ names, Expr.IsWord n.toList)
    (all : ∀ call ∈ calls, ∀ r ∈ call.request?, ∀ n ∈ r.2, Expr.IsWord n.toList) (source' : String)
    (names' : List String) (known : (source', names'.toFinset) ∈ l.readSoFar calls)
    (key : requestKey source' names' = requestKey source names) :
    source' = source ∧ names'.toFinset = names.toFinset := by
  obtain ⟨call, mem, listed, asked, same⟩ := exists_request_of_mem_readSoFar known
  refine (requestKey_eq_iff (fun n hn => all call mem _ asked n ?_) words).mp key
  rwa [← List.mem_toFinset, same, List.mem_toFinset]

/-- A call that fails at first, and the same request with its names in another order, one of them
twice, once the function is known. -/
def reorderedHistory : List Call := [
  .parse "f(x)" ["x", "y"],
  .addFunction (.simple "f" fun args => .ok (.list args)),
  .compile "f(x)" ["y", "x", "x"],
  .evaluate "f(x)" ⟨[("x", .int 1), ("y", .null)]⟩]

theorem firstReading_of_parseAfter_reordered :
    FirstReading {} reorderedHistory "f(x)" ["x", "y"]
      ⟨"f(x)", ["y", "x", "x"], .call "f" [.name "x" []]⟩ := by
  have unknown : parseFresh {} "f(x)" ["x", "y"] = .error (.unknownFunction "f") := by rfl
  have fails : readUnder? {} (requestKey "f(x)" ["x", "y"]) (.parse "f(x)" ["x", "y"]) = none := by
    simp [readUnder?, Call.request?, unknown, Except.toOption]
  have key : requestKey "f(x)" ["y", "x", "x"] = requestKey "f(x)" ["x", "y"] :=
    requestKey_congr (by decide)
  have first : firstRead {} (requestKey "f(x)" ["x", "y"]) reorderedHistory =
      some ⟨"f(x)", ["y", "x", "x"], .call "f" [.name "x" []]⟩ := by
    rw [reorderedHistory, firstRead, fails, Option.none_or, firstRead]
    -- A function that is added reads nothing.
    change firstRead _ _ _ = _
    rw [firstRead, Option.or_eq_some_iff, readUnder?_eq_some_iff]
    exact .inl ⟨rfl, key, by rfl⟩
  have read := parseAfter_ok_iff.mpr (Option.or_eq_some_iff.mpr (.inl first))
  exact firstReading_of_parseAfter (apart_of_words (by decide) (by decide)) read

/-- A second call is answered with the names of the first one. -/
theorem not_parseAfter_as_given : ¬ ∀ (l : Language) (calls : List Call) (source : String)
    (names : List String) (p : Parsed), l.parseAfter calls source names = .ok p →
      p.source = source ∧ p.names = names := by
  intro asGiven
  have read : parseAfter {} [.parse "a" ["a", "b"]] "a" ["b", "a"] =
      .ok ⟨"a", ["a", "b"], .name "a" []⟩ := by
    refine parseAfter_ok_iff.mpr (Option.or_eq_some_iff.mpr (.inl ?_))
    rw [firstRead, firstRead, Option.or_none, readUnder?_eq_some_iff]
    exact ⟨rfl, requestKey_congr (by decide), by rfl⟩
  have names := (asGiven _ _ _ _ _ read).2
  revert names
  decide

end Language

end RuleRegistry
