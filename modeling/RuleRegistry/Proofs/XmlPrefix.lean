import RuleRegistry.Xml.Event

/-!
The front of an XML text. What ends within the front ends there in the whole text too, so the events
of the front are the first events of the text; at most a fault follows, where the front ends inside
of a markup.
-/

namespace RuleRegistry.Xml

theorem isPrefixOf_append {mark text : List Char} (fits : mark.length ≤ text.length)
    (more : List Char) : mark.isPrefixOf (text ++ more) = mark.isPrefixOf text := by
  rw [Bool.eq_iff_iff, List.isPrefixOf_iff_prefix, List.isPrefixOf_iff_prefix]
  constructor
  · exact fun h => List.prefix_of_prefix_length_le h (List.prefix_append text more) fits
  · exact fun h => h.trans (List.prefix_append text more)

theorem length_le_of_after? {mark text rest : List Char} (h : after? mark text = some rest) :
    mark.length + rest.length ≤ text.length := by
  induction text with
  | nil => cases h
  | cons c text ih =>
    rw [after?] at h
    split at h
    · rename_i found
      have fits := (List.isPrefixOf_iff_prefix.mp found).length_le
      cases h
      rw [List.length_drop]
      omega
    · have shorter := ih h
      rw [List.length_cons]
      omega

theorem after?_append {mark text rest : List Char} (h : after? mark text = some rest)
    (more : List Char) : after? mark (text ++ more) = some (rest ++ more) := by
  induction text with
  | nil => cases h
  | cons c text ih =>
    have fits := length_le_of_after? h
    rw [after?] at h
    rw [List.cons_append, after?, ← List.cons_append, isPrefixOf_append (by omega)]
    split at h
    · rename_i found
      cases h
      rw [if_pos found, List.drop_append_of_le_length (by omega)]
    · rename_i missing
      rw [if_neg missing]
      exact ih h

theorem passing_append {mark text rest : List Char} {m : Markup}
    (h : ((after? mark text).map fun rest => (Markup.passing, rest)) = some (m, rest))
    (more : List Char) :
    rest.length ≤ text.length ∧
      ((after? mark (text ++ more)).map fun rest => (Markup.passing, rest)) =
        some (m, rest ++ more) := by
  obtain ⟨after, found, same⟩ := Option.map_eq_some_iff.mp h
  cases same
  have shorter := length_le_of_after? found
  exact ⟨by omega, congrArg (Option.map _) (after?_append found more)⟩

theorem tagText?_append {quote : Option Char} {text inner rest : List Char}
    (h : tagText? quote text = some (inner, rest)) (more : List Char) :
    rest.length ≤ text.length ∧ tagText? quote (text ++ more) = some (inner, rest ++ more) := by
  induction text generalizing quote inner with
  | nil => cases quote <;> cases h
  | cons c text ih =>
    cases quote with
    | none =>
      rw [tagText?] at h
      rw [List.cons_append, tagText?]
      split at h
      · rename_i ended
        cases h
        rw [if_pos ended]
        exact ⟨by simp, rfl⟩
      · rename_i inside
        obtain ⟨p, found, same⟩ := Option.map_eq_some_iff.mp h
        cases same
        obtain ⟨shorter, found'⟩ := ih found
        rw [if_neg inside, found']
        exact ⟨by rw [List.length_cons]; omega, rfl⟩
    | some quote =>
      rw [tagText?] at h
      obtain ⟨p, found, same⟩ := Option.map_eq_some_iff.mp h
      cases same
      obtain ⟨shorter, found'⟩ := ih found
      rw [List.cons_append, tagText?, found']
      exact ⟨by rw [List.length_cons]; omega, rfl⟩

theorem balanced?_append {depth : Nat} {text inner rest : List Char}
    (h : balanced? depth text = some (inner, rest)) (more : List Char) :
    rest.length ≤ text.length ∧ balanced? depth (text ++ more) = some (inner, rest ++ more) := by
  induction text generalizing depth inner with
  | nil => cases h
  | cons c text ih =>
    rw [balanced?] at h
    rw [List.cons_append, balanced?]
    dsimp only at h ⊢
    split at h
    · rename_i ended
      cases h
      rw [if_pos ended]
      exact ⟨by simp, rfl⟩
    · rename_i inside
      obtain ⟨p, found, same⟩ := Option.map_eq_some_iff.mp h
      cases same
      obtain ⟨shorter, found'⟩ := ih found
      rw [if_neg inside, found']
      exact ⟨by rw [List.length_cons]; omega, rfl⟩

theorem afterDoctype?_append {text rest : List Char} (h : afterDoctype? text = some rest)
    (more : List Char) :
    rest.length ≤ text.length ∧ afterDoctype? (text ++ more) = some (rest ++ more) := by
  unfold afterDoctype? at h ⊢
  obtain ⟨⟨inner, rest'⟩, found, h⟩ := Option.bind_eq_some_iff.mp h
  obtain ⟨shorter, found'⟩ := balanced?_append found more
  rw [found']
  dsimp only [Option.bind_some] at h ⊢
  split at h
  · rename_i doctype
    cases h
    exact ⟨shorter, if_pos doctype⟩
  · cases h

theorem afterDoctype?_eq_none {c : Char} (h : c.toUpper ≠ 'D') (text : List Char) :
    afterDoctype? (c :: text) = none := by
  rw [Option.eq_none_iff_forall_not_mem]
  intro rest found
  obtain ⟨⟨inner, rest'⟩, scanned, found⟩ := Option.bind_eq_some_iff.mp found
  have front : inner.take 1 = [] ∨ inner.take 1 = [c] := by
    rw [balanced?] at scanned
    split at scanned
    · cases scanned
      exact .inl rfl
    · obtain ⟨p, _, same⟩ := Option.map_eq_some_iff.mp scanned
      cases same
      exact .inr rfl
  dsimp only at found
  split at found
  · rename_i doctype
    have first := congrArg (List.take 1) doctype.1
    rw [← List.map_take, List.take_take] at first
    rcases front with front | front
    · simp [front] at first
    · exact h (by simpa [front] using first)
  · cases found

theorem markup?_doctype {c : Char} (h : c.toUpper = 'D') (text : List Char) :
    markup? ('!' :: c :: text) = (afterDoctype? (c :: text)).map fun rest => (.passing, rest) := by
  have dash : c ≠ '-' := by
    rintro rfl
    exact absurd h (by decide)
  have bracket : c ≠ '[' := by
    rintro rfl
    exact absurd h (by decide)
  unfold markup?
  split <;> simp_all

theorem markup?_instruction {c : Char} (h : c ≠ '>') (text : List Char) :
    markup? ('?' :: c :: text) = (after? "?>".toList (c :: text)).map fun rest => (.passing, rest) := by
  unfold markup?
  split <;> simp_all

theorem markup?_startTag {c : Char} (bang : c ≠ '!') (ask : c ≠ '?') (slash : c ≠ '/')
    (text : List Char) :
    markup? (c :: text) = (tagText? none (c :: text)).map fun p => (.startTag p.1, p.2) := by
  unfold markup?
  split <;> simp_all

/-- What has been read of a markup does not depend on what follows it. -/
theorem markup?_append {text rest : List Char} {m : Markup} (h : markup? text = some (m, rest))
    (more : List Char) :
    rest.length ≤ text.length ∧ markup? (text ++ more) = some (m, rest ++ more) := by
  unfold markup? at h
  dsimp only at h
  split at h
  · cases h
  · -- a comment
    obtain ⟨shorter, found⟩ := passing_append h more
    exact ⟨by simp only [List.length_cons]; omega, found⟩
  · -- character data
    obtain ⟨shorter, found⟩ := passing_append h more
    exact ⟨by simp only [List.length_cons]; omega, found⟩
  · -- a document type
    rename_i text _ _
    obtain ⟨after, found, same⟩ := Option.map_eq_some_iff.mp h
    cases same
    obtain ⟨shorter, found'⟩ := afterDoctype?_append found more
    refine ⟨by simp only [List.length_cons]; omega, ?_⟩
    cases text with
    | nil => cases found
    | cons c text =>
      by_cases first : c.toUpper = 'D'
      · rw [List.cons_append, List.cons_append, markup?_doctype first, ← List.cons_append, found']
        rfl
      · rw [afterDoctype?_eq_none first] at found
        cases found
  · cases h
  · -- an instruction
    rename_i text other
    obtain ⟨shorter, found⟩ := passing_append h more
    refine ⟨by simp only [List.length_cons]; omega, ?_⟩
    cases text with
    | nil => cases h
    | cons c text =>
      have first : c ≠ '>' := fun same => other text (by rw [same])
      rw [List.cons_append, List.cons_append, markup?_instruction first, ← List.cons_append]
      exact found
  · -- an end tag
    obtain ⟨⟨name, after⟩, found, same⟩ := Option.map_eq_some_iff.mp h
    cases same
    obtain ⟨shorter, found'⟩ := tagText?_append found more
    refine ⟨by simp only [List.length_cons]; omega, ?_⟩
    exact congrArg (Option.map _) found'
  · -- a start tag
    rename_i nonempty _ _ bang _ ask slash
    obtain ⟨⟨inner, after⟩, found, same⟩ := Option.map_eq_some_iff.mp h
    cases same
    obtain ⟨shorter, found'⟩ := tagText?_append found more
    refine ⟨shorter, ?_⟩
    cases text with
    | nil => cases found
    | cons c text =>
      have bang : c ≠ '!' := fun same => bang text (by rw [same])
      have ask : c ≠ '?' := fun same => ask text (by rw [same])
      have slash : c ≠ '/' := fun same => slash text (by rw [same])
      rw [List.cons_append, markup?_startTag bang ask slash, ← List.cons_append, found']
      rfl

/-- The first events are the same; the front may have one fault after them. -/
def Begins (front whole : List Event) : Prop :=
  ∃ es ending more, front = es ++ ending ∧ whole = es ++ more ∧ (ending = [] ∨ ending = [.fault])

namespace Begins

theorem nil (whole : List Event) : Begins [] whole := ⟨[], [], whole, rfl, rfl, .inl rfl⟩

theorem fault (whole : List Event) : Begins [.fault] whole :=
  ⟨[], [.fault], whole, rfl, rfl, .inr rfl⟩

theorem cons {front whole : List Event} (h : Begins front whole) (e : Event) :
    Begins (e :: front) (e :: whole) := by
  obtain ⟨es, ending, more, rfl, rfl, last⟩ := h
  exact ⟨e :: es, ending, more, rfl, rfl, last⟩

end Begins

theorem eventsFrom_begins {fuel fuel' : Nat} {front : List Char} (back : List Char)
    (enough : front.length < fuel) (enough' : (front ++ back).length < fuel')
    (opened : List (List Char)) :
    Begins (eventsFrom fuel opened front) (eventsFrom fuel' opened (front ++ back)) := by
  induction fuel generalizing fuel' front opened with
  | zero => omega
  | succ fuel ih =>
    obtain ⟨fuel', rfl⟩ : ∃ less, fuel' = less + 1 := ⟨fuel' - 1, by omega⟩
    have dropped := (List.dropWhile_sublist (· ≠ '<') (l := front)).length_le
    rw [eventsFrom, eventsFrom, List.dropWhile_append]
    cases ahead : front.dropWhile (· ≠ '<') with
    | nil => exact .nil _
    | cons c text =>
      dsimp only [List.isEmpty_cons, List.cons_append]
      rw [if_neg (by decide)]
      dsimp only
      cases read : markup? text with
      | none => exact .fault _
      | some p =>
        obtain ⟨m, rest⟩ := p
        obtain ⟨shorter, read'⟩ := markup?_append read back
        rw [read']
        have less : rest.length < fuel := by
          rw [ahead, List.length_cons] at dropped
          omega
        have less' : (rest ++ back).length < fuel' := by
          rw [List.length_append] at enough' ⊢
          rw [ahead, List.length_cons] at dropped
          omega
        cases m with
        | passing => exact ih less less' opened
        | endTag name =>
          cases opened with
          | nil => exact .fault _
          | cons last others =>
            dsimp only
            split
            · exact (ih less less' others).cons _
            · exact .fault _
        | startTag inner =>
          dsimp only
          split
          · exact (ih less less' opened).cons _
          · exact (ih less less' _).cons _

theorem events_begins (front back : String) : Begins (events front) (events (front ++ back)) := by
  rw [events, events, String.toList_append]
  refine eventsFrom_begins _ ?_ ?_ []
  · exact Nat.lt_succ_self _
  · rw [← String.toList_append]
    exact Nat.lt_succ_self _

end RuleRegistry.Xml
