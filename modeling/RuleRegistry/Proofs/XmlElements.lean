import RuleRegistry.Proofs.Outcome
import RuleRegistry.Source.Loader

/-!
The elements of an XML file. Inside of the root elements follow each other, with tags inside of them.
A file is read without a fault exactly when it is made of such elements, up to the end tag of the root
or up to its own end, where the root and one more element may still be open. Its definitions are those
of the elements that are closed.
-/

namespace RuleRegistry.Source.XmlRules

open Outcome Xml

/-- Events of elements that are all closed, with the tags of the outermost ones. -/
inductive Closed : List Tag → List Xml.Event → Prop
  | nil : Closed [] []
  | empty {t tags es} (others : Closed tags es) : Closed (t :: tags) (.element t true :: es)
  | full {t inner tags inside es} (within : Closed inner inside) (others : Closed tags es) :
      Closed (t :: tags) (.element t false :: (inside ++ .closing :: es))

/-- A closed element inside of the root. -/
inductive Item where
  | empty (head : Tag)
  | full (head : Tag) (tags : List Tag) (inside : List Xml.Event) (closed : Closed tags inside)

namespace Item

def events : Item → List Xml.Event
  | empty head => [.element head true]
  | full head _ inside _ => .element head false :: (inside ++ [.closing])

def head : Item → Tag
  | empty head => head
  | full head _ _ _ => head

def tags : Item → List Tag
  | empty _ => []
  | full _ tags _ _ => tags

def read (path : Path) (i : Item) : Except Error Definition :=
  (openElement path i.head).bind fun p =>
    (i.tags.foldlM (Pending.addTag path) p).bind fun q => q.finish path

end Item

/-- How the elements may end: with the end tag of the root, with the text, or with the text inside of
an element but of none of its tags. -/
inductive Ends (path : Path) : List Xml.Event → Prop
  | closed {rest} : Ends path (.closing :: rest)
  | between : Ends path []
  | within {t p tags inside q} (opened : openElement path t = .ok p) (closed : Closed tags inside)
      (added : tags.foldlM (Pending.addTag path) p = .ok q) :
      Ends path (.element t false :: inside)

variable {path : Path} {p : Pending} {tags : List Tag} {es : List Xml.Event}

theorem readBody_within_succ (h : Closed tags es) (depth : Nat) (rest : List Xml.Event) :
    readBody path (.within p (depth + 1)) (es ++ rest) = readBody path (.within p (depth + 1)) rest := by
  induction h generalizing depth rest with
  | nil => rfl
  | empty _ ih =>
    rw [List.cons_append, readBody, if_pos rfl]
    exact ih depth rest
  | full _ _ within_ih others_ih =>
    rw [List.cons_append, List.append_assoc, List.cons_append, readBody, if_neg (by decide),
      within_ih, readBody]
    exact others_ih depth rest

theorem readBody_within (h : Closed tags es) (p : Pending) (rest : List Xml.Event) :
    readBody path (.within p 0) (es ++ rest) =
      match tags.foldlM (Pending.addTag path) p with
      | .error e => .failed e
      | .ok q => readBody path (.within q 0) rest := by
  induction h generalizing p with
  | nil => rfl
  | @empty t tags es _ ih =>
    rw [List.cons_append, readBody, List.foldlM_cons]
    cases added : p.addTag path t with
    | error e => rfl
    | ok q => exact ih q
  | @full t inner tags inside es closed _ _ ih =>
    rw [List.cons_append, readBody, List.foldlM_cons]
    cases added : p.addTag path t with
    | error e => rfl
    | ok q =>
      dsimp only
      rw [if_neg (by decide), List.append_assoc, readBody_within_succ closed, List.cons_append, readBody]
      exact ih q

theorem readBody_item {i : Item} {d : Definition} (h : i.read path = .ok d) (rest : List Xml.Event) :
    readBody path .between (i.events ++ rest) =
      ⟨d :: (readBody path .between rest).found, (readBody path .between rest).error⟩ := by
  obtain ⟨p, opened, h⟩ := bind_ok_iff.mp h
  obtain ⟨q, added, finished⟩ := bind_ok_iff.mp h
  cases i with
  | empty t =>
    cases added
    simp only [Item.head] at opened
    rw [Item.events, List.singleton_append, readBody]
    simp only [opened, finished, if_true]
  | full t tags inside closed =>
    simp only [Item.head] at opened
    simp only [Item.tags] at added
    rw [Item.events, List.cons_append, List.append_assoc, readBody]
    simp only [opened, Bool.false_eq_true, if_false]
    rw [readBody_within closed, added]
    simp only [List.singleton_append, readBody, finished]

theorem mapM_cons_ok {i : Item} {items : List Item} {d : Definition} {ds : List Definition}
    (first : i.read path = .ok d) (others : items.mapM (Item.read path) = .ok ds) :
    (i :: items).mapM (Item.read path) = .ok (d :: ds) := by
  rw [List.mapM_cons, first, others]
  rfl

theorem readBody_items {items : List Item} {ds : List Definition}
    (h : items.mapM (Item.read path) = .ok ds) (rest : List Xml.Event) :
    readBody path .between (items.flatMap Item.events ++ rest) =
      ⟨ds ++ (readBody path .between rest).found, (readBody path .between rest).error⟩ := by
  induction items generalizing ds with
  | nil =>
    cases h
    rfl
  | cons i items ih =>
    rw [List.mapM_cons, do_ok_iff] at h
    obtain ⟨d, first, h⟩ := h
    obtain ⟨others, rest_ok, h⟩ := do_ok_iff.mp h
    cases h
    rw [List.flatMap_cons, List.append_assoc, readBody_item first, ih rest_ok]
    rfl

theorem readBody_end (h : Ends path es) : readBody path .between es = ⟨[], none⟩ := by
  cases h with
  | closed => rw [readBody]
  | between => rw [readBody]
  | @within t p tags inside q opened closed added =>
    rw [readBody]
    simp only [opened, Bool.false_eq_true, if_false]
    rw [← List.append_nil inside, readBody_within closed, added]
    rfl

theorem exists_closing (es : List Xml.Event) {depth : Nat}
    (ok : (readBody path (.within p (depth + 1)) es).error = none) :
    ∃ tags inside rest, Closed tags inside ∧ es = inside ++ .closing :: rest := by
  -- What follows an inner element is shorter, but it is no tail of the events.
  induction size : es.length using Nat.strongRecOn generalizing es depth with
  | _ n ih =>
    subst size
    match es with
    | [] => cases ok
    | .fault :: _ => cases ok
    | .closing :: rest => exact ⟨[], [], rest, .nil, rfl⟩
    | .element t true :: es =>
      rw [readBody, if_pos rfl] at ok
      obtain ⟨tags, inside, rest, closed, rfl⟩ := ih _ (by simp) es ok rfl
      exact ⟨t :: tags, .element t true :: inside, rest, .empty closed, rfl⟩
    | .element t false :: es =>
      rw [readBody, if_neg (by decide)] at ok
      obtain ⟨inner, inside, rest, closed, rfl⟩ := ih _ (by simp) es ok rfl
      rw [readBody_within_succ closed, readBody] at ok
      obtain ⟨tags, others, rest, closed', rfl⟩ := ih _ (by simp; omega) rest ok rfl
      exact ⟨t :: tags, .element t false :: (inside ++ .closing :: others), rest, .full closed closed',
        by simp⟩

theorem exists_end (es : List Xml.Event) {p : Pending}
    (ok : (readBody path (.within p 0) es).error = none) :
    ∃ tags inside q, Closed tags inside ∧ tags.foldlM (Pending.addTag path) p = .ok q ∧
      (es = inside ∨ ∃ rest, es = inside ++ .closing :: rest) := by
  induction size : es.length using Nat.strongRecOn generalizing es p with
  | _ n ih =>
    subst size
    match es with
    | [] => exact ⟨[], [], p, .nil, rfl, .inl rfl⟩
    | .fault :: _ => cases ok
    | .closing :: rest => exact ⟨[], [], p, .nil, rfl, .inr ⟨rest, rfl⟩⟩
    | .element t empty :: es =>
      rw [readBody] at ok
      cases added : p.addTag path t with
      | error e => simp [added, Definitions.failed] at ok
      | ok q =>
        simp only [added] at ok
        cases empty with
        | true =>
          obtain ⟨tags, inside, q', closed, added', last⟩ := ih _ (by simp) es ok rfl
          refine ⟨t :: tags, .element t true :: inside, q', .empty closed, ?_, ?_⟩
          · rw [List.foldlM_cons, added]
            exact added'
          · rcases last with rfl | ⟨rest, rfl⟩
            · exact .inl rfl
            · exact .inr ⟨rest, rfl⟩
        | false =>
          obtain ⟨inner, within, rest, inner_closed, rfl⟩ := exists_closing es ok
          rw [if_neg (by decide), readBody_within_succ inner_closed, readBody] at ok
          obtain ⟨tags, inside, q', closed, added', last⟩ := ih _ (by simp; omega) rest ok rfl
          refine ⟨t :: tags, .element t false :: (within ++ .closing :: inside), q',
            .full inner_closed closed, ?_, ?_⟩
          · rw [List.foldlM_cons, added]
            exact added'
          · rcases last with rfl | ⟨rest, rfl⟩
            · exact .inl rfl
            · exact .inr ⟨rest, by simp⟩

theorem exists_items (es : List Xml.Event) (ok : (readBody path .between es).error = none) :
    ∃ (items : List Item) (tail : List Xml.Event) (ds : List Definition),
      es = items.flatMap Item.events ++ tail ∧ items.mapM (Item.read path) = .ok ds ∧ Ends path tail := by
  induction size : es.length using Nat.strongRecOn generalizing es with
  | _ n ih =>
    subst size
    match es with
    | [] => exact ⟨[], [], [], rfl, rfl, .between⟩
    | .fault :: _ => cases ok
    | .closing :: rest => exact ⟨[], .closing :: rest, [], rfl, rfl, .closed⟩
    | .element t empty :: es =>
      rw [readBody] at ok
      cases opened : openElement path t with
      | error e => simp [opened, Definitions.failed] at ok
      | ok p =>
        cases empty with
        | true =>
          cases finished : p.finish path with
          | error e => simp [opened, finished, Definitions.failed] at ok
          | ok d =>
            simp only [opened, finished, if_true] at ok
            obtain ⟨items, tail, ds, rfl, read, ends⟩ := ih _ (by simp) es ok rfl
            have first : (Item.empty t).read path = .ok d :=
              bind_ok_iff.mpr ⟨p, opened, bind_ok_iff.mpr ⟨p, rfl, finished⟩⟩
            exact ⟨.empty t :: items, tail, d :: ds, rfl, mapM_cons_ok first read, ends⟩
        | false =>
          simp only [opened, Bool.false_eq_true, if_false] at ok
          obtain ⟨tags, inside, q, closed, added, last⟩ := exists_end es ok
          rcases last with rfl | ⟨rest, rfl⟩
          · exact ⟨[], _, [], rfl, rfl, .within opened closed added⟩
          · rw [readBody_within closed, added] at ok
            cases finished : q.finish path with
            | error e => simp [readBody, finished, Definitions.failed] at ok
            | ok d =>
              simp only [readBody, finished] at ok
              obtain ⟨items, tail, ds, rfl, read, ends⟩ := ih _ (by simp; omega) rest ok rfl
              have first : (Item.full t tags inside closed).read path = .ok d :=
                bind_ok_iff.mpr ⟨p, opened, bind_ok_iff.mpr ⟨q, added, finished⟩⟩
              refine ⟨.full t tags inside closed :: items, tail, d :: ds, ?_, mapM_cons_ok first read, ends⟩
              simp [Item.events]

/-- The body of a file is read without a fault exactly when it is made of closed elements that can be
read, and then has their definitions. -/
theorem readBody_ok_iff {ds : List Definition} :
    readBody path .between es = ⟨ds, none⟩ ↔
      ∃ (items : List Item) (tail : List Xml.Event), es = items.flatMap Item.events ++ tail ∧
        items.mapM (Item.read path) = .ok ds ∧ Ends path tail := by
  constructor
  · intro h
    obtain ⟨items, tail, found, rfl, read, ends⟩ := exists_items es (by rw [h])
    rw [readBody_items read, readBody_end ends, List.append_nil, Definitions.mk.injEq] at h
    obtain ⟨rfl, _⟩ := h
    exact ⟨items, tail, rfl, read, ends⟩
  · rintro ⟨items, tail, rfl, read, ends⟩
    rw [readBody_items read, readBody_end ends, List.append_nil]

theorem read_ok_iff {text : String} {ds : List Definition} :
    read path text = ⟨ds, none⟩ ↔
      (∃ root rest, events text = .element root true :: rest ∧ ds = []) ∨
        ∃ (root : Tag) (items : List Item) (tail : List Xml.Event),
          events text = .element root false :: (items.flatMap Item.events ++ tail) ∧
            items.mapM (Item.read path) = .ok ds ∧ Ends path tail := by
  unfold read
  match events text with
  | [] => simp [Definitions.failed]
  | .fault :: _ => simp [Definitions.failed]
  | .closing :: _ => simp [Definitions.failed]
  | .element root true :: rest => simp [eq_comm]
  | .element root false :: body =>
    dsimp only
    rw [readBody_ok_iff]
    constructor
    · rintro ⟨items, tail, rfl, read, ends⟩
      exact .inr ⟨root, items, tail, rfl, read, ends⟩
    · rintro (⟨_, _, same, _⟩ | ⟨_, items, tail, same, read, ends⟩)
      · cases same
      · cases same
        exact ⟨items, tail, rfl, read, ends⟩

end RuleRegistry.Source.XmlRules
