import RuleRegistry.Source.XmlRules

namespace RuleRegistry.Source.XmlRules

open Xml

def underscore (c : Char) : Char := if c = '-' then '_' else c

/-- A name with hyphens and no underscores, and the name with underscores in their place. -/
structure AliasOf (key other : String) : Prop where
  hyphen : '-' ∈ key.toList
  plain : '_' ∉ key.toList
  spelled : other.toList = key.toList.map underscore

theorem alias?_eq_some_iff {key other : String} : alias? key = some other ↔ AliasOf key other := by
  have spelled : String.ofList (key.toList.map underscore) = other ↔
      other.toList = key.toList.map underscore := by
    constructor
    · rintro rfl
      exact String.toList_ofList
    · intro same
      exact String.toList_injective (String.toList_ofList.trans same.symm)
  unfold alias?
  dsimp only
  split
  · rename_i found
    simp only [Bool.and_eq_true, Bool.not_eq_true', List.contains_eq_mem,
      decide_eq_false_iff_not, decide_eq_true_eq] at found
    constructor
    · intro same
      exact ⟨found.1, found.2, spelled.mp (Option.some.inj same)⟩
    · intro h
      exact congrArg some (spelled.mpr h.spelled)
  · rename_i missing
    refine ⟨nofun, fun h => ?_⟩
    apply absurd _ missing
    simp [h.hyphen, h.plain]

theorem AliasOf.unique {key key' other : String} (h : AliasOf key other) (h' : AliasOf key' other) :
    key = key' := by
  -- Without underscores of its own a name is read back from the name with underscores.
  have back {cs : List Char} (plain : '_' ∉ cs) :
      (cs.map underscore).map (fun c => if c = '_' then '-' else c) = cs := by
    induction cs with
    | nil => rfl
    | cons c rest ih =>
      obtain ⟨first, others⟩ := not_or.mp fun here => plain (List.mem_cons.mpr here)
      simp only [List.map_cons, ih others, List.cons.injEq, and_true]
      by_cases hyphen : c = '-'
      · simp [underscore, hyphen]
      · simp [underscore, hyphen, Ne.symm first]
  apply String.toList_injective
  calc key.toList
    _ = _ := (back h.plain).symm
    _ = _ := congrArg _ (h.spelled.symm.trans h'.spelled)
    _ = key'.toList := back h'.plain

theorem AliasOf.ne_name {key other : String} (h : AliasOf key other) : other ≠ "name" := by
  rintro rfl
  have underscored : '_' ∈ "name".toList := by
    rw [h.spelled]
    exact List.mem_map.mpr ⟨'-', h.hyphen, rfl⟩
  exact absurd underscored (by decide)

/-- The text of the first attribute whose name gives this one. -/
def aliasText? (written : List (String × String)) (key : String) : Option String :=
  (written.find? fun a => alias? a.1 = some key).map Prod.snd

/-- What is to be found under a name when these attributes are written. -/
def textFor? (written : List (String × String)) (key : String) : Option String :=
  if key = "name" then none else (Entries.find? written key).or (aliasText? written key)

/-- A tag for which these attributes were read. -/
structure Collected (written : List (String × String)) (tag : String × Attributes) : Prop where
  name : tag.1 = (Entries.find? written "name").getD ""
  nodup : (Entries.keys tag.2).Nodup
  find : ∀ key, Entries.find? tag.2 key = (textFor? written key).map Value.ofSpelling

theorem aliasText?_concat (written : List (String × String)) (entry : String × String)
    (key : String) : aliasText? (written ++ [entry]) key =
      (aliasText? written key).or (if alias? entry.1 = some key then some entry.2 else none) := by
  simp only [aliasText?, List.find?_append, Option.map_or, List.find?_singleton, decide_eq_true_eq]
  split <;> rfl

theorem find?_concat (written : List (String × String)) (entry : String × String) (key : String) :
    Entries.find? (written ++ [entry]) key =
      (Entries.find? written key).or (if entry.1 = key then some entry.2 else none) :=
  Entries.find?_append _ _ _

theorem find?_putNew_one {α : Type} (es : Entries α) (other key : String) (v : α) :
    Entries.find? (Entries.putNew es other v) key =
      (Entries.find? es key).or (if other = key then some v else none) :=
  Entries.find?_putNew es [(other, v)] key

theorem nodup_putNew {α : Type} {es : Entries α} (h : (Entries.keys es).Nodup) (key : String)
    (v : α) : (Entries.keys (Entries.putNew es key v)).Nodup := by
  unfold Entries.putNew
  split
  · exact h
  · exact Entries.nodup_put h key v

/-- The attributes of a tag with the alias of one more name. -/
def withAlias (attributes : Attributes) (key : String) (v : Value) : Attributes :=
  match alias? key with
  | some other => Entries.putNew attributes other v
  | none => attributes

theorem nodup_withAlias {attributes : Attributes} (h : (Entries.keys attributes).Nodup)
    (key : String) (v : Value) : (Entries.keys (withAlias attributes key v)).Nodup := by
  unfold withAlias
  split
  · exact nodup_putNew h _ v
  · exact h

theorem find?_withAlias (attributes : Attributes) (key other : String) (v : Value) :
    Entries.find? (withAlias attributes key v) other =
      (Entries.find? attributes other).or (if alias? key = some other then some v else none) := by
  unfold withAlias
  cases alias? key with
  | some _ => simp only [find?_putNew_one, Option.some.injEq]
  | none => simp

theorem addAttribute_other {key : String} (other : key ≠ "name") (tag : String × Attributes)
    (text : String) : addAttribute tag (key, text) =
      (tag.1, Entries.put (withAlias tag.2 key (.ofSpelling text)) key (.ofSpelling text)) :=
  if_neg other

theorem Collected.addAttribute {written : List (String × String)} {tag : String × Attributes}
    (h : Collected written tag) {entry : String × String}
    (new : entry.1 ∉ Entries.keys written) :
    Collected (written ++ [entry]) (addAttribute tag entry) := by
  obtain ⟨key, text⟩ := entry
  have unread : Entries.find? written key = none := (Entries.find?_eq_none_iff _ _).mpr new
  by_cases named : key = "name"
  · subst named
    have no_alias : ∀ other, alias? "name" ≠ some other := by
      intro other given
      exact absurd (alias?_eq_some_iff.mp given).hyphen (by decide)
    refine { name := ?_, nodup := h.nodup, find := fun other => ?_ }
    · simp [XmlRules.addAttribute, find?_concat, unread]
    · refine (h.find other).trans ?_
      by_cases same : other = "name"
      · simp [textFor?, same]
      · simp [textFor?, same, Ne.symm same, find?_concat, aliasText?_concat, no_alias]
  · rw [addAttribute_other named]
    refine { name := ?_, nodup := ?_, find := fun other => ?_ }
    · simp only [h.name, find?_concat, if_neg named, Option.or_none]
    · apply Entries.nodup_put
      exact nodup_withAlias h.nodup _ _
    · -- Its own name finds the attribute, and so does its alias if nothing was found there before.
      rw [Entries.find?_put, find?_withAlias, h.find]
      by_cases same : key = other
      · subst same
        simp [textFor?, named, find?_concat, unread]
      · by_cases meant : other = "name"
        · have no_alias : alias? key ≠ some other := by
            intro given
            exact (alias?_eq_some_iff.mp given).ne_name meant
          simp [textFor?, meant, named, meant ▸ no_alias]
        · simp only [textFor?, if_neg same, if_neg meant, find?_concat, aliasText?_concat,
            Option.or_none, ← Option.or_assoc, Option.map_or]
          split <;> rfl

theorem Collected.foldl {front back : List (String × String)} {tag : String × Attributes}
    (h : Collected front tag) (distinct : (Entries.keys (front ++ back)).Nodup) :
    Collected (front ++ back) (back.foldl XmlRules.addAttribute tag) := by
  induction back generalizing front tag with
  | nil => simpa using h
  | cons entry back ih =>
    have step := h.addAttribute (Entries.not_mem_of_nodup_append distinct)
    have behind : front ++ entry :: back = (front ++ [entry]) ++ back := by simp
    rw [behind] at distinct ⊢
    exact ih step distinct

theorem collected_nil : Collected [] ("", []) where
  name := rfl
  nodup := .nil
  find key := by simp [textFor?, aliasText?, Entries.find?]

/-- The attributes of an element as they are written, with their name spaces and with declarations
of name spaces among them. Without name spaces the names differ. -/
structure Shows (t : Tag) (raw : List (List Char × List Char)) : Prop where
  written : rawAttributes (t.body.length + 1) [] t.body = some raw
  legible : ∀ a ∈ raw, declaresSpace a.1 = false → ∃ text, unescape a.2 = some text
  distinct : ((raw.filter fun a => !declaresSpace a.1).map fun a => localName a.1).Nodup

/-- One of the written attributes has this name and this text. -/
def Attributed (raw : List (List Char × List Char)) (key text : String) : Prop :=
  ∃ a ∈ raw, declaresSpace a.1 = false ∧ localName a.1 = key.toList ∧
    unescape a.2 = some text.toList

theorem mapM_unescape {raw : List (List Char × List Char)}
    (legible : ∀ a ∈ raw, ∃ text, unescape a.2 = some text) :
    ∃ written, raw.mapM (fun a => (unescape a.2).map fun v =>
        (String.ofList (localName a.1), String.ofList v)) = some written ∧
      Entries.keys written = raw.map (fun a => String.ofList (localName a.1)) ∧
      ∀ key text, (key, text) ∈ written ↔
        ∃ a ∈ raw, localName a.1 = key.toList ∧ unescape a.2 = some text.toList := by
  induction raw with
  | nil => exact ⟨[], rfl, rfl, by simp⟩
  | cons a rest ih =>
    obtain ⟨⟨v, read⟩, others⟩ := List.forall_mem_cons.mp legible
    obtain ⟨written, all, keys, mem⟩ := ih others
    refine ⟨(String.ofList (localName a.1), String.ofList v) :: written, ?_, ?_, ?_⟩
    · simp [read, all]
    · simpa [Entries.keys] using keys
    · intro key text
      have first : (key, text) = (String.ofList (localName a.1), String.ofList v) ↔
          localName a.1 = key.toList ∧ unescape a.2 = some text.toList := by
        rw [read, Option.some.injEq, Prod.mk.injEq, ← String.toList_inj, ← String.toList_inj,
          String.toList_ofList, String.toList_ofList]
        exact and_congr eq_comm eq_comm
      simp only [List.mem_cons, first, mem, exists_eq_or_imp]

theorem Shows.attributes? {t : Tag} {raw : List (List Char × List Char)} (h : Shows t raw) :
    ∃ written, t.attributes? = some written ∧ (Entries.keys written).Nodup ∧
      ∀ key text, (key, text) ∈ written ↔ Attributed raw key text := by
  have legible : ∀ a ∈ raw.filter fun a => !declaresSpace a.1, ∃ text, unescape a.2 = some text := by
    intro a mem
    obtain ⟨listed, plain⟩ := List.mem_filter.mp mem
    exact h.legible a listed (by simpa using plain)
  obtain ⟨written, all, keys, mem⟩ := mapM_unescape legible
  refine ⟨written, ?_, ?_, fun key text => ?_⟩
  · rw [Tag.attributes?, h.written]
    exact all
  · rw [keys]
    have apart := List.pairwise_map.mp h.distinct
    apply List.pairwise_map.mpr
    exact apart.imp fun other same => other (String.ofList_injective same)
  · simp [mem, Attributed, and_assoc]

theorem aliasText?_eq_some_iff {written : List (String × String)}
    (distinct : (Entries.keys written).Nodup) {key text : String} :
    aliasText? written key = some text ↔ ∃ other, (other, text) ∈ written ∧ AliasOf other key := by
  constructor
  · intro found
    obtain ⟨⟨other, v⟩, first, rfl⟩ := Option.map_eq_some_iff.mp found
    have given := List.find?_some first
    exact ⟨other, List.mem_of_find?_eq_some first, alias?_eq_some_iff.mp (of_decide_eq_true given)⟩
  · rintro ⟨other, listed, given⟩
    have some_one : (written.find? fun a => alias? a.1 = some key).isSome = true :=
      List.find?_isSome.mpr ⟨_, listed, decide_eq_true (alias?_eq_some_iff.mpr given)⟩
    obtain ⟨⟨first, v⟩, found⟩ := Option.isSome_iff_exists.mp some_one
    have first_given := List.find?_some found
    have same : first = other := (alias?_eq_some_iff.mp (of_decide_eq_true first_given)).unique given
    subst same
    have read := (Entries.find?_eq_some_iff distinct).mpr listed
    have read' := (Entries.find?_eq_some_iff distinct).mpr (List.mem_of_find?_eq_some found)
    have texts : v = text := Option.some.inj (read'.symm.trans read)
    rw [aliasText?, found, ← texts]
    rfl

theorem textFor?_eq_some_iff {written : List (String × String)}
    (distinct : (Entries.keys written).Nodup) {key text : String} :
    textFor? written key = some text ↔
      key ≠ "name" ∧ (key, text) ∈ written ∨
        key ∉ Entries.keys written ∧ ∃ other, (other, text) ∈ written ∧ AliasOf other key := by
  unfold textFor?
  split
  · rename_i same
    constructor
    · exact nofun
    · rintro (⟨other, _⟩ | ⟨_, _, _, given⟩)
      · exact absurd same other
      · exact absurd same given.ne_name
  · rename_i other
    cases found : Entries.find? written key with
    | some v =>
      have listed : key ∈ Entries.keys written := by
        apply Entries.has_iff.mp
        rw [Entries.has, found]
        rfl
      simp [← Entries.find?_eq_some_iff distinct, found, other, listed]
    | none =>
      have unlisted := (Entries.find?_eq_none_iff written key).mp found
      have absent (text : String) : (key, text) ∉ written := by
        rw [← Entries.find?_eq_some_iff distinct, found]
        exact nofun
      simp [absent, unlisted, aliasText?_eq_some_iff distinct]

/-- Of the attributes of an element with a name each stands under its own name, with the value of its
own text, and under its alias where no attribute has that name. Nothing else is there. -/
theorem readTag_attributes (path : Path) {t : Tag} {raw : List (List Char × List Char)}
    (shown : Shows t raw) {name : String} (named : Attributed raw "name" name) (some_char : name ≠ "") :
    ∃ attributes, readTag path t = .ok (name, attributes) ∧ (Entries.keys attributes).Nodup ∧
      ∀ key value, (key, value) ∈ attributes ↔
        (key ≠ "name" ∧ ∃ text, Attributed raw key text ∧ value = .ofSpelling text) ∨
          ((∀ text, ¬ Attributed raw key text) ∧
            ∃ other text, Attributed raw other text ∧ AliasOf other key ∧ value = .ofSpelling text) := by
  obtain ⟨written, read, distinct, mem⟩ := shown.attributes?
  have collected : Collected written (written.foldl addAttribute ("", [])) :=
    collected_nil.foldl distinct
  have name_found : Entries.find? written "name" = some name :=
    (Entries.find?_eq_some_iff distinct).mpr ((mem "name" name).mpr named)
  have name_eq : (written.foldl addAttribute ("", [])).1 = name := by
    rw [collected.name, name_found]
    rfl
  have unlisted (key : String) : key ∉ Entries.keys written ↔ ∀ text, ¬ Attributed raw key text := by
    simp [← mem, Entries.keys]
  refine ⟨(written.foldl addAttribute ("", [])).2, ?_, collected.nodup, fun key value => ?_⟩
  · simp only [readTag, attributesOf, read, bind, Except.bind, name_eq, if_neg some_char]
    rw [← name_eq]
    rfl
  · rw [← Entries.find?_eq_some_iff collected.nodup, collected.find, Option.map_eq_some_iff]
    simp only [textFor?_eq_some_iff distinct, mem, unlisted]
    constructor
    · rintro ⟨text, ⟨other, listed⟩ | ⟨free, other, listed, given⟩, rfl⟩
      · exact .inl ⟨other, text, listed, rfl⟩
      · exact .inr ⟨free, other, text, listed, given, rfl⟩
    · rintro (⟨other, text, listed, rfl⟩ | ⟨free, other, text, listed, given, rfl⟩)
      · exact ⟨text, .inl ⟨other, listed⟩, rfl⟩
      · exact ⟨text, .inr ⟨free, other, listed, given⟩, rfl⟩

/-- An element with an alias that is free, one that is written before its name and one behind it. -/
def aliasElement : Tag :=
  ⟨"tag".toList, " c_d='x' a-b='1' xmlns:a_b='u' n:name='t' c-d='0x1F' e-f='' e_f='NULL'".toList⟩

def aliasAttributes : List (List Char × List Char) :=
  [("c_d", "x"), ("a-b", "1"), ("xmlns:a_b", "u"), ("n:name", "t"), ("c-d", "0x1F"), ("e-f", ""),
    ("e_f", "NULL")].map fun a => (a.1.toList, a.2.toList)

theorem shows_aliasElement : Shows aliasElement aliasAttributes where
  written := by decide +kernel
  legible := by
    have all : aliasAttributes.all (fun a => (unescape a.2).isSome) = true := by decide
    intro a mem _
    exact Option.isSome_iff_exists.mp (List.all_eq_true.mp all a mem)
  distinct := by decide

theorem readTag_attributes_apart : ∃ attributes, readTag ⟨"rules.xml"⟩ aliasElement = .ok ("t", attributes) ∧
    ("a_b", .int 1) ∈ attributes ∧ ("c_d", .string "x") ∈ attributes ∧ ("c-d", .int 31) ∈ attributes ∧
      ("e_f", .null) ∈ attributes ∧ ∀ value, ("c_d", value) ∈ attributes → value = .string "x" := by
  have name : Attributed aliasAttributes "name" "t" :=
    ⟨("n:name".toList, "t".toList), by decide, by decide, by decide, by decide⟩
  have a_b : Attributed aliasAttributes "a-b" "1" :=
    ⟨("a-b".toList, "1".toList), by decide, by decide, by decide, by decide⟩
  have c_d : Attributed aliasAttributes "c_d" "x" :=
    ⟨("c_d".toList, "x".toList), by decide, by decide, by decide, by decide⟩
  have hex : Attributed aliasAttributes "c-d" "0x1F" :=
    ⟨("c-d".toList, "0x1F".toList), by decide, by decide, by decide, by decide⟩
  have e_f : Attributed aliasAttributes "e_f" "NULL" :=
    ⟨("e_f".toList, "NULL".toList), by decide, by decide, by decide, by decide⟩
  have free : ∀ text, ¬ Attributed aliasAttributes "a_b" text := by
    have none_written : aliasAttributes.all (fun a =>
        declaresSpace a.1 || localName a.1 != "a_b".toList) = true := by decide
    rintro text ⟨a, mem, plain, same, _⟩
    have other := List.all_eq_true.mp none_written a mem
    simp [plain, same] at other
  obtain ⟨attributes, read, nodup, given⟩ :=
    readTag_attributes ⟨"rules.xml"⟩ shows_aliasElement name (by decide)
  have own : ("c_d", .string "x") ∈ attributes := (given _ _).mpr (.inl ⟨by decide, _, c_d, by rfl⟩)
  refine ⟨attributes, read, ?_, own, ?_, ?_, fun value there => ?_⟩
  · exact (given _ _).mpr (.inr ⟨free, _, _, a_b, ⟨by decide, by decide, by decide⟩, by rfl⟩)
  · exact (given _ _).mpr (.inl ⟨by decide, _, hex, by rfl⟩)
  · exact (given _ _).mpr (.inl ⟨by decide, _, e_f, by rfl⟩)
  · have first := (Entries.find?_eq_some_iff nodup).mpr own
    have second := (Entries.find?_eq_some_iff nodup).mpr there
    exact Option.some.inj (second.symm.trans first)

end RuleRegistry.Source.XmlRules
