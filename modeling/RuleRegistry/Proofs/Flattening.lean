import RuleRegistry.Proofs.Loading

/-!
Loading is a fold. Each import adds a collection of its own with the tags of the import, but the
rules are those that come from adding all the pairs of the flattened sources one by one.
-/

namespace RuleRegistry

namespace Entries

variable {α β : Type}

/-- Adds pairs at the end in turn, each in place of an entry with its key. -/
def moveAll (es : Entries α) (pairs : List (String × α)) : Entries α :=
  pairs.foldl (fun acc p => erase acc p.1 ++ [(p.1, p.2)]) es

theorem moveAll_append (es : Entries α) (ps qs : List (String × α)) :
    moveAll es (ps ++ qs) = moveAll (moveAll es ps) qs := by
  simp [moveAll]

theorem moveAll_cons (es : Entries α) (p : String × α) (rest : List (String × α)) :
    moveAll es (p :: rest) = moveAll (erase es p.1 ++ [p]) rest := rfl

/-- Entries with other keys stay in front, and what is behind them does not depend on them. -/
theorem moveAll_eq (es : Entries α) (ps : List (String × α)) :
    moveAll es ps = es.filter (fun e => !(keys ps).contains e.1) ++ moveAll [] ps := by
  induction ps generalizing es with
  | nil =>
    have all : es.filter (fun e => !(keys ([] : List (String × α))).contains e.1) = es :=
      List.filter_eq_self.mpr fun _ _ => rfl
    rw [all]
    exact (List.append_nil es).symm
  | cons p rest ih =>
    rw [moveAll_cons, moveAll_cons, ih, ih (erase [] p.1 ++ [p])]
    have kept : (erase es p.1).filter (fun e => !(keys rest).contains e.1) =
        es.filter (fun e => !(keys (p :: rest)).contains e.1) := by
      rw [erase, List.filter_filter]
      refine List.filter_congr fun e _ => ?_
      rw [Bool.eq_iff_iff]
      simp [keys, and_comm]
    rw [List.filter_append, kept, List.append_assoc]
    rfl

theorem mem_keys_moveAll {es : Entries α} {ps : List (String × α)} {key : String} :
    key ∈ keys (moveAll es ps) ↔ key ∈ keys es ∨ key ∈ keys ps := by
  induction ps generalizing es with
  | nil => simp [moveAll, keys]
  | cons p rest ih =>
    rw [moveAll_cons, ih]
    by_cases h : key = p.1 <;> simp [keys, erase, h]

theorem nodup_moveAll {es : Entries α} (h : (keys es).Nodup) (ps : List (String × α)) :
    (keys (moveAll es ps)).Nodup := by
  induction ps generalizing es with
  | nil => exact h
  | cons p rest ih =>
    refine ih ?_
    rw [keys, List.map_append, List.nodup_append]
    refine ⟨nodup_filter h _, by simp, fun a ha b hb eq => ?_⟩
    rw [List.mem_singleton.mp hb] at eq
    exact not_mem_keys_erase es p.1 (eq ▸ ha)

theorem moveAll_of_nodup {es : Entries α} {ps : List (String × α)} (h : (keys (es ++ ps)).Nodup) :
    moveAll es ps = es ++ ps := by
  induction ps generalizing es with
  | nil => simp [moveAll]
  | cons p rest ih =>
    rw [moveAll_cons, erase_of_not_mem (not_mem_of_nodup_append h), ih (by simpa using h)]
    simp

/-- Moving entries that were themselves moved together is moving what they were made from. -/
theorem moveAll_moveAll (es : Entries α) (ps : List (String × α)) :
    moveAll es (moveAll [] ps) = moveAll es ps := by
  -- Only the keys of the pairs decide what is dropped in front, and moving keeps these.
  have settled : moveAll [] (moveAll [] ps) = moveAll [] ps :=
    moveAll_of_nodup (nodup_moveAll (by simp [keys]) ps)
  rw [moveAll_eq es (moveAll [] ps), moveAll_eq es ps, settled]
  congr 1
  refine List.filter_congr fun e _ => ?_
  have empty : e.1 ∉ keys ([] : Entries α) := by simp [keys]
  rw [Bool.eq_iff_iff]
  simp [mem_keys_moveAll, empty]

theorem mapValues_moveAll (f : α → β) (es : Entries α) (ps : List (String × α)) :
    mapValues f (moveAll es ps) = moveAll (mapValues f es) (mapValues f ps) := by
  induction ps generalizing es with
  | nil => rfl
  | cons p rest ih =>
    rw [moveAll_cons, ih]
    have erased : mapValues f (erase es p.1) = erase (mapValues f es) p.1 := by
      simp [mapValues, erase, List.filter_map, Function.comp_def]
    have split : mapValues f (erase es p.1 ++ [p]) =
        erase (mapValues f es) p.1 ++ [(p.1, f p.2)] := by
      rw [← erased]
      simp [mapValues]
    rw [split]
    rfl

theorem find?_filter (p : String → Bool) {key : String} (kept : p key = true) (es : Entries α) :
    find? (es.filter fun e => p e.1) key = find? es key := by
  induction es with
  | nil => rfl
  | cons e rest ih =>
    obtain ⟨k, v⟩ := e
    by_cases here : k = key
    · subst here
      simp [kept, find?]
    · by_cases other : p k = true
      · simp [other, find?, here, ih]
      · simp [other, find?, here, ih]

/-- Moving entries with other keys leaves what is under a key. -/
theorem find?_moveAll {ps : List (String × α)} {key : String} (other : key ∉ keys ps)
    (es : Entries α) : find? (moveAll es ps) key = find? es key := by
  have behind : find? (moveAll [] ps) key = none := by
    rw [find?_eq_none_iff, mem_keys_moveAll]
    exact fun h => h.elim List.not_mem_nil other
  rw [moveAll_eq, find?_append, behind, Option.or_none]
  exact find?_filter (fun k => !(keys ps).contains k) (by simpa using other) es

end Entries

namespace Rule

def withTags (tags : Source.TagList) (r : Rule) : Rule :=
  tags.foldl (fun r t => r.addTag t.1 t.2) r

theorem withTags_append (inner outer : Source.TagList) (r : Rule) :
    r.withTags (inner ++ outer) = (r.withTags inner).withTags outer := by
  simp [withTags]

end Rule

namespace Collection

theorem rules_foldl_add (ps : List (String × Rule)) (c : Collection) :
    (ps.foldl (fun acc e => acc.add e.1 e.2) c).rules = Entries.moveAll c.rules ps := by
  induction ps generalizing c with
  | nil => rfl
  | cons p rest ih => exact ih (c.add p.1 p.2)

theorem files_foldl_add (ps : List (String × Rule)) (c : Collection) :
    (ps.foldl (fun acc e => acc.add e.1 e.2) c).files = c.files := by
  induction ps generalizing c with
  | nil => rfl
  | cons p rest ih => exact ih (c.add p.1 p.2)

theorem rules_merge (c d : Collection) :
    (c.merge d).rules = Entries.moveAll c.rules d.rules :=
  rules_foldl_add d.rules c

theorem files_merge (c d : Collection) : (c.merge d).files = c.files ++ d.files := by
  change _ ++ d.files = _
  rw [files_foldl_add]

theorem get?_add (c : Collection) (name : String) (r : Rule) : (c.add name r).get? name = some r := by
  have gone := (Entries.find?_eq_none_iff _ _).mpr (Entries.not_mem_keys_erase c.rules name)
  rw [get?, add, Entries.find?_append, gone, Entries.find?, if_pos rfl]
  rfl

theorem get?_add_of_ne {name other : String} (h : other ≠ name) (c : Collection) (r : Rule) :
    (c.add other r).get? name = c.get? name := by
  have outside : name ∉ Entries.keys [(other, r)] := by simpa [Entries.keys] using h.symm
  exact Entries.find?_moveAll outside c.rules

theorem get?_merge {d : Collection} {name : String} (h : name ∉ d.names) (c : Collection) :
    (c.merge d).get? name = c.get? name := by
  rw [get?, rules_merge, Entries.find?_moveAll h]
  rfl

theorem rules_addTags (tags : Source.TagList) (c : Collection) :
    (c.addTags tags).rules = Entries.mapValues (Rule.withTags tags) c.rules := by
  induction tags generalizing c with
  | nil => simp [addTags, Entries.mapValues, Rule.withTags]
  | cons t rest ih =>
    change ((c.addTag t.1 t.2).addTags rest).rules = _
    rw [ih]
    simp [addTag, mapRules, Entries.mapValues, Rule.withTags]

theorem names_addTags (tags : Source.TagList) (c : Collection) : (c.addTags tags).names = c.names := by
  rw [names, rules_addTags, Entries.keys_mapValues]
  rfl

theorem files_addTags (tags : Source.TagList) (c : Collection) :
    (c.addTags tags).files = c.files := by
  induction tags generalizing c with
  | nil => rfl
  | cons t rest ih => exact ih (c.addTag t.1 t.2)

/-- The distinct paths are the first ones of each class of paths that are the same. -/
theorem distinct_eq (files : List Path) : distinct files = files.eraseDupsBy Path.same := by
  have grown : ∀ (files seen : List Path),
      files.foldl (fun seen p => if seen.any (Path.same p) then seen else seen ++ [p]) seen.reverse =
        List.eraseDupsBy.loop Path.same files seen := by
    intro files
    induction files with
    | nil => exact fun _ => rfl
    | cons p rest ih =>
      intro seen
      rw [List.foldl_cons, List.any_reverse, List.eraseDupsBy.loop]
      cases seen.any (Path.same p) with
      | true => exact ih seen
      | false => simpa using ih (p :: seen)
  exact grown files []

end Collection

namespace Source

namespace Contents

/-- The rules in the order of the sources. An import stands for the rules of its file, which get its
tags after their own. -/
def flatten : Contents → List (String × Rule)
  | nil => []
  | rule name r rest => (name, r) :: rest.flatten
  | imported tags _ inside rest => Entries.mapValues (Rule.withTags tags) inside.flatten ++ rest.flatten

def opened : Contents → List Path
  | nil => []
  | rule _ _ rest => rest.opened
  | imported _ file inside rest => file :: inside.opened ++ rest.opened

/-- The rules below imports with the given tags, the tags of the innermost import first. -/
def flattenUnder (outer : TagList) : Contents → List (String × Rule)
  | nil => []
  | rule name r rest => (name, r.withTags outer) :: rest.flattenUnder outer
  | imported tags _ inside rest => inside.flattenUnder (tags ++ outer) ++ rest.flattenUnder outer

theorem flattenUnder_eq (contents : Contents) (outer : TagList) :
    contents.flattenUnder outer = Entries.mapValues (Rule.withTags outer) contents.flatten := by
  induction contents generalizing outer with
  | nil => rfl
  | rule name r rest ih => simp [flattenUnder, flatten, ih, Entries.mapValues]
  | imported tags file inside rest inside_ih rest_ih =>
    rw [flattenUnder, flatten, inside_ih, rest_ih]
    simp [Entries.mapValues, Rule.withTags_append]

theorem rules_collect (contents : Contents) (c : Collection) :
    (contents.collect c).rules = Entries.moveAll c.rules contents.flatten := by
  induction contents generalizing c with
  | nil => rfl
  | rule name r rest ih => exact ih (c.add name r)
  | imported tags file inside rest inside_ih rest_ih =>
    rw [collect, rest_ih, Collection.rules_merge, Collection.rules_addTags, inside_ih]
    rw [Entries.mapValues_moveAll, flatten, Entries.moveAll_append]
    congr 1
    -- The collection of the imported file has its repeated names removed before it is merged.
    exact Entries.moveAll_moveAll _ _

theorem files_collect (contents : Contents) (c : Collection) :
    (contents.collect c).files = c.files ++ contents.opened := by
  induction contents generalizing c with
  | nil => simp [collect, opened]
  | rule name r rest ih => exact ih (c.add name r)
  | imported tags file inside rest inside_ih rest_ih =>
    rw [collect, rest_ih, Collection.files_merge, Collection.files_addTags, inside_ih]
    simp [opened, Collection.empty, Collection.addFile]

end Contents

namespace Loader

variable {l : Loader} {t : FileTree}

/-- A resource is this file, which holds this with everything that it imports. -/
def Holds (l : Loader) (t : FileTree) (resource : String) (kind : Option String) (file : Path)
    (contents : Contents) : Prop :=
  ∃ canonical found, l.Opens t resource kind none file canonical found ∧
    Reads l t [canonical] (folderOf file) found contents

theorem Holds.unique {resource : String} {kind : Option String} {file file' : Path}
    {contents contents' : Contents} (one : l.Holds t resource kind file contents)
    (other : l.Holds t resource kind file' contents') : file = file' ∧ contents = contents' := by
  obtain ⟨canonical, found, opens, reads⟩ := one
  obtain ⟨canonical', found', opens', reads'⟩ := other
  obtain ⟨rfl, rfl, rfl⟩ := opens.unique opens'
  exact ⟨rfl, reads.unique reads'⟩

/-- A load gives the fold of the flattened sources, and its files in the order of opening. -/
theorem load_eq_fold {resource : String} {kind : Option String} {c : Collection}
    (loads : l.load t resource kind = .ok c) :
    ∃ file contents,
      (∀ file' contents', l.Holds t resource kind file' contents' ↔
        file' = file ∧ contents' = contents) ∧
      c.rules = (contents.flatten.foldl (fun acc e => acc.add e.1 e.2) Collection.empty).rules ∧
      contents.flatten = contents.flattenUnder [] ∧
      c.resources = (file :: contents.opened).eraseDupsBy Path.same := by
  obtain ⟨file, canonical, found, contents, opens, _, reads, rfl⟩ := load_ok_iff.mp loads
  have holds : l.Holds t resource kind file contents := ⟨canonical, found, opens, reads⟩
  refine ⟨file, contents, fun file' contents' => ⟨fun other => other.unique holds, ?_⟩, ?_, ?_, ?_⟩
  · rintro ⟨rfl, rfl⟩
    exact holds
  · rw [Contents.rules_collect, Collection.rules_foldl_add]
    rfl
  · rw [Contents.flattenUnder_eq]
    simp [Entries.mapValues, Rule.withTags]
  · rw [Collection.resources, Contents.files_collect, Collection.distinct_eq]
    rfl

/-- A YAML file that imports an XML file with a rule of the same name. -/
def mixedSources : FileTree where
  current := []
  files := [
    (["main.yml".toList], ⟨Bytes.ofText
      "a: \x7bexpression: x\x7d\nparts: \x7bresource: parts.xml, tags: [\x7bname: t\x7d]\x7d\n", some ⟨0, 0⟩⟩),
    (["parts.xml".toList], ⟨Bytes.ofText
      "<r><rule id='b' expression='y'/><rule id='a' expression='z'/></r>", some ⟨0, 0⟩⟩)]

theorem load_eq_fold_mixed : ∃ c file contents, load {} mixedSources "main.yml" none = .ok c ∧
    Holds {} mixedSources "main.yml" none file contents ∧
    c.rules = (contents.flatten.foldl (fun acc e => acc.add e.1 e.2) Collection.empty).rules ∧
    c.names = ["b", "a"] ∧
    (file :: contents.opened).eraseDupsBy Path.same = [⟨"main.yml"⟩, ⟨"parts.xml"⟩] := by
  have found : ((load {} mixedSources "main.yml" none).toOption.map fun c => (c.names, c.resources)) =
      some (["b", "a"], [⟨"main.yml"⟩, ⟨"parts.xml"⟩]) := by decide +kernel
  cases loads : load {} mixedSources "main.yml" none with
  | error e => simp [loads, Except.toOption] at found
  | ok c =>
    obtain ⟨file, contents, holds, folded, _, listed⟩ := load_eq_fold loads
    simp only [loads, Except.toOption, Option.map_some, Option.some.injEq, Prod.mk.injEq] at found
    exact ⟨c, file, contents, rfl, (holds file contents).mpr ⟨rfl, rfl⟩, folded, found.1,
      listed ▸ found.2⟩

end Loader

end Source

end RuleRegistry
