import RuleRegistry.Proofs.LoadedRules
import RuleRegistry.Proofs.NullKeys
import RuleRegistry.Proofs.Numerals

/-!
The tags of a definition in YAML. What is checked is the list under the tags of YAML, but what is read
are mappings without one, in a list without one: each of them gives one instance of its name, and the
others are passed over. This is so in every file of a load that succeeds, and the rules that a
definition gives have the instances in the order of the list.
-/

namespace RuleRegistry

open Outcome

namespace Rule

/-- The instances that a list of tags has of one name. -/
def instancesOf (tags : Source.TagList) (name : String) : List Attributes :=
  (tags.filter fun tag => tag.1 = name).map Prod.snd

theorem tag_addTag (r : Rule) (other : String) (attributes : Attributes) (name : String) :
    (r.addTag other attributes).tag name =
      if other = name then r.tag name ++ [attributes] else r.tag name := by
  rw [tag, addTag, Tags.add, Entries.find?_put]
  split
  · rename_i same
    subst same
    rfl
  · rfl

theorem tag_withTags (tags : Source.TagList) (r : Rule) (name : String) :
    (r.withTags tags).tag name = r.tag name ++ instancesOf tags name := by
  induction tags generalizing r with
  | nil => exact (List.append_nil _).symm
  | cons first rest ih =>
    have step : r.withTags (first :: rest) = (r.addTag first.1 first.2).withTags rest := rfl
    rw [step, ih, tag_addTag]
    by_cases same : first.1 = name <;> simp [instancesOf, same]

end Rule

namespace Yaml

-- No number is spelled with an m, so none of them is the key `name` under its text.

theorem not_mem_toDigits (n : Nat) : 'm' ∉ Nat.toDigits 10 n := fun mem =>
  absurd (Numeral.isDigit_toDigits n 'm' mem) (by decide)

theorem not_mem_repr (n : Int) : 'm' ∉ n.repr.toList := by
  rw [Int.repr_eq_if]
  split <;> simp [Nat.toList_repr, not_mem_toDigits]

theorem not_mem_positional (d : Decimal) : 'm' ∉ d.positional.toList := by
  have digits := not_mem_toDigits d.digits
  unfold Decimal.positional
  dsimp only
  generalize Nat.toDigits 10 d.digits = cs at *
  split_ifs
  · simp [digits]
  · simp [digits]
  · have front (n : Nat) : 'm' ∉ cs.take n := fun there => digits (List.mem_of_mem_take there)
    have back (n : Nat) : 'm' ∉ cs.drop n := fun there => digits (List.mem_of_mem_drop there)
    simp [front, back]

theorem not_mem_floatText (x : Binary64) : 'm' ∉ (Writer.floatText x).toList := by
  have sign : 'm' ∉ x.signText.toList := by
    unfold Binary64.signText
    split <;> decide
  have decimal (d : Decimal) : 'm' ∉ (Writer.decimalText d).toList := by
    have digits := not_mem_toDigits d.digits
    unfold Writer.decimalText
    dsimp only
    split_ifs
    · simp [not_mem_positional]
    · exact not_mem_positional d
    · split <;> simp_all [not_mem_repr]
  unfold Writer.floatText
  split_ifs <;> simp [sign, decimal]

/-- Without a tag of its own. -/
def Tree.isBare : Tree → Bool
  | tagged _ _ => false
  | _ => true

end Yaml

namespace Source.YamlRules

open Yaml

variable {rule : String} {fields : Fields} {path : Path}

theorem scalarText?_eq_name {k : Tree} : scalarText? k = some "name" ↔ k = .atom (.string "name") := by
  constructor
  · intro text
    unfold scalarText? at text
    split at text
    · rw [Option.some.inj text]
    · split at text <;> simp at text
    · rename_i n
      exact absurd (by rw [← Int.toString_eq_repr, Option.some.inj text]; decide) (not_mem_repr n)
    · rename_i x
      exact absurd (by rw [Option.some.inj text]; decide) (not_mem_floatText x)
    · cases text
  · rintro rfl
    rfl

def isAttribute (field : Tree × Tree) : Bool := Tree.plainKey? field ≠ some "name"

/-- An attribute is what a key of an element stands for. -/
def Spells (rule : String) (field : Tree × Tree) (entry : String × Value) : Prop :=
  scalarText? field.1 = some entry.1 ∧ value rule field.2 = .ok entry.2

/-- A tag is what an element stands for: it has its name, and all of its other keys as attributes. Of
keys with one text the last one counts. -/
inductive Shows (rule : String) : Tree → String × Attributes → Prop
  | mapping {fields : Fields} {name : String} {attributes : List (String × Value)}
      (named : (Tree.lookup? fields "name").bind scalarText? = some name)
      (others : List.Forall₂ (Spells rule) (fields.filter isAttribute) attributes) :
      Shows rule (.mapping fields) (name, Entries.ofPairs attributes)

theorem addField_ok {tag tag' : String × Attributes} {field : Tree × Tree}
    (added : addField rule tag field = .ok tag') :
    (isAttribute field = false ∧ tag' = ((scalarText? field.2).getD "", tag.2)) ∨
      (isAttribute field = true ∧ ∃ entry, Spells rule field entry ∧
        tag' = (tag.1, Entries.put tag.2 entry.1 entry.2)) := by
  have name_iff : isAttribute field = false ↔ scalarText? field.1 = some "name" := by
    simp [isAttribute, Tree.plainKey?_eq_some, scalarText?_eq_name]
  unfold addField at added
  split at added
  · cases added
  · rename_i key
    cases added
    exact .inl ⟨name_iff.mpr key, rfl⟩
  · rename_i key other text
    obtain ⟨v, read, rfl⟩ := map_ok_iff.mp added
    right
    constructor
    · rw [← Bool.not_eq_false, name_iff, text]
      exact fun same => other (Option.some.inj same)
    · exact ⟨(key, v), ⟨text, read⟩, rfl⟩

theorem attributes_of_foldlM {tag tag' : String × Attributes}
    (folded : fields.foldlM (addField rule) tag = .ok tag') :
    ∃ attributes, List.Forall₂ (Spells rule) (fields.filter isAttribute) attributes ∧
      tag'.2 = Entries.putAll tag.2 attributes := by
  induction fields generalizing tag with
  | nil =>
    cases folded
    exact ⟨[], .nil, rfl⟩
  | cons field rest ih =>
    rw [List.foldlM_cons, do_ok_iff] at folded
    obtain ⟨next, added, folded⟩ := folded
    obtain ⟨attributes, spelled, result⟩ := ih folded
    rcases addField_ok added with ⟨name, rfl⟩ | ⟨other, entry, spells, rfl⟩
    · refine ⟨attributes, ?_, result⟩
      rwa [List.filter_cons_of_neg (by simp [name])]
    · refine ⟨entry :: attributes, ?_, result⟩
      rw [List.filter_cons_of_pos other]
      exact .cons spells spelled

/-- As no key comes twice, the name that is looked up is the one that is read. -/
theorem name_of_foldlM {tag tag' : String × Attributes}
    (nodup : (fields.filterMap Tree.plainKey?).Nodup)
    (folded : fields.foldlM (addField rule) tag = .ok tag') :
    tag'.1 = ((Tree.lookup? fields "name").map fun v => (scalarText? v).getD "").getD tag.1 := by
  induction fields generalizing tag with
  | nil =>
    cases folded
    rfl
  | cons field rest ih =>
    have others : (rest.filterMap Tree.plainKey?).Nodup :=
      ((List.sublist_cons_self field rest).filterMap Tree.plainKey?).nodup nodup
    rw [List.foldlM_cons, do_ok_iff] at folded
    obtain ⟨next, added, folded⟩ := folded
    rw [ih others folded, Tree.lookup?_cons]
    rcases addField_ok added with ⟨name, rfl⟩ | ⟨other, entry, _, rfl⟩
    · have here : Tree.plainKey? field = some "name" := by simpa [isAttribute] using name
      rw [List.filterMap_cons_some here, List.nodup_cons] at nodup
      rw [if_pos here, Tree.lookup?_eq_none nodup.1]
      rfl
    · have elsewhere : Tree.plainKey? field ≠ some "name" := by simpa [isAttribute] using other
      rw [if_neg elsewhere]

theorem shows_of_foldlM {tag : String × Attributes} (nodup : (fields.filterMap Tree.plainKey?).Nodup)
    (named : ((Tree.lookup? fields "name").bind scalarText?).isSome = true)
    (folded : fields.foldlM (addField rule) ("", []) = .ok tag) : Shows rule (.mapping fields) tag := by
  obtain ⟨attributes, spelled, result⟩ := attributes_of_foldlM folded
  obtain ⟨name, text⟩ := Option.isSome_iff_exists.mp named
  have same : tag.1 = name := by
    obtain ⟨v, found, text⟩ := Option.bind_eq_some_iff.mp text
    rw [name_of_foldlM nodup folded, found, Option.map_some, text]
    rfl
  have shown := Shows.mapping text spelled
  rwa [← same, Entries.ofPairs, ← result] at shown

/-- The elements that are read: those without a tag of their own, in a list without one. -/
def readElements (tags : Tree) : List Tree :=
  match tags with
  | .sequence items => items.filter Tree.isBare
  | _ => []

theorem length_readElements_eq_iff {tags : Tree} {items : List Tree}
    (list : tags.asSequence = some items) : (readElements tags).length = items.length ↔
      (items ≠ [] → tags.isBare = true) ∧ ∀ item ∈ items, item.isBare = true := by
  cases tags with
  | atom | mapping => cases list
  | sequence others =>
    cases list
    simp [readElements, Tree.isBare, List.length_filter_eq_length_iff]
  | tagged name tree =>
    cases items with
    | nil => simp [readElements]
    | cons => simp [readElements, Tree.isBare]

/-- The tags so far with what one element adds. -/
def addElement (rule : String) (tags : TagList) (item : Tree) : Except Fault TagList :=
  match item with
  | .mapping fields => do
    let tag ← fields.foldlM (addField rule) ("", [])
    return tags ++ [tag]
  | _ => .ok tags

theorem tagList_eq (rule : String) (items : List Tree) :
    tagList rule items = items.foldlM (addElement rule) [] := rfl

theorem addElement_ok {tags tags' : TagList} {item : Tree}
    (nodup : ∀ fields, item = .mapping fields → (fields.filterMap Tree.plainKey?).Nodup)
    (named : ((item.get? "name").bind scalarText?).isSome = true)
    (added : addElement rule tags item = .ok tags') :
    (item.isBare = false ∧ tags' = tags) ∨
      (item.isBare = true ∧ ∃ tag, Shows rule item tag ∧ tags' = tags ++ [tag]) := by
  cases item with
  | atom | sequence => cases named
  | mapping fields =>
    obtain ⟨tag, folded, same⟩ := do_ok_iff.mp added
    cases same
    exact .inr ⟨rfl, tag, shows_of_foldlM (nodup fields rfl) named folded, rfl⟩
  | tagged name tree =>
    cases added
    exact .inl ⟨rfl, rfl⟩

theorem shows_of_elements {items : List Tree} {tags tags' : TagList}
    (nodup : ∀ fields, .mapping fields ∈ items → (fields.filterMap Tree.plainKey?).Nodup)
    (named : ∀ item ∈ items, ((item.get? "name").bind scalarText?).isSome = true)
    (folded : items.foldlM (addElement rule) tags = .ok tags') :
    ∃ more, List.Forall₂ (Shows rule) (items.filter Tree.isBare) more ∧ tags' = tags ++ more := by
  induction items generalizing tags with
  | nil =>
    cases folded
    exact ⟨[], .nil, (List.append_nil _).symm⟩
  | cons item rest ih =>
    rw [List.foldlM_cons, do_ok_iff] at folded
    obtain ⟨next, added, folded⟩ := folded
    obtain ⟨first, others⟩ := List.forall_mem_cons.mp named
    obtain ⟨more, shown, rfl⟩ := ih (fun fields mem => nodup fields (List.mem_cons_of_mem _ mem)) others
      folded
    have once : ∀ fields, item = .mapping fields → (fields.filterMap Tree.plainKey?).Nodup := by
      rintro fields rfl
      exact nodup fields List.mem_cons_self
    rcases addElement_ok once first added with ⟨other, rfl⟩ | ⟨bare, tag, shows, rfl⟩
    · refine ⟨more, ?_, rfl⟩
      rwa [List.filter_cons_of_neg (by simp [other])]
    · refine ⟨tag :: more, ?_, List.append_assoc tags [tag] more⟩
      rw [List.filter_cons_of_pos bare]
      exact .cons shows shown

theorem fits_of_validate {fields' : Fields} (checked : validate rule (.mapping fields) = .ok fields')
    {tags : Tree} (found : Tree.lookup? fields "tags" = some tags) (stated : tags.isNull = false) :
    fitTags tags = true := by
  simp only [validate] at checked
  repeat' split at checked
  all_goals cases checked
  rename_i fits
  have there : states fields "tags" = true := by simp [states, found, stated]
  simpa [there, found] using fits

theorem items_of_fitTags {tags : Tree} (fits : fitTags tags = true) :
    ∃ items, tags.asSequence = some items ∧
      ∀ item ∈ items, ((item.get? "name").bind scalarText?).isSome = true := by
  unfold fitTags at fits
  split at fits
  · rename_i items list
    exact ⟨items, list, fun item mem => List.all_eq_true.mp fits item mem⟩
  · cases fits

/-- The tags that are read of a list that passes the check. -/
theorem shows_of_tagsOf {tags : Tree} {instances : TagList} {node : WholeNode}
    (parsed : Tree.ofNode? node = some (.mapping fields)) (fits : fitTags tags = true)
    (found : Tree.lookup? fields "tags" = some tags) (read : tagsOf fields rule = .ok instances) :
    List.Forall₂ (Shows rule) (readElements tags) instances := by
  obtain ⟨items, list, named⟩ := items_of_fitTags fits
  rw [tagsOf, found] at read
  cases tags with
  | atom | mapping => cases list
  | tagged name tree =>
    cases read
    exact .nil
  | sequence others =>
    cases list
    have nodup : ∀ fields, .mapping fields ∈ items → (fields.filterMap Tree.plainKey?).Nodup := by
      intro fields mem
      obtain ⟨⟨pairs, inside⟩, _⟩ := Tree.ofNode?_mapping parsed
      obtain ⟨k, listed⟩ := Tree.mem_of_lookup? found
      obtain ⟨_, list_parsed⟩ := Tree.mem_ofPairs? inside listed
      obtain ⟨nodes, inside⟩ := Tree.ofNode?_sequence list_parsed
      obtain ⟨_, item_parsed⟩ := Tree.mem_ofItems? inside mem
      exact Tree.nodup_of_ofNode? item_parsed
    have folded := (tagList_eq rule items).symm.trans read
    obtain ⟨more, shown, rfl⟩ := shows_of_elements nodup named folded
    exact shown

theorem makeRule_ok {expression : String} {tags : TagList} {d : Definition}
    (made : Definition.makeRule path rule expression tags = .ok d) :
    d = .rule rule (Rule.withTags tags ⟨expression, []⟩) := by
  unfold Definition.makeRule Rule.new at made
  by_cases blank : Text.isBlank expression = true
  · rw [if_pos blank] at made
    cases made
  · rw [if_neg blank] at made
    cases made
    rfl

theorem tags_of_readRule {d : Definition} (read : readRule path rule fields = .ok d) :
    ∃ tags, tagsOf fields rule = .ok tags ∧
      ∃ expression, d = .rule rule (Rule.withTags tags ⟨expression, []⟩) := by
  unfold readRule at read
  obtain ⟨expression, _, read⟩ := do_ok_iff.mp read
  obtain ⟨_, _, read⟩ := do_ok_iff.mp read
  obtain ⟨tags, listed, made⟩ := do_ok_iff.mp read
  exact ⟨tags, mapError_ok_iff.mp listed, _, makeRule_ok made⟩

theorem tags_of_readReference {d : Definition} (read : readReference rule fields = .ok d) :
    ∃ tags, tagsOf fields rule = .ok tags ∧ ∃ resource kind, d = .reference resource kind tags := by
  unfold readReference at read
  obtain ⟨resource, _, read⟩ := do_ok_iff.mp read
  obtain ⟨kind, _, read⟩ := do_ok_iff.mp read
  obtain ⟨tags, listed, same⟩ := do_ok_iff.mp read
  cases same
  exact ⟨tags, listed, _, kind, rfl⟩

/-- A definition is read as a rule or an import that has the tags of its list. -/
theorem readEntry_ok {key definition : Tree} {d : Definition}
    (read : readEntry path (key, definition) = .ok d) :
    ∃ rule fields tags, scalarText? key = some rule ∧ definition = .mapping fields ∧
      validate rule (.mapping fields) = .ok fields ∧ tagsOf fields rule = .ok tags ∧
      ((∃ expression, d = .rule rule (Rule.withTags tags ⟨expression, []⟩)) ∨
        ∃ resource kind, d = .reference resource kind tags) := by
  unfold readEntry at read
  split at read
  · cases read
  · rename_i rule text
    split at read
    · cases read
    · rename_i fields checked
      cases definition with
      | mapping given =>
        obtain ⟨rfl, _⟩ := states_of_validate checked
        split at read
        · obtain ⟨tags, listed, made⟩ := tags_of_readReference (mapError_ok_iff.mp read)
          exact ⟨rule, fields, tags, text, rfl, checked, listed, .inr made⟩
        · obtain ⟨tags, listed, made⟩ := tags_of_readRule read
          exact ⟨rule, fields, tags, text, rfl, checked, listed, .inl made⟩
      | _ => cases checked

open Loader

variable {l : Loader} {t : FileTree} {stack stack' : List Path} {resource : String}
  {kind : Option String} {folder : Option Path} {x : Target} {out : Collection}

/-- One of the entries that come later in a file gives a rule of the name. -/
def Replaced (l : Loader) (t : FileTree) (stack : List Path) (x : Target) (after : Fields)
    (name : String) : Prop :=
  ∃ entry ∈ after, ∃ d r, readEntry x.file entry = .ok d ∧
    Gives l t (stack ++ [x.canonical]) (folderOf x.file) d name r

/-- What a definition with a list of tags leaves in the collection of its file. A rule has just the
instances of the list, and an imported rule has those of the list after the ones that it had. -/
inductive Leaves (l : Loader) (t : FileTree) (stack : List Path) (x : Target) (after : Fields)
    (out : Collection) (name : String) (tags : TagList) : Definition → Prop
  | rule (r : Rule) (tagged : ∀ tag, r.tag tag = Rule.instancesOf tags tag)
      (stays : out.get? name = some r ∨ Replaced l t stack x after name) :
      Leaves l t stack x after out name tags (.rule name r)
  | reference (resource : String) (kind : Option String) (imported : Collection)
      (import_ok : Runs l t (stack ++ [x.canonical]) (.resource resource kind (folderOf x.file))
        (.ok imported) (stack ++ [x.canonical]))
      (tagged : ∀ name r, imported.get? name = some r →
        (∀ tag, (r.withTags tags).tag tag = r.tag tag ++ Rule.instancesOf tags tag) ∧
          (out.get? name = some (r.withTags tags) ∨ Replaced l t stack x after name)) :
      Leaves l t stack x after out name tags (.reference resource kind tags)

theorem entry_of_run {before after : Fields} {key definition : Tree} {c : Collection}
    (run : Runs l t (stack ++ [x.canonical]) (.definitions (folderOf x.file) c
      (.ofEach (readEntry x.file) (before ++ (key, definition) :: after))) (.ok out) stack') :
    ∃ d, readEntry x.file (key, definition) = .ok d ∧
      (∀ name r, Gives l t (stack ++ [x.canonical]) (folderOf x.file) d name r →
        out.get? name = some r ∨ Replaced l t stack x after name) ∧
      ∀ resource kind tags, d = .reference resource kind tags →
        ∃ imported, Runs l t (stack ++ [x.canonical]) (.resource resource kind (folderOf x.file))
          (.ok imported) (stack ++ [x.canonical]) := by
  have complete := run.complete
  generalize all : Definitions.ofEach (readEntry x.file) (before ++ (key, definition) :: after) = ds
    at run complete
  obtain ⟨found, fault⟩ := ds
  subst complete
  obtain ⟨front, d, back, rfl, read, rest⟩ := split_of_ofEach all
  refine ⟨d, read, ?_, ?_⟩
  · intro name r gives
    apply (run.gives_stays gives).imp_right
    rintro ⟨later, mem, s, again⟩
    have listed : later ∈ (Definitions.ofEach (readEntry x.file) after).found := by rwa [rest]
    obtain ⟨entry, there, read_later⟩ := mem_of_ofEach listed
    exact ⟨entry, there, later, s, read_later, again⟩
  · rintro resource kind tags rfl
    exact run.reference_ok (List.mem_append_right _ List.mem_cons_self)

/-- In every YAML file that loads, a list of tags that is not null gives the instances of the elements
that are read, for a rule and for all rules of an import. They are as many as the list has elements
exactly if neither the list nor an element of it has a tag of its own. -/
theorem tags_of_loaded (yaml : l.format? resource kind = some .yaml)
    (run : Runs l t stack (.resource resource kind folder) (.ok out) stack') :
    ∃ x text, l.resolve t resource kind folder = .ok x ∧ textOf t x.file = .ok text ∧
      ∀ before key definition after tags,
        entries? text = some (before ++ (key, definition) :: after) →
        definition.get? "tags" = some tags → tags.isNull = false →
          ∃ name d items instances, scalarText? key = some name ∧
            readEntry x.file (key, definition) = .ok d ∧ tags.asSequence = some items ∧
            List.Forall₂ (Shows name) (readElements tags) instances ∧
            (instances.length = items.length ↔
              (items ≠ [] → tags.isBare = true) ∧ ∀ item ∈ items, item.isBare = true) ∧
            Leaves l t stack x after out name instances d := by
  cases run with
  | @opened _ _ _ _ x text _ _ resolved _ opened inside =>
    refine ⟨x, text, resolved, opened, ?_⟩
    intro before key definition after tags entries given stated
    obtain ⟨_, format, _⟩ := resolve_ok resolved
    have format_yaml : x.format = .yaml := Option.some.inj (format.symm.trans yaml)
    have read_all : x.definitions text =
        .ofEach (readEntry x.file) (before ++ (key, definition) :: after) := by
      rw [Target.definitions, format_yaml]
      exact read_of_entries? entries x.file
    rw [read_all] at inside
    obtain ⟨d, read, stays, imports⟩ := entry_of_run inside
    obtain ⟨name, fields, instances, text_key, rfl, checked, listed, made⟩ := readEntry_ok read
    have fits := fits_of_validate checked given stated
    obtain ⟨items, list, _⟩ := items_of_fitTags fits
    obtain ⟨node, parsed⟩ := node_of_entries? entries (List.mem_append_right _ List.mem_cons_self)
    have shown := shows_of_tagsOf parsed fits given listed
    refine ⟨name, d, items, instances, text_key, read, list, shown, ?_, ?_⟩
    · rw [← shown.length_eq]
      exact length_readElements_eq_iff list
    · rcases made with ⟨expression, rfl⟩ | ⟨resource, kind, rfl⟩
      · apply Leaves.rule
        · exact Rule.tag_withTags instances ⟨expression, []⟩
        · exact stays name _ (.rule name _)
      · obtain ⟨imported, import_ok⟩ := imports resource kind instances rfl
        apply Leaves.reference resource kind imported import_ok
        intro other r there
        constructor
        · exact Rule.tag_withTags instances r
        · exact stays other _ (.imported instances import_ok there)

/-- The source of a rule with a list of two elements, and what stands before the list and before its
first element. -/
def listedText (list element : String) : String :=
  "a:\n  expression: x\n  tags:" ++ list ++ "\n  -" ++ element ++
    "\n    name: t\n    k: y\n  - name: t\n"

def listedFile (list element : String) : FileTree where
  current := []
  files := [(["rules.yml".toList], ⟨Bytes.ofText (listedText list element), some ⟨0, 0⟩⟩)]

def firstElement : Tree :=
  .mapping [(.atom (.string "name"), .atom (.string "t")), (.atom (.string "k"), .atom (.string "y"))]

def secondElement : Tree := .mapping [(.atom (.string "name"), .atom (.string "t"))]

def listedEntry (tags : Tree) : Tree × Tree :=
  (.atom (.string "a"), .mapping [(.atom (.string "expression"), .atom (.string "x")),
    (.atom (.string "tags"), tags)])

theorem tags_of_loaded_plain : ∃ out r instances,
    load {} (listedFile "" "") "rules.yml" none = .ok out ∧ out.get? "a" = some r ∧
      List.Forall₂ (Shows "a") [firstElement, secondElement] instances ∧
      ∀ tag, r.tag tag = Rule.instancesOf instances tag := by
  have entries : entries? (listedText "" "") =
      some ([] ++ listedEntry (.sequence [firstElement, secondElement]) :: []) := by decide +kernel
  have names : (load {} (listedFile "" "") "rules.yml" none).toOption.map Collection.names =
      some ["a"] := by decide +kernel
  obtain ⟨out, loaded, _⟩ := exists_of_toOption names
  have run := runs_load_iff.mpr ⟨loaded.symm, rfl⟩
  obtain ⟨x, text, resolved, opened, lists⟩ := tags_of_loaded rfl run
  have file : resolve {} (listedFile "" "") "rules.yml" none none =
      .ok ⟨⟨"rules.yml"⟩, ⟨"/rules.yml"⟩, .yaml⟩ := by decide +kernel
  have same := Except.ok.inj (resolved.symm.trans file)
  subst same
  have content : textOf (listedFile "" "") ⟨"rules.yml"⟩ = .ok (listedText "" "") := by decide +kernel
  have same := Except.ok.inj (opened.symm.trans content)
  subst same
  obtain ⟨name, d, _, instances, key, read, _, shown, _, leaves⟩ := lists [] _ _ [] _ entries rfl rfl
  cases key
  cases leaves with
  | rule r tagged stays =>
    have there : out.get? "a" = some r := stays.resolve_right fun ⟨_, later, _⟩ => nomatch later
    exact ⟨out, r, instances, loaded, there, shown, tagged⟩
  | reference resource kind => cases read

/-- A list with a tag of its own gives no instance, and neither does such an element. -/
theorem tags_of_marked_list :
    entries? (listedText " !x" "") =
        some [listedEntry (.tagged "x" (.sequence [firstElement, secondElement]))] ∧
      entries? (listedText "" " !x") =
        some [listedEntry (.sequence [.tagged "x" firstElement, secondElement])] ∧
      (load {} (listedFile " !x" "") "rules.yml" none).map
        (fun c => (c.get? "a").map fun r => (r.tag "t").map Entries.keys) = .ok (some []) ∧
      (load {} (listedFile "" " !x") "rules.yml" none).map
        (fun c => (c.get? "a").map fun r => (r.tag "t").map Entries.keys) = .ok (some [[]]) := by
  decide +kernel

end Source.YamlRules

end RuleRegistry
