import RuleRegistry.Proofs.Flattening
import RuleRegistry.Proofs.Reachable

/-!
Programs: finite runs of the operations on rules, collections and artifacts. What a program holds
stays sound: the names in a collection differ, no expression is blank, every tag has an instance,
and finding the rules with a tag keeps exactly those that have an instance of it.
-/

namespace RuleRegistry

/-- What a caller can rely on for a rule. -/
structure Rule.Sound (r : Rule) : Prop where
  stated : ∃ ch ∈ r.expression.toList, Text.isBlankChar ch = false
  tags_nodup : (Entries.keys r.tags).Nodup
  tags_used : ∀ t ∈ r.tags, t.2 ≠ []
  hasTag_iff : ∀ tag, r.hasTag tag = true ↔ r.tag tag ≠ []

/-- What a caller can rely on for a collection. -/
structure Collection.Sound (c : Collection) : Prop where
  names_nodup : c.names.Nodup
  rules : ∀ e ∈ c.rules, e.2.Sound
  tagged : ∀ tag, c.tagged tag = ⟨c.rules.filter fun e => e.2.tag tag ≠ [], []⟩

theorem Rule.Regular.hasTag_iff {r : Rule} (h : r.Regular) (tag : String) :
    r.hasTag tag = true ↔ r.tag tag ≠ [] := by
  unfold Rule.hasTag Rule.tag Entries.has
  cases found : Entries.find? r.tags tag with
  | none => simp
  | some instances =>
    have used : instances ≠ [] := h.tags.used _ (Entries.mem_of_find? found)
    simp [used]

theorem Rule.Regular.sound {r : Rule} (h : r.Regular) : r.Sound where
  stated := by simpa [Text.isBlank] using h.stated
  tags_nodup := h.tags.nodup
  tags_used := h.tags.used
  hasTag_iff := h.hasTag_iff

namespace Collection

/-- Adding rules with different names one by one moves none of them. -/
theorem foldl_add_empty {es : Entries Rule} (h : (Entries.keys es).Nodup) :
    es.foldl (fun acc e => acc.add e.1 e.2) empty = ⟨es, []⟩ := by
  have rules := rules_foldl_add es empty
  rw [Entries.moveAll_of_nodup (by simpa [empty] using h)] at rules
  have files := files_foldl_add es empty
  calc
    es.foldl (fun acc e => acc.add e.1 e.2) empty
      = ⟨(es.foldl (fun acc e => acc.add e.1 e.2) empty).rules,
          (es.foldl (fun acc e => acc.add e.1 e.2) empty).files⟩ := rfl
    _ = ⟨es, []⟩ := by rw [rules, files]; rfl

theorem tagged_of_nodup {c : Collection} (h : c.names.Nodup) (tag : String) :
    c.tagged tag = ⟨c.rules.filter fun e => e.2.hasTag tag, []⟩ := by
  rw [Collection.tagged, ← List.foldl_filter]
  exact foldl_add_empty (Entries.nodup_filter h _)

theorem Regular.sound {c : Collection} (h : c.Regular) : c.Sound where
  names_nodup := h.nodup
  rules := fun e he => (h.rules e he).sound
  tagged := by
    intro tag
    rw [tagged_of_nodup h.nodup]
    have same : c.rules.filter (fun e => e.2.hasTag tag) =
        c.rules.filter fun e => e.2.tag tag ≠ [] := by
      apply List.filter_congr
      intro e he
      rw [Bool.eq_iff_iff, decide_eq_true_iff]
      exact (h.rules e he).hasTag_iff tag
    rw [same]

end Collection

/-- A table of attributes that repeats no key at any depth. -/
abbrev AttributeTable := { as : Attributes // as.Regular }

/-- A change to a rule in its place. -/
inductive Rule.Edit where
  | setExpression (expression : String)
  | addTag (tag : String) (attributes : AttributeTable)
  | clearTag (tag : String)
  | clearTags

/-- A rule after a change. A blank expression is refused and leaves the rule as it was. -/
def Rule.edit (r : Rule) : Rule.Edit → Rule
  | .setExpression expression =>
    match r.setExpression expression with
    | .ok s => s
    | .error _ => r
  | .addTag tag attributes => r.addTag tag attributes
  | .clearTag tag => r.clearTag tag
  | .clearTags => r.clearTags

/-- A change to a collection in its place. -/
inductive Collection.Edit where
  | remove (name : String)
  | removeAll (names : List String)
  | rule (name : String) (edit : Rule.Edit)
  | addTag (tag : String) (attributes : AttributeTable)
  | clearTag (tag : String)
  | clearTags
  | addFile (file : Path)

def Collection.edit (c : Collection) : Collection.Edit → Collection
  | .remove name => c.remove name
  | .removeAll names => c.removeAll names
  | .rule name edit =>
    match c.get? name with
    | some r => c.modify name fun _ => r.edit edit
    | none => c
  | .addTag tag attributes => c.addTag tag attributes
  | .clearTag tag => c.clearTag tag
  | .clearTags => c.clearTags
  | .addFile file => c.addFile file

/-- What a program holds, under the names of its variables. -/
structure Holdings where
  rules : Entries Rule := []
  collections : Entries Collection := []
  archives : Entries Archive := []

/-- A call of the library. The variables `r` and `s` are of rules, `c` and `d` of collections, `a`
of archives. -/
inductive Operation where
  | newRule (r expression : String)
  | editRule (r : String) (edit : Rule.Edit)
  | copyRule (r s : String)
  | newCollection (c : String)
  | add (c name r : String)
  | get (c name r : String)
  | replace (c name r : String)
  | edit (c : String) (edit : Collection.Edit)
  | merge (c d : String)
  | tagged (c tag d : String)
  | copy (c d : String)
  | load (l : Source.Loader) (t : FileTree) (resource : String) (kind : Option String) (c : String)
  | capture (c : String) (names : ArtifactNames) (a : String)
  | restore (kind : ArtifactKind) (bytes : Bytes) (a : String)
  | build (a c : String)

namespace Holdings

def setRule (h : Holdings) (r : String) (rule : Rule) : Holdings :=
  { h with rules := Entries.put h.rules r rule }

def setCollection (h : Holdings) (c : String) (collection : Collection) : Holdings :=
  { h with collections := Entries.put h.collections c collection }

def setArchive (h : Holdings) (a : String) (archive : Archive) : Holdings :=
  { h with archives := Entries.put h.archives a archive }

/-- What is held after a call, unless it fails or uses a variable that holds nothing. -/
def attempt (h : Holdings) : Operation → Option Holdings
  | .newRule r expression => do
    let rule ← (Rule.new expression).toOption
    some (h.setRule r rule)
  | .editRule r edit => do
    let rule ← Entries.find? h.rules r
    some (h.setRule r (rule.edit edit))
  | .copyRule r s => do
    let rule ← Entries.find? h.rules r
    some (h.setRule s rule)
  | .newCollection c => some (h.setCollection c .empty)
  | .add c name r => do
    let collection ← Entries.find? h.collections c
    let rule ← Entries.find? h.rules r
    some (h.setCollection c (collection.add name rule))
  | .get c name r => do
    let collection ← Entries.find? h.collections c
    let rule ← collection.get? name
    some (h.setRule r rule)
  | .replace c name r => do
    let collection ← Entries.find? h.collections c
    let rule ← Entries.find? h.rules r
    some (h.setCollection c (collection.modify name fun _ => rule))
  | .edit c edit => do
    let collection ← Entries.find? h.collections c
    some (h.setCollection c (collection.edit edit))
  | .merge c d => do
    let collection ← Entries.find? h.collections c
    let other ← Entries.find? h.collections d
    some (h.setCollection c (collection.merge other))
  | .tagged c tag d => do
    let collection ← Entries.find? h.collections c
    some (h.setCollection d (collection.tagged tag))
  | .copy c d => do
    let collection ← Entries.find? h.collections c
    some (h.setCollection d collection)
  | .load l t resource kind c => do
    let collection ← (l.load t resource kind).toOption
    some (h.setCollection c collection)
  | .capture c names a => do
    let collection ← Entries.find? h.collections c
    some (h.setArchive a (.ofCollection collection names))
  | .restore kind bytes a => do
    let archive ← (kind.read bytes).toOption
    some (h.setArchive a archive)
  | .build a c => do
    let archive ← Entries.find? h.archives a
    let collection ← archive.build.toOption
    some (h.setCollection c collection)

/-- What is held after a call: all that was there when the call fails. -/
def perform (h : Holdings) (op : Operation) : Holdings := (h.attempt op).getD h

/-- What a program holds when it has made its calls. -/
def run (program : List Operation) : Holdings := program.foldl perform {}

/-- What a caller can rely on for all that is held. -/
structure Sound (h : Holdings) : Prop where
  rules : ∀ e ∈ h.rules, e.2.Sound
  collections : ∀ e ∈ h.collections, e.2.Sound

end Holdings

theorem Rule.Reachable.edit {r : Rule} (h : r.Reachable) (change : Rule.Edit) :
    (r.edit change).Reachable := by
  cases change with
  | setExpression expression =>
    simp only [Rule.edit]
    cases set : r.setExpression expression with
    | ok s => exact .setExpression h set
    | error _ => exact h
  | addTag tag attributes => exact .addTag h tag attributes.2
  | clearTag tag => exact .clearTag h tag
  | clearTags => exact .clearTags h

theorem Collection.Reachable.edit {c : Collection} (h : c.Reachable) (change : Collection.Edit) :
    (c.edit change).Reachable := by
  cases change with
  | remove name => exact .remove h name
  | removeAll names => exact .removeAll h names
  | rule name change =>
    simp only [Collection.edit]
    cases found : c.get? name with
    | none => exact h
    | some r =>
      have taken : r.Reachable := .taken h found
      exact .replace h name (taken.edit change)
  | addTag tag attributes => exact .addTag h tag attributes.2
  | clearTag tag => exact .clearTag h tag
  | clearTags => exact .clearTags h
  | addFile file => exact .addFile h file

/-- An archive captured from a collection or read from an artifact. -/
inductive Archive.Obtained : Archive → Prop
  | captured {c : Collection} (hc : c.Reachable) (names : ArtifactNames) :
      Archive.Obtained (.ofCollection c names)
  | read {kind : ArtifactKind} {bytes : Bytes} {a : Archive} (h : kind.read bytes = .ok a) :
      Archive.Obtained a

theorem Archive.Obtained.build {a : Archive} (h : a.Obtained) {c : Collection}
    (built : a.build = .ok c) : c.Reachable := by
  cases h with
  | captured hc names => exact .built hc built
  | read read => exact .restored read built

namespace Holdings

/-- All that is held was made by the operations, loaded, or read from an artifact. -/
structure Reachable (h : Holdings) : Prop where
  rules : ∀ e ∈ h.rules, e.2.Reachable
  collections : ∀ e ∈ h.collections, e.2.Reachable
  archives : ∀ e ∈ h.archives, e.2.Obtained

variable {h : Holdings}

theorem Reachable.rule (held : h.Reachable) {r : String} {rule : Rule}
    (found : Entries.find? h.rules r = some rule) : rule.Reachable :=
  held.rules _ (Entries.mem_of_find? found)

theorem Reachable.collection (held : h.Reachable) {c : String} {collection : Collection}
    (found : Entries.find? h.collections c = some collection) : collection.Reachable :=
  held.collections _ (Entries.mem_of_find? found)

theorem Reachable.archive (held : h.Reachable) {a : String} {archive : Archive}
    (found : Entries.find? h.archives a = some archive) : archive.Obtained :=
  held.archives _ (Entries.mem_of_find? found)

theorem Reachable.setRule (held : h.Reachable) (r : String) {rule : Rule} (new : rule.Reachable) :
    (h.setRule r rule).Reachable :=
  ⟨Entries.forall_put held.rules r new, held.collections, held.archives⟩

theorem Reachable.setCollection (held : h.Reachable) (c : String) {collection : Collection}
    (new : collection.Reachable) : (h.setCollection c collection).Reachable :=
  ⟨held.rules, Entries.forall_put held.collections c new, held.archives⟩

theorem Reachable.setArchive (held : h.Reachable) (a : String) {archive : Archive}
    (new : archive.Obtained) : (h.setArchive a archive).Reachable :=
  ⟨held.rules, held.collections, Entries.forall_put held.archives a new⟩

theorem Reachable.attempt (held : h.Reachable) {op : Operation} {h' : Holdings}
    (done : h.attempt op = some h') : h'.Reachable := by
  cases op <;> simp only [Holdings.attempt, Option.bind_eq_bind, Option.bind_eq_some_iff] at done
  case newRule r expression =>
    obtain ⟨rule, new, ⟨⟩⟩ := done
    exact held.setRule r (.new (Outcome.ok_of_toOption new))
  case editRule r edit =>
    obtain ⟨rule, found, ⟨⟩⟩ := done
    exact held.setRule r ((held.rule found).edit edit)
  case copyRule r s =>
    obtain ⟨rule, found, ⟨⟩⟩ := done
    exact held.setRule s (held.rule found)
  case newCollection c =>
    cases done
    exact held.setCollection c .empty
  case add c name r =>
    obtain ⟨collection, there, rule, found, ⟨⟩⟩ := done
    exact held.setCollection c (.add (held.collection there) name (held.rule found))
  case get c name r =>
    obtain ⟨collection, there, rule, found, ⟨⟩⟩ := done
    exact held.setRule r (.taken (held.collection there) found)
  case replace c name r =>
    obtain ⟨collection, there, rule, found, ⟨⟩⟩ := done
    exact held.setCollection c (.replace (held.collection there) name (held.rule found))
  case edit c edit =>
    obtain ⟨collection, there, ⟨⟩⟩ := done
    exact held.setCollection c ((held.collection there).edit edit)
  case merge c d =>
    obtain ⟨collection, there, other, found, ⟨⟩⟩ := done
    exact held.setCollection c (.merge (held.collection there) (held.collection found))
  case tagged c tag d =>
    obtain ⟨collection, there, ⟨⟩⟩ := done
    exact held.setCollection d (.tagged (held.collection there) tag)
  case copy c d =>
    obtain ⟨collection, there, ⟨⟩⟩ := done
    exact held.setCollection d (held.collection there)
  case load l t resource kind c =>
    obtain ⟨collection, loaded, ⟨⟩⟩ := done
    exact held.setCollection c (.loaded (Outcome.ok_of_toOption loaded))
  case capture c names a =>
    obtain ⟨collection, there, ⟨⟩⟩ := done
    exact held.setArchive a (.captured (held.collection there) names)
  case restore kind bytes a =>
    obtain ⟨archive, read, ⟨⟩⟩ := done
    exact held.setArchive a (.read (Outcome.ok_of_toOption read))
  case build a c =>
    obtain ⟨archive, there, collection, built, ⟨⟩⟩ := done
    exact held.setCollection c ((held.archive there).build (Outcome.ok_of_toOption built))

theorem Reachable.perform (held : h.Reachable) (op : Operation) : (h.perform op).Reachable := by
  unfold Holdings.perform
  cases done : h.attempt op with
  | none => exact held
  | some h' => exact held.attempt done

theorem run_reachable (program : List Operation) : (run program).Reachable := by
  have start : ({} : Holdings).Reachable := ⟨by simp, by simp, by simp⟩
  exact List.foldlRecOn program perform start fun h held op _ => held.perform op

theorem Reachable.sound (held : h.Reachable) : h.Sound where
  rules := fun e he => (held.rules e he).regular.sound
  collections := fun e he => (held.collections e he).regular.sound

/-- Whatever calls a program makes, all that it holds is sound. -/
theorem run_sound (program : List Operation) : (run program).Sound :=
  (run_reachable program).sound

/-- Adds two rules, tags one of them, adds the other again and looks for the tag. -/
example :
    let calls : List Operation :=
      [.newRule "r" "1", .newCollection "c", .add "c" "a" "r", .add "c" "b" "r",
        .edit "c" (.rule "b" (.addTag "t" ⟨[], .nil⟩)), .editRule "r" (.setExpression " "),
        .add "c" "a" "r", .tagged "c" "t" "d"]
    ((run calls).collections.map fun e => e.2.names) = [["b", "a"], ["b"]] := by
  decide

end Holdings

end RuleRegistry
