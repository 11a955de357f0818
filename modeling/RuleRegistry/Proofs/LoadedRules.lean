import RuleRegistry.Proofs.Importing
import RuleRegistry.Proofs.Merging

namespace RuleRegistry

theorem Entries.find?_mapValues {α β : Type} (f : α → β) (es : Entries α) (key : String) :
    find? (mapValues f es) key = (find? es key).map f := by
  induction es with
  | nil => rfl
  | cons e rest ih =>
    have step : mapValues f (e :: rest) = (e.1, f e.2) :: mapValues f rest := rfl
    rw [step, find?, find?, ih]
    split <;> rfl

namespace Collection

variable {c d : Collection} {name : String} {r : Rule}

theorem get?_merge_of_get? (c : Collection) (once : d.names.Nodup) (there : d.get? name = some r) :
    (c.merge d).get? name = some r := by
  have named : name ∈ d.names := List.mem_map_of_mem (Entries.mem_of_find? there)
  have dropped : name ∉ Entries.keys (c.rules.filter fun e => !d.names.contains e.1) := by
    intro listed
    obtain ⟨e, kept, rfl⟩ := List.mem_map.mp listed
    simp [named] at kept
  rw [get?, rules_merge_of_nodup c once, Entries.find?_append,
    (Entries.find?_eq_none_iff _ _).mpr dropped]
  exact there

theorem get?_addTags (tags : Source.TagList) (there : c.get? name = some r) :
    (c.addTags tags).get? name = some (r.withTags tags) := by
  rw [get?, rules_addTags, Entries.find?_mapValues]
  exact congrArg (Option.map _) there

end Collection

namespace Source.Loader

variable {l : Loader} {t : FileTree} {stack stack' : List Path} {task : Task} {folder : Option Path}
  {outcome : Except Error Collection} {c out : Collection} {name : String} {r : Rule}

/-- What has been collected so far has no name twice. -/
def Task.Distinct : Task → Prop
  | resource _ _ _ => True
  | definitions _ c _ => c.names.Nodup

theorem Runs.nodup (run : Runs l t stack task outcome stack') (start : task.Distinct) :
    ∀ out, outcome = .ok out → out.names.Nodup := by
  induction run with
  | unresolved | circular | unreadable | faulty | stopped => exact nofun
  | opened _ _ _ _ ih => exact ih (List.nodup_nil : (Collection.empty.addFile _).names.Nodup)
  | done =>
    rintro out ⟨⟩
    exact start
  | @rule _ _ c name r _ _ _ _ _ ih =>
    have added : (c.add name r).names.Nodup := Entries.nodup_moveAll start [(name, r)]
    exact ih added
  | @imported _ _ c _ _ tags _ _ d _ _ _ _ _ _ ih =>
    have merged : (c.merge (d.addTags tags)).names.Nodup := by
      rw [Collection.names, Collection.rules_merge]
      exact Entries.nodup_moveAll start _
    exact ih merged

/-- The rules of a definition that is come to below a stack. -/
inductive Gives (l : Loader) (t : FileTree) (stack : List Path) (folder : Option Path) :
    Definition → String → Rule → Prop
  | rule (name : String) (r : Rule) : Gives l t stack folder (.rule name r) name r
  | imported {resource : String} {kind : Option String} (tags : TagList) {imported : Collection}
      {name : String} {r : Rule}
      (import_ok : Runs l t stack (.resource resource kind folder) (.ok imported) stack)
      (there : imported.get? name = some r) :
      Gives l t stack folder (.reference resource kind tags) name (r.withTags tags)

/-- Going through the definitions after the first one, which has given its rules. -/
theorem Runs.step {d : Definition} {ds : List Definition} {fault : Option Error}
    (run : Runs l t stack (.definitions folder c ⟨d :: ds, fault⟩) (.ok out) stack') :
    ∃ c', Runs l t stack (.definitions folder c' ⟨ds, fault⟩) (.ok out) stack' ∧
      (∀ name r, Gives l t stack folder d name r → c'.get? name = some r) ∧
      ∀ name, (∀ r, ¬ Gives l t stack folder d name r) → c'.get? name = c.get? name := by
  cases run with
  | @rule _ _ _ other s _ _ _ _ others =>
    refine ⟨c.add other s, others, ?_, ?_⟩
    · rintro _ _ ⟨⟩
      exact Collection.get?_add c other s
    · intro name without
      have differ : other ≠ name := by
        rintro rfl
        exact without s (.rule other s)
      exact Collection.get?_add_of_ne differ c s
  | @imported _ _ _ resource kind tags _ _ d between _ _ import_ok others =>
    obtain rfl := import_ok.stack_eq
    have once : (d.addTags tags).names.Nodup := by
      rw [Collection.names_addTags]
      exact import_ok.nodup trivial d rfl
    refine ⟨c.merge (d.addTags tags), others, ?_, ?_⟩
    · rintro name _ (_ | ⟨_, import_ok', there⟩)
      cases import_ok.unique import_ok'
      exact Collection.get?_merge_of_get? c once (Collection.get?_addTags tags there)
    · intro name without
      apply Collection.get?_merge
      rw [Collection.names_addTags, Collection.names, ← Entries.find?_eq_none_iff]
      cases there : Entries.find? d.rules name with
      | none => rfl
      | some s => exact absurd (Gives.imported tags import_ok there) (without _)

theorem Runs.unchanged {ds : List Definition} {fault : Option Error}
    (run : Runs l t stack (.definitions folder c ⟨ds, fault⟩) (.ok out) stack')
    (without : ∀ d ∈ ds, ∀ r, ¬ Gives l t stack folder d name r) : out.get? name = c.get? name := by
  induction ds generalizing c with
  | nil =>
    cases run
    rfl
  | cons d rest ih =>
    obtain ⟨first, others⟩ := List.forall_mem_cons.mp without
    obtain ⟨c', run, _, kept⟩ := run.step
    rw [ih run others, kept name first]

theorem Runs.behind {before rest : List Definition} {fault : Option Error}
    (run : Runs l t stack (.definitions folder c ⟨before ++ rest, fault⟩) (.ok out) stack') :
    ∃ c', Runs l t stack (.definitions folder c' ⟨rest, fault⟩) (.ok out) stack' := by
  induction before generalizing c with
  | nil => exact ⟨c, run⟩
  | cons d before ih =>
    obtain ⟨c', run, _⟩ := run.step
    exact ih run

/-- A rule that a definition gives stays, unless a later definition gives one of its name. -/
theorem Runs.gives_stays {before after : List Definition} {d : Definition} {fault : Option Error}
    (run : Runs l t stack (.definitions folder c ⟨before ++ d :: after, fault⟩) (.ok out) stack')
    (gives : Gives l t stack folder d name r) :
    out.get? name = some r ∨ ∃ later ∈ after, ∃ s, Gives l t stack folder later name s := by
  by_cases later : ∃ later ∈ after, ∃ s, Gives l t stack folder later name s
  · exact .inr later
  · left
    obtain ⟨_, run⟩ := run.behind
    obtain ⟨c', run, given, _⟩ := run.step
    rw [run.unchanged fun e mem s again => later ⟨e, mem, s, again⟩, given name r gives]

theorem Runs.complete {ds : Definitions}
    (run : Runs l t stack (.definitions folder c ds) (.ok out) stack') : ds.error = none := by
  obtain ⟨found, fault⟩ := ds
  have at_end : ∃ c', Runs l t stack (.definitions folder c' ⟨[], fault⟩) (.ok out) stack' := by
    rw [← List.append_nil found] at run
    exact run.behind
  obtain ⟨_, run⟩ := at_end
  cases run
  rfl

end Source.Loader

end RuleRegistry
