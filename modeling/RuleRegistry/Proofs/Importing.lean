import RuleRegistry.Proofs.Loading

/-!
Runs of the importer. The importer has one stack of canonical paths: an import pushes its file, goes
through the definitions of the file, each of which may be an import again, and pops the file. A load
is such a run: it comes to an end with one outcome, and every import leaves the stack as it was.
-/

namespace RuleRegistry.Source

open Outcome

namespace Loader

/-- The file that a resource stands for, and how it is to be read. -/
structure Target where
  file : Path
  canonical : Path
  format : Format
deriving DecidableEq

/-- Looks for a resource without opening it. -/
def resolve (l : Loader) (t : FileTree) (resource : String) (kind : Option String)
    (folder : Option Path) : Except Error Target :=
  (l.locate t resource folder).bind fun file =>
    match l.format? resource kind with
    | none => .error (.unsupported resource kind)
    | some format =>
      match t.canonical? file with
      | none => .error (.unreadable file)
      | some canonical => .ok ⟨file, canonical, format⟩

def Target.definitions (x : Target) (text : String) : Definitions := x.format.read x.file text

inductive Task where
  | resource (name : String) (kind : Option String) (folder : Option Path)
  | definitions (folder : Option Path) (c : Collection) (ds : Definitions)

/-- A task from a stack, what comes of it, and the stack after it. -/
inductive Runs (l : Loader) (t : FileTree) :
    List Path → Task → Except Error Collection → List Path → Prop
  | unresolved {stack resource kind folder e}
      (failed : l.resolve t resource kind folder = .error e) :
      Runs l t stack (.resource resource kind folder) (.error e) stack
  | circular {stack resource kind folder x}
      (resolved : l.resolve t resource kind folder = .ok x) (again : x.canonical ∈ stack) :
      Runs l t stack (.resource resource kind folder)
        (.error (.circular (stack ++ [x.canonical]))) stack
  | unreadable {stack resource kind folder x e}
      (resolved : l.resolve t resource kind folder = .ok x) (fresh : x.canonical ∉ stack)
      (failed : textOf t x.file = .error e) :
      Runs l t stack (.resource resource kind folder) (.error e) (stack ++ [x.canonical]).dropLast
  | opened {stack resource kind folder x text outcome stack'}
      (resolved : l.resolve t resource kind folder = .ok x) (fresh : x.canonical ∉ stack)
      (read : textOf t x.file = .ok text)
      (inside : Runs l t (stack ++ [x.canonical])
        (.definitions (folderOf x.file) (Collection.empty.addFile x.file) (x.definitions text))
          outcome stack') :
      Runs l t stack (.resource resource kind folder) outcome stack'.dropLast
  | done {stack folder c} : Runs l t stack (.definitions folder c ⟨[], none⟩) (.ok c) stack
  | faulty {stack folder c e} :
      Runs l t stack (.definitions folder c ⟨[], some e⟩) (.error e) stack
  | rule {stack folder c name r ds fault outcome stack'}
      (others : Runs l t stack (.definitions folder (c.add name r) ⟨ds, fault⟩) outcome stack') :
      Runs l t stack (.definitions folder c ⟨.rule name r :: ds, fault⟩) outcome stack'
  | imported {stack folder c resource kind tags ds fault d between outcome stack'}
      (import_ok : Runs l t stack (.resource resource kind folder) (.ok d) between)
      (others : Runs l t between (.definitions folder (c.merge (d.addTags tags)) ⟨ds, fault⟩)
        outcome stack') :
      Runs l t stack (.definitions folder c ⟨.reference resource kind tags :: ds, fault⟩) outcome stack'
  | stopped {stack folder c resource kind tags ds fault e stack'}
      (import_error : Runs l t stack (.resource resource kind folder) (.error e) stack') :
      Runs l t stack (.definitions folder c ⟨.reference resource kind tags :: ds, fault⟩) (.error e)
        stack'

variable {l : Loader} {t : FileTree} {stack stack' : List Path} {task : Task}
  {outcome : Except Error Collection}

/-- Every import, successful or not, and every file leaves the stack as it was. -/
theorem Runs.stack_eq (h : Runs l t stack task outcome stack') : stack' = stack := by
  induction h with
  | unresolved _ | circular _ _ | done | faulty => rfl
  | unreadable _ _ _ => exact List.dropLast_concat
  | opened _ _ _ _ ih => rw [ih, List.dropLast_concat]
  | rule _ ih | stopped _ ih => exact ih
  | imported _ _ import_ih others_ih => exact others_ih.trans import_ih

theorem Runs.unique {outcome' : Except Error Collection} {stack'' : List Path}
    (one : Runs l t stack task outcome stack') (other : Runs l t stack task outcome' stack'') :
    outcome = outcome' := by
  induction one generalizing outcome' stack'' with
  | unresolved failed => cases other <;> simp_all
  | circular resolved again => cases other <;> simp_all
  | unreadable resolved fresh failed => cases other <;> simp_all
  | opened resolved fresh read _ ih =>
    cases other with
    | opened resolved' _ read' inside' =>
      rw [resolved, Except.ok.injEq] at resolved'
      subst resolved'
      rw [read, Except.ok.injEq] at read'
      subst read'
      exact ih inside'
    | _ => simp_all
  | done =>
    cases other
    rfl
  | faulty =>
    cases other
    rfl
  | rule _ ih =>
    cases other with
    | rule others => exact ih others
  | imported import_ok _ import_ih others_ih =>
    cases other with
    | imported import_ok' others' =>
      cases import_ih import_ok'
      obtain rfl := import_ok.stack_eq
      obtain rfl := import_ok'.stack_eq
      exact others_ih others'
    | stopped import_error => cases import_ih import_error
  | stopped _ ih =>
    cases other with
    | imported import_ok _ => cases ih import_ok
    | stopped import_error => exact ih import_error

/-- Every import of a file that loads gives a collection. -/
theorem Runs.reference_ok {resource : String} {kind : Option String} {folder : Option Path}
    {c c' : Collection} {ds : Definitions} {tags : TagList}
    (run : Runs l t stack (.definitions folder c ds) (.ok c') stack')
    (there : .reference resource kind tags ∈ ds.found) :
    ∃ d, Runs l t stack (.resource resource kind folder) (.ok d) stack := by
  obtain ⟨ds, fault⟩ := ds
  induction ds generalizing c with
  | nil => cases there
  | cons d ds ih =>
    cases run with
    | rule others =>
      rcases List.mem_cons.mp there with this | later
      · cases this
      · exact ih others later
    | imported import_ok others =>
      obtain rfl := import_ok.stack_eq
      rcases List.mem_cons.mp there with this | later
      · cases this
        exact ⟨_, import_ok⟩
      · exact ih others later

theorem loadBelow_succ (l : Loader) (t : FileTree) (fuel : Nat) (stack : List Path)
    (resource : String) (kind : Option String) (folder : Option Path) :
    l.loadBelow t (fuel + 1) stack resource kind folder =
      (l.resolve t resource kind folder).bind fun x =>
        if x.canonical ∈ stack then .error (.circular (stack ++ [x.canonical]))
        else (textOf t x.file).bind fun text =>
          addDefinitions (fun resource kind =>
            l.loadBelow t fuel (stack ++ [x.canonical]) resource kind (folderOf x.file))
            (Collection.empty.addFile x.file) (x.definitions text) := by
  rw [loadBelow, resolve]
  change Except.bind _ _ = _
  cases l.locate t resource folder with
  | error e => rfl
  | ok file =>
    dsimp only [Except.bind]
    cases l.format? resource kind with
    | none => rfl
    | some format => cases t.canonical? file <;> rfl

theorem addDefinitions_reference (load : String → Option String → Except Error Collection)
    (c : Collection) (resource : String) (kind : Option String) (tags : TagList)
    (ds : List Definition) (fault : Option Error) :
    addDefinitions load c ⟨.reference resource kind tags :: ds, fault⟩ =
      (load resource kind).bind fun d => addDefinitions load (c.merge (d.addTags tags)) ⟨ds, fault⟩ := by
  simp only [addDefinitions, List.foldlM_cons, addDefinition]
  cases load resource kind <;> rfl

/-- Where every import is a run, so is going through the definitions of a file. -/
theorem runs_addDefinitions {load : String → Option String → Except Error Collection}
    {folder : Option Path}
    (imports : ∀ resource kind, Runs l t stack (.resource resource kind folder) (load resource kind) stack)
    (ds : List Definition) (fault : Option Error) (c : Collection) :
    Runs l t stack (.definitions folder c ⟨ds, fault⟩) (addDefinitions load c ⟨ds, fault⟩) stack := by
  induction ds generalizing c with
  | nil =>
    cases fault with
    | none => exact .done
    | some e => exact .faulty
  | cons d rest ih =>
    cases d with
    | rule name r => exact .rule (ih (c.add name r))
    | reference resource kind tags =>
      have import_run := imports resource kind
      rw [addDefinitions_reference]
      cases loaded : load resource kind with
      | error e =>
        rw [loaded] at import_run
        exact .stopped import_run
      | ok d =>
        rw [loaded] at import_run
        exact .imported import_run (ih (c.merge (d.addTags tags)))

theorem resolve_ok {resource : String} {kind : Option String} {folder : Option Path} {x : Target}
    (h : l.resolve t resource kind folder = .ok x) :
    l.locate t resource folder = .ok x.file ∧ l.format? resource kind = some x.format ∧
      t.canonical? x.file = some x.canonical := by
  obtain ⟨file, located, h⟩ := bind_ok_iff.mp h
  cases hformat : l.format? resource kind with
  | none => simp [hformat] at h
  | some format =>
    cases hcanonical : t.canonical? file with
    | none => simp [hformat, hcanonical] at h
    | some canonical =>
      simp only [hformat, hcanonical, Except.ok.injEq] at h
      subst h
      exact ⟨located, rfl, hcanonical⟩

theorem Stacked.open {x : Target} {resource : String} {kind : Option String} {folder : Option Path}
    (stacked : Stacked t stack) (resolved : l.resolve t resource kind folder = .ok x)
    (fresh : x.canonical ∉ stack) : Stacked t (stack ++ [x.canonical]) := by
  obtain ⟨located, _, named⟩ := resolve_ok resolved
  exact stacked.push (listed_of_locate located named) fresh

/-- With more fuel than there are files beside the stack, the fuel does not show. -/
theorem runs_loadBelow {fuel : Nat} (stacked : Stacked t stack)
    (enough : t.files.length + 1 ≤ fuel + stack.length) (resource : String) (kind : Option String)
    (folder : Option Path) :
    Runs l t stack (.resource resource kind folder)
      (l.loadBelow t fuel stack resource kind folder) stack := by
  induction fuel generalizing stack resource kind folder with
  | zero =>
    have bound := stacked.length_le
    omega
  | succ fuel ih =>
    rw [loadBelow_succ]
    cases resolved : l.resolve t resource kind folder with
    | error e => exact .unresolved resolved
    | ok x =>
      by_cases again : x.canonical ∈ stack
      · simp only [Except.bind, if_pos again]
        exact .circular resolved again
      · simp only [Except.bind, if_neg again]
        cases read : textOf t x.file with
        | error e =>
          have run := Runs.unreadable resolved again read
          rwa [List.dropLast_concat] at run
        | ok text =>
          have below : t.files.length + 1 ≤ fuel + (stack ++ [x.canonical]).length := by
            rw [List.length_append, List.length_singleton]
            omega
          have inside := runs_addDefinitions
            (fun resource kind => ih (stacked.open resolved again) below resource kind (folderOf x.file))
            (x.definitions text).found (x.definitions text).error (Collection.empty.addFile x.file)
          have run := Runs.opened resolved again read inside
          rwa [List.dropLast_concat] at run

/-- A load is the one run of its resource from the empty stack. -/
theorem runs_load_iff {resource : String} {kind : Option String} :
    Runs l t [] (.resource resource kind none) outcome stack ↔
      outcome = l.load t resource kind ∧ stack = [] := by
  have stacked : Stacked t [] := ⟨List.nodup_nil, by simp⟩
  have run : Runs l t [] (.resource resource kind none) (l.load t resource kind) [] :=
    runs_loadBelow stacked (by simp) resource kind none
  constructor
  · exact fun other => ⟨other.unique run, other.stack_eq⟩
  · rintro ⟨rfl, rfl⟩
    exact run

end Loader

end RuleRegistry.Source
