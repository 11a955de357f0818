import RuleRegistry.Proofs.FileFaults
import RuleRegistry.Proofs.Importing
import Mathlib.Data.List.Nodup
import Mathlib.Logic.Relation

/-!
Circular imports. The stack of a load is a trail of imports from its resource on which no canonical
path stands twice. A load that fails with a circular import has come to an import back to its trail;
a load that succeeds has followed every trail there is, so none of them comes back.
-/

namespace RuleRegistry.Source.Loader

open Relation

def Target.found (t : FileTree) (x : Target) : List Definition :=
  match textOf t x.file with
  | .ok text => (x.definitions text).found
  | .error _ => []

/-- The files that a file imports. A file is known by the path by which it is opened, since its
imports are looked for in the folder of that path. -/
def importsOf (l : Loader) (t : FileTree) (x : Target) : List Target :=
  (x.found t).filterMap fun d =>
    match d with
    | .rule _ _ => none
    | .reference resource kind _ => (l.resolve t resource kind (folderOf x.file)).toOption

def Imports (l : Loader) (t : FileTree) (x y : Target) : Prop := y ∈ l.importsOf t x

/-- The files from that of a resource to another one, each of which imports the next. -/
inductive Trail (l : Loader) (t : FileTree) (resource : String) (kind : Option String) :
    List Target → Target → Prop
  | root {x} (resolved : l.resolve t resource kind none = .ok x) : Trail l t resource kind [] x
  | onward {front x y} (trail : Trail l t resource kind front x) (imports : l.Imports t x y) :
      Trail l t resource kind (front ++ [x]) y

/-- The canonical paths of a trail. -/
def chainOf (front : List Target) (x : Target) : List Path :=
  front.map Target.canonical ++ [x.canonical]

variable {l : Loader} {t : FileTree} {resource : String} {kind : Option String}
  {front : List Target} {x y : Target}

@[simp] theorem chainOf_concat (front : List Target) (x y : Target) :
    chainOf (front ++ [x]) y = chainOf front x ++ [y.canonical] := by
  simp [chainOf]

theorem chainOf_nodup_concat (distinct : (chainOf front x).Nodup)
    (fresh : y.canonical ∉ chainOf front x) : (chainOf (front ++ [x]) y).Nodup := by
  rw [chainOf_concat, ← List.concat_eq_append]
  exact List.Nodup.concat fresh distinct

theorem Target.found_of_textOf {text : String} (read : textOf t x.file = .ok text) :
    x.found t = (x.definitions text).found := by
  rw [Target.found, read]

theorem imports_iff :
    l.Imports t x y ↔ ∃ resource kind tags, .reference resource kind tags ∈ x.found t ∧
      l.resolve t resource kind (folderOf x.file) = .ok y := by
  simp only [Imports, importsOf, List.mem_filterMap]
  constructor
  · rintro ⟨d, there, resolved⟩
    cases d with
    | rule name r => cases resolved
    | reference resource kind tags =>
      refine ⟨resource, kind, tags, there, ?_⟩
      dsimp only at resolved
      cases found : l.resolve t resource kind (folderOf x.file) with
      | error e => simp [found, Except.toOption] at resolved
      | ok z =>
        simp only [found, Except.toOption, Option.some.injEq] at resolved
        rw [resolved]
  · rintro ⟨resource, kind, tags, there, resolved⟩
    exact ⟨_, there, by simp [resolved, Except.toOption]⟩

/-- A trail goes on wherever imports lead. -/
theorem Trail.follow (trail : Trail l t resource kind front x) (path : TransGen (l.Imports t) x y) :
    ∃ more, Trail l t resource kind (front ++ x :: more) y := by
  induction path with
  | single imports => exact ⟨[], .onward trail imports⟩
  | @tail z y _ imports ih =>
    obtain ⟨more, onward⟩ := ih
    have next := Trail.onward onward imports
    rw [List.append_assoc, List.cons_append] at next
    exact ⟨more ++ [z], next⟩

/-- What a task from a stack makes the importer do. After an import that succeeds the rest of the
file follows, from the stack that the import has left. -/
inductive Calls (l : Loader) (t : FileTree) : List Path × Task → List Path × Task → Prop
  | inside {stack resource kind folder x text}
      (resolved : l.resolve t resource kind folder = .ok x) (fresh : x.canonical ∉ stack)
      (read : textOf t x.file = .ok text) :
      Calls l t (stack, .resource resource kind folder)
        (stack ++ [x.canonical],
          .definitions (folderOf x.file) (Collection.empty.addFile x.file) (x.definitions text))
  | rule {stack folder c name r ds fault} :
      Calls l t (stack, .definitions folder c ⟨.rule name r :: ds, fault⟩)
        (stack, .definitions folder (c.add name r) ⟨ds, fault⟩)
  | reference {stack folder c resource kind tags ds fault} :
      Calls l t (stack, .definitions folder c ⟨.reference resource kind tags :: ds, fault⟩)
        (stack, .resource resource kind folder)
  | others {stack folder c resource kind tags ds fault d between}
      (import_ok : Runs l t stack (.resource resource kind folder) (.ok d) between) :
      Calls l t (stack, .definitions folder c ⟨.reference resource kind tags :: ds, fault⟩)
        (between, .definitions folder (c.merge (d.addTags tags)) ⟨ds, fault⟩)

/-- The stack is a trail without repetition, and the task belongs to the last file of it. -/
inductive Stands (l : Loader) (t : FileTree) (resource : String) (kind : Option String) :
    List Path × Task → Prop
  | start : Stands l t resource kind ([], .resource resource kind none)
  | within {front x c ds} (trail : Trail l t resource kind front x)
      (distinct : (chainOf front x).Nodup) (own : ds.found ⊆ x.found t)
      (fault : ∀ e ∈ ds.error, e.OfFile x.file) :
      Stands l t resource kind (chainOf front x, .definitions (folderOf x.file) c ds)
  | reference {front x other kind' tags} (trail : Trail l t resource kind front x)
      (distinct : (chainOf front x).Nodup) (own : .reference other kind' tags ∈ x.found t) :
      Stands l t resource kind (chainOf front x, .resource other kind' (folderOf x.file))

theorem Stands.opened {text : String} {c : Collection} (trail : Trail l t resource kind front x)
    (distinct : (chainOf front x).Nodup) (read : textOf t x.file = .ok text) :
    Stands l t resource kind
      (chainOf front x, .definitions (folderOf x.file) c (x.definitions text)) := by
  refine .within trail distinct ?_ (Format.read_fails x.format x.file text)
  rw [Target.found_of_textOf read]
  exact List.Subset.refl _

theorem Stands.call {here next : List Path × Task} (stands : Stands l t resource kind here)
    (call : Calls l t here next) : Stands l t resource kind next := by
  cases call with
  | inside resolved fresh read =>
    cases stands with
    | start => exact .opened (.root resolved) (List.nodup_singleton _) read
    | reference trail distinct own =>
      rw [← chainOf_concat]
      have imports := imports_iff.mpr ⟨_, _, _, own, resolved⟩
      exact .opened (.onward trail imports) (chainOf_nodup_concat distinct fresh) read
  | rule =>
    cases stands with
    | within trail distinct own fault =>
      exact .within trail distinct (List.subset_of_cons_subset own) fault
  | reference =>
    cases stands with
    | within trail distinct own fault => exact .reference trail distinct (own List.mem_cons_self)
  | others import_ok =>
    cases stands with
    | within trail distinct own fault =>
      rw [import_ok.stack_eq]
      exact .within trail distinct (List.subset_of_cons_subset own) fault

theorem Stands.of_calls {here : List Path × Task}
    (calls : ReflTransGen (Calls l t) ([], .resource resource kind none) here) :
    Stands l t resource kind here := by
  induction calls with
  | refl => exact .start
  | tail _ call ih => exact ih.call call

theorem Stands.nodup {stack : List Path} {task : Task}
    (stands : Stands l t resource kind (stack, task)) : stack.Nodup := by
  cases stands with
  | start => exact List.nodup_nil
  | within _ distinct _ _ | reference _ distinct _ => exact distinct

/-- What a task fails with by itself. -/
inductive Raises (l : Loader) (t : FileTree) : List Path × Task → Error → Prop
  | unresolved {stack resource kind folder e}
      (failed : l.resolve t resource kind folder = .error e) :
      Raises l t (stack, .resource resource kind folder) e
  | circular {stack resource kind folder x}
      (resolved : l.resolve t resource kind folder = .ok x) (again : x.canonical ∈ stack) :
      Raises l t (stack, .resource resource kind folder) (.circular (stack ++ [x.canonical]))
  | unreadable {stack resource kind folder x e}
      (resolved : l.resolve t resource kind folder = .ok x) (failed : textOf t x.file = .error e) :
      Raises l t (stack, .resource resource kind folder) e
  | faulty {stack folder c e} : Raises l t (stack, .definitions folder c ⟨[], some e⟩) e

/-- The error of a run is raised by a task that the run comes to. -/
theorem Runs.raised {stack stack' : List Path} {task : Task} {e : Error}
    (run : Runs l t stack task (.error e) stack') :
    ∃ here, ReflTransGen (Calls l t) (stack, task) here ∧ Raises l t here e := by
  generalize failed : (.error e : Except Error Collection) = outcome at run
  induction run with
  | done => cases failed
  | unresolved unresolved =>
    cases failed
    exact ⟨_, .refl, .unresolved unresolved⟩
  | circular resolved again =>
    cases failed
    exact ⟨_, .refl, .circular resolved again⟩
  | unreadable resolved _ unread =>
    cases failed
    exact ⟨_, .refl, .unreadable resolved unread⟩
  | faulty =>
    cases failed
    exact ⟨_, .refl, .faulty⟩
  | opened resolved fresh read _ ih =>
    obtain ⟨here, calls, raises⟩ := ih failed
    exact ⟨here, .head (.inside resolved fresh read) calls, raises⟩
  | rule _ ih =>
    obtain ⟨here, calls, raises⟩ := ih failed
    exact ⟨here, .head .rule calls, raises⟩
  | imported import_ok _ _ ih =>
    obtain ⟨here, calls, raises⟩ := ih failed
    exact ⟨here, .head (.others import_ok) calls, raises⟩
  | stopped _ ih =>
    obtain ⟨here, calls, raises⟩ := ih failed
    exact ⟨here, .head .reference calls, raises⟩

theorem resolve_ne_circular {folder : Option Path} {chain : List Path} :
    l.resolve t resource kind folder ≠ .error (.circular chain) := by
  unfold resolve locate
  dsimp only
  split
  · exact nofun
  · split
    · simp only [Except.bind]
      split
      · exact nofun
      · split <;> exact nofun
    · exact nofun

theorem textOf_ne_circular {file : Path} {chain : List Path} :
    textOf t file ≠ .error (.circular chain) := by
  unfold textOf
  split <;> exact nofun

/-- A chain of files each of which imports the next one. The last is the only one that is there
already. -/
def Closes (l : Loader) (t : FileTree) (resource : String) (kind : Option String)
    (chain : List Path) : Prop :=
  ∃ front x, Trail l t resource kind front x ∧ chain = chainOf front x ∧
    (front.map Target.canonical).Nodup ∧ x.canonical ∈ front.map Target.canonical

theorem Stands.closes {here : List Path × Task} {chain : List Path}
    (stands : Stands l t resource kind here) (raises : Raises l t here (.circular chain)) :
    Closes l t resource kind chain := by
  cases raises with
  | unresolved failed => exact absurd failed resolve_ne_circular
  | unreadable _ failed => exact absurd failed textOf_ne_circular
  | circular resolved again =>
    cases stands with
    | start => cases again
    | @reference front x _ _ _ trail distinct own =>
      have stack : chainOf front x = (front ++ [x]).map Target.canonical := by simp [chainOf]
      have imports := imports_iff.mpr ⟨_, _, _, own, resolved⟩
      exact ⟨_, _, .onward trail imports, (chainOf_concat _ _ _).symm, stack ▸ distinct, stack ▸ again⟩
  | faulty =>
    cases stands with
    | within _ _ _ fault => exact absurd (fault _ rfl) id

theorem Runs.resource_ok {stack stack' : List Path} {folder : Option Path} {c : Collection}
    (run : Runs l t stack (.resource resource kind folder) (.ok c) stack')
    (resolved : l.resolve t resource kind folder = .ok x) :
    x.canonical ∉ stack ∧ ∃ text stack'', textOf t x.file = .ok text ∧
      Runs l t (stack ++ [x.canonical])
        (.definitions (folderOf x.file) (Collection.empty.addFile x.file) (x.definitions text))
          (.ok c) stack'' := by
  cases run with
  | opened resolved' fresh read inside =>
    rw [resolved, Except.ok.injEq] at resolved'
    subst resolved'
    exact ⟨fresh, _, _, read, inside⟩

/-- Every file on a trail has been opened, from the stack that the trail gives. -/
theorem Trail.opened {c : Collection} (loads : l.load t resource kind = .ok c)
    (trail : Trail l t resource kind front x) :
    (chainOf front x).Nodup ∧ ∃ text c' stack, textOf t x.file = .ok text ∧
      Runs l t (chainOf front x)
        (.definitions (folderOf x.file) (Collection.empty.addFile x.file) (x.definitions text))
          (.ok c') stack := by
  induction trail with
  | root resolved =>
    have run := runs_load_iff.mpr ⟨loads.symm, rfl⟩
    obtain ⟨_, text, stack, read, inside⟩ := run.resource_ok resolved
    exact ⟨List.nodup_singleton _, text, c, stack, read, inside⟩
  | onward _ imports ih =>
    obtain ⟨distinct, text, c', stack, read, inside⟩ := ih
    obtain ⟨_, _, _, there, resolved⟩ := imports_iff.mp imports
    rw [Target.found_of_textOf read] at there
    obtain ⟨d, import_run⟩ := inside.reference_ok there
    obtain ⟨fresh, text', stack', read', inside'⟩ := import_run.resource_ok resolved
    refine ⟨chainOf_nodup_concat distinct fresh, text', d, stack', read', ?_⟩
    rw [chainOf_concat]
    exact inside'

theorem Trail.acyclic (all : ∀ front x, Trail l t resource kind front x → (chainOf front x).Nodup)
    (trail : Trail l t resource kind front x) : ¬ TransGen (l.Imports t) x x := by
  intro cycle
  obtain ⟨more, again⟩ := trail.follow cycle
  have distinct := all _ _ again
  simp [chainOf, List.nodup_append] at distinct

/-- The imports of a load end, keep to their stack, and are reported as circular exactly where they
are. -/
structure FindsCycles (l : Loader) (t : FileTree) (resource : String) (kind : Option String) :
    Prop where
  /-- The load is a run, and there is no other. -/
  terminates : ∀ outcome stack, Runs l t [] (.resource resource kind none) outcome stack ↔
    outcome = l.load t resource kind ∧ stack = []
  restores : ∀ stack task outcome stack', Runs l t stack task outcome stack' → stack' = stack
  distinct : ∀ stack task,
    ReflTransGen (Calls l t) ([], .resource resource kind none) (stack, task) → stack.Nodup
  circular : ∀ chain, l.load t resource kind = .error (.circular chain) →
    Closes l t resource kind chain
  acyclic : ∀ c, l.load t resource kind = .ok c → ∀ front x, Trail l t resource kind front x →
    (chainOf front x).Nodup ∧ ¬ TransGen (l.Imports t) x x
  /-- Where no trail comes back to a file, however many lead to it, nothing is circular. -/
  diamond : (∀ front x, Trail l t resource kind front x → (chainOf front x).Nodup) →
    ∀ chain, l.load t resource kind ≠ .error (.circular chain)

theorem closes_of_load {chain : List Path}
    (failed : l.load t resource kind = .error (.circular chain)) : Closes l t resource kind chain := by
  obtain ⟨here, calls, raises⟩ := (runs_load_iff.mpr ⟨failed.symm, rfl⟩).raised
  exact (Stands.of_calls calls).closes raises

theorem load_finds_cycles (l : Loader) (t : FileTree) (resource : String) (kind : Option String) :
    FindsCycles l t resource kind where
  terminates _ _ := runs_load_iff
  restores _ _ _ _ run := run.stack_eq
  distinct _ _ calls := (Stands.of_calls calls).nodup
  circular _ failed := closes_of_load failed
  acyclic _ loads _ _ trail :=
    have all := fun front x (trail : Trail l t resource kind front x) => (trail.opened loads).1
    ⟨all _ _ trail, trail.acyclic all⟩
  diamond all chain failed := by
    obtain ⟨front, x, trail, rfl, _, again⟩ := closes_of_load failed
    have distinct := all front x trail
    rw [chainOf, List.nodup_append] at distinct
    exact distinct.2.2 _ again _ List.mem_cons_self rfl

def xmlFile (location : List String) (imports : List String) : Location × File :=
  (location.map String.toList,
    ⟨Bytes.ofText ("<r>" ++ String.join (imports.map fun r => "<import resource='" ++ r ++ "'/>") ++
      "</r>"), some ⟨0, 0⟩⟩)

/-- Two files that import each other. -/
def loopedSources : FileTree where
  current := []
  files := [xmlFile ["a.xml"] ["b.xml"], xmlFile ["b.xml"] ["a.xml"]]

example : load {} loopedSources "a.xml" none = .error (.circular [⟨"/a.xml"⟩, ⟨"/b.xml"⟩, ⟨"/a.xml"⟩]) :=
  rfl

/- The same file may be opened by two paths, and its imports are looked for next to either. Branches
that open it differently can together make a circle of files that no trail goes around. -/

/-- An import between canonical paths that a load comes to. -/
def Links (l : Loader) (t : FileTree) (resource : String) (kind : Option String) (p q : Path) : Prop :=
  ∃ front x y, Trail l t resource kind front x ∧ l.Imports t x y ∧ x.canonical = p ∧ y.canonical = q

instance (l : Loader) (t : FileTree) (x y : Target) : Decidable (l.Imports t x y) :=
  inferInstanceAs (Decidable (y ∈ l.importsOf t x))

def folderFirst : Loader := { search := [⟨"s"⟩, ⟨""⟩] }

/-- Two branches that each come by way of the folder to the file of the other. -/
def crossedSources : FileTree where
  current := []
  folders := [["s".toList]]
  files := [xmlFile ["root.xml"] ["a.xml", "b.xml"], xmlFile ["a.xml"] ["x.xml"],
    xmlFile ["b.xml"] ["y.xml"], xmlFile ["s", "x.xml"] ["../b.xml"], xmlFile ["s", "y.xml"] ["../a.xml"],
    xmlFile ["x.xml"] [], xmlFile ["y.xml"] []]

def xmlTarget (file canonical : String) : Target := ⟨⟨file⟩, ⟨canonical⟩, .xml⟩

theorem load_ok_of_canonical_cycle :
    (∃ c, folderFirst.load crossedSources "root.xml" none = .ok c) ∧
      TransGen (Links folderFirst crossedSources "root.xml" none) ⟨"/a.xml"⟩ ⟨"/a.xml"⟩ := by
  have files : (folderFirst.load crossedSources "root.xml" none).toOption.map (·.files.length) =
      some 9 := by decide +kernel
  obtain ⟨c, loads, _⟩ := Outcome.exists_of_toOption files
  have root : Trail folderFirst crossedSources "root.xml" none [] (xmlTarget "root.xml" "/root.xml") :=
    .root (by decide +kernel)
  have a := Trail.onward root (y := xmlTarget "a.xml" "/a.xml") (by decide +kernel)
  have b := Trail.onward root (y := xmlTarget "b.xml" "/b.xml") (by decide +kernel)
  have a_x : folderFirst.Imports crossedSources (xmlTarget "a.xml" "/a.xml")
      (xmlTarget "s/x.xml" "/s/x.xml") := by decide +kernel
  have b_y : folderFirst.Imports crossedSources (xmlTarget "b.xml" "/b.xml")
      (xmlTarget "s/y.xml" "/s/y.xml") := by decide +kernel
  have x_b : folderFirst.Imports crossedSources (xmlTarget "s/x.xml" "/s/x.xml")
      (xmlTarget "s/../b.xml" "/b.xml") := by decide +kernel
  have y_a : folderFirst.Imports crossedSources (xmlTarget "s/y.xml" "/s/y.xml")
      (xmlTarget "s/../a.xml" "/a.xml") := by decide +kernel
  refine ⟨⟨c, loads⟩, ?_⟩
  exact .head ⟨_, _, _, a, a_x, rfl, rfl⟩ <| .head ⟨_, _, _, a.onward a_x, x_b, rfl, rfl⟩ <|
    .head ⟨_, _, _, b, b_y, rfl, rfl⟩ <| .single ⟨_, _, _, b.onward b_y, y_a, rfl, rfl⟩

end RuleRegistry.Source.Loader
