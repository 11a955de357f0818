import RuleRegistry.Proofs.Flattening
import RuleRegistry.Proofs.Importing
import RuleRegistry.Proofs.XmlElements
import RuleRegistry.Proofs.XmlPrefix

namespace RuleRegistry.Source.XmlRules

open Xml

/-- How many elements are open after some events, up to a fault; none once the root is closed. -/
def openAfter : Nat → List Xml.Event → Option Nat
  | n, [] => some n
  | n, .element _ empty :: es => openAfter (if empty then n else n + 1) es
  | n, .closing :: es => if n ≤ 1 then none else openAfter (n - 1) es
  | n, .fault :: _ => some n

def Place.opened : Place → Nat
  | between => 1
  | within _ depth => depth + 2

variable {path : Path}

theorem readBody_ending (path : Path) (place : Place) {ending : List Xml.Event}
    (last : ending = [] ∨ ending = [.fault]) :
    (readBody path place ending).found = [] ∧
      ((readBody path place ending).error = none ↔ ending = [] ∧ place.opened ≤ 2) := by
  rcases last with rfl | rfl
  · match place with
    | .between => simp [readBody, Place.opened]
    | .within p 0 => simp [readBody, Place.opened]
    | .within p (depth + 1) => simp [readBody, Place.opened, Definitions.failed]
  · simp [readBody, Definitions.failed]

/-- What is read of the front of a body that has no fault, `ending` being what its text ends with. -/
theorem readBody_cut {place : Place} {es ending more : List Xml.Event} {ds : List Definition} {n : Nat}
    (whole : readBody path place (es ++ more) = ⟨ds, none⟩)
    (count : openAfter place.opened es = some n) (last : ending = [] ∨ ending = [.fault]) :
    .fault ∉ es ∧ (readBody path place (es ++ ending)).found <+: ds ∧
      ((readBody path place (es ++ ending)).error = none ↔ ending = [] ∧ n ≤ 2) := by
  fun_induction readBody path place es generalizing ds with
  | case1 | case2 | case3 =>
    cases count
    obtain ⟨found, error⟩ := readBody_ending path _ last
    rw [List.nil_append, found]
    exact ⟨List.not_mem_nil, List.nil_prefix, error⟩
  | case4 => simp [readBody, Definitions.failed] at whole
  | case5 => cases count
  | case6 p rest e failed => simp [readBody, failed, Definitions.failed] at whole
  | case7 p rest d finished others =>
    rename_i ih
    simp only [List.cons_append, readBody, finished, Definitions.mk.injEq] at whole ⊢
    obtain ⟨rfl, clean⟩ := whole
    obtain ⟨sound, found, error⟩ := ih (by rw [← clean]) count
    exact ⟨by simp [sound], List.cons_prefix_cons.mpr ⟨rfl, found⟩, error⟩
  | case8 p depth rest ih =>
    simp only [List.cons_append, readBody] at whole ⊢
    obtain ⟨sound, read⟩ := ih whole count
    exact ⟨by simp [sound], read⟩
  | case9 t empty rest e failed => simp [readBody, failed, Definitions.failed] at whole
  | case10 t rest p opened e failed => simp [readBody, opened, failed, Definitions.failed] at whole
  | case11 t rest p opened d finished others =>
    rename_i ih
    simp only [List.cons_append, readBody, opened, finished, if_true, Definitions.mk.injEq] at whole ⊢
    obtain ⟨rfl, clean⟩ := whole
    obtain ⟨sound, found, error⟩ := ih (by rw [← clean]) count
    exact ⟨by simp [sound], List.cons_prefix_cons.mpr ⟨rfl, found⟩, error⟩
  | case12 t empty rest p opened full ih =>
    rw [openAfter, if_neg full] at count
    simp only [List.cons_append, readBody, opened, if_neg full] at whole ⊢
    obtain ⟨sound, read⟩ := ih whole count
    exact ⟨by simp [sound], read⟩
  | case13 p t empty rest e failed => simp [readBody, failed, Definitions.failed] at whole
  | case14 p t empty rest q added ih =>
    simp only [List.cons_append, readBody, added] at whole ⊢
    obtain ⟨sound, read⟩ := ih whole (by cases empty <;> exact count)
    exact ⟨by simp [sound], read⟩
  | case15 p depth t empty rest ih =>
    simp only [List.cons_append, readBody] at whole ⊢
    obtain ⟨sound, read⟩ := ih whole (by cases empty <;> exact count)
    exact ⟨by simp [sound], read⟩

theorem openAfter_ending {m : Nat} {es ending : List Xml.Event} (last : ending = [] ∨ ending = [.fault]) :
    openAfter m (es ++ ending) = openAfter m es := by
  rcases last with rfl | rfl
  · rw [List.append_nil]
  · fun_induction openAfter m es with
    | case1 => rfl
    | case2 m t empty es ih => exact ih
    | case3 m es low => rw [List.cons_append, openAfter, if_pos low]
    | case4 m es high ih =>
      rw [List.cons_append, openAfter, if_neg high]
      exact ih
    | case5 => rfl

theorem openAfter_pos {m n : Nat} {es : List Xml.Event} (inside : 1 ≤ m) (count : openAfter m es = some n) :
    1 ≤ n := by
  fun_induction openAfter m es with
  | case1 m | case5 m =>
    cases count
    exact inside
  | case2 m t empty es ih => exact ih (by split <;> omega) count
  | case3 => cases count
  | case4 m es high ih => exact ih (by omega) count

/-- Of the front of a file that can be read, the definitions are the first ones of the file. It is
refused unless the root, or it and one element, are open where it ends, and no markup is. -/
theorem read_cut {front back : String} {root : Tag} {body : List Xml.Event} {ds : List Definition} {n : Nat}
    (parted : events (front ++ back) = .element root false :: body)
    (whole : read path (front ++ back) = ⟨ds, none⟩) (count : openAfter 0 (events front) = some n) :
    (read path front).found <+: ds ∧
      ((read path front).error = none ↔ .fault ∉ events front ∧ (n = 1 ∨ n = 2)) := by
  obtain ⟨es, ending, more, begins, all, last⟩ := events_begins front back
  rw [begins, openAfter_ending last] at count
  cases es with
  | nil =>
    cases count
    rcases last with rfl | rfl <;> simp [read, begins, Definitions.failed]
  | cons e es =>
    rw [parted, List.cons_append, List.cons.injEq] at all
    obtain ⟨rfl, rfl⟩ := all
    have pos := openAfter_pos (Nat.le_refl 1) count
    have body_read : readBody path .between (es ++ more) = ⟨ds, none⟩ := by
      rw [← whole, read, parted]
    obtain ⟨sound, found, error⟩ := readBody_cut body_read count last
    have front_read : read path front = readBody path .between (es ++ ending) := by
      rw [read, begins]
      rfl
    rw [front_read, begins]
    refine ⟨found, error.trans ?_⟩
    rcases last with rfl | rfl
    · have clean : .fault ∉ .element root false :: es ++ [] := by simpa using sound
      constructor
      · exact fun h => ⟨clean, by omega⟩
      · exact fun h => ⟨rfl, by omega⟩
    · simp

variable {load : String → Option String → Except Error Collection} {c : Collection}

/-- The collection that an open file gives, where `load` takes care of its imports. -/
def collect (load : String → Option String → Except Error Collection) (path : Path) (text : String) :
    Except Error Collection :=
  Loader.addDefinitions load (Collection.empty.addFile path) (read path text)

/-- A load makes this of every XML file that it opens. -/
theorem loadBelow_eq_collect {l : Loader} {t : FileTree} {stack : List Path} {resource : String}
    {kind : Option String} {folder : Option Path} {x : Loader.Target} {text : String}
    (resolved : l.resolve t resource kind folder = .ok x) (xml : x.format = .xml)
    (fresh : x.canonical ∉ stack) (opened : Loader.textOf t x.file = .ok text) (fuel : Nat) :
    l.loadBelow t (fuel + 1) stack resource kind folder =
      collect (fun resource kind =>
        l.loadBelow t fuel (stack ++ [x.canonical]) resource kind (Loader.folderOf x.file))
        x.file text := by
  rw [Loader.loadBelow_succ, resolved]
  simp only [Except.bind, if_neg fresh, opened]
  rw [Loader.Target.definitions, xml]
  rfl

theorem collect_ok_iff {text : String} :
    collect load path text = .ok c ↔ ∃ ds, read path text = ⟨ds, none⟩ ∧
      ds.foldlM (Loader.addDefinition load) (Collection.empty.addFile path) = .ok c := by
  rw [collect, Loader.addDefinitions_ok]
  constructor
  · rintro ⟨folded, ended⟩
    exact ⟨_, by rw [← ended], folded⟩
  · rintro ⟨ds, reads, folded⟩
    rw [reads]
    exact ⟨folded, rfl⟩

/-- A definition brings a rule of the name. -/
def Gives (load : String → Option String → Except Error Collection) (name : String) :
    Definition → Prop
  | .rule other _ => other = name
  | .reference resource kind _ => ∃ imported, load resource kind = .ok imported ∧ name ∈ imported.names

theorem get?_addDefinition {d : Definition} {c c' : Collection} {name : String}
    (added : Loader.addDefinition load c d = .ok c') (other : ¬ Gives load name d) :
    c'.get? name = c.get? name := by
  cases d with
  | rule key r =>
    cases added
    exact Collection.get?_add_of_ne other c r
  | reference resource kind tags =>
    obtain ⟨imported, loaded, rfl⟩ := Outcome.map_ok_iff.mp added
    refine Collection.get?_merge ?_ c
    rw [Collection.names_addTags]
    exact fun there => other ⟨imported, loaded, there⟩

theorem get?_foldlM {ds : List Definition} {c c' : Collection} {name : String}
    (folded : ds.foldlM (Loader.addDefinition load) c = .ok c')
    (others : ∀ d ∈ ds, ¬ Gives load name d) : c'.get? name = c.get? name := by
  induction ds generalizing c with
  | nil =>
    cases folded
    rfl
  | cons d ds ih =>
    rw [List.foldlM_cons, Outcome.do_ok_iff] at folded
    obtain ⟨mid, added, folded⟩ := folded
    rw [ih folded fun e he => others e (List.mem_cons_of_mem _ he)]
    exact get?_addDefinition added (others d List.mem_cons_self)

/-- A rule stays unless a later definition brings one of its name. -/
theorem rule_stays {name : String} {r : Rule} {before after : List Definition} {start c : Collection}
    (folded : (before ++ .rule name r :: after).foldlM (Loader.addDefinition load) start = .ok c) :
    c.get? name = some r ∨ ∃ d ∈ after, Gives load name d := by
  by_cases later : ∃ d ∈ after, Gives load name d
  · exact .inr later
  · left
    rw [List.foldlM_append, Outcome.do_ok_iff] at folded
    obtain ⟨mid, _, folded⟩ := folded
    rw [List.foldlM_cons, Outcome.do_ok_iff] at folded
    obtain ⟨_, added, folded⟩ := folded
    cases added
    rw [get?_foldlM folded fun d hd gives => later ⟨d, hd, gives⟩, Collection.get?_add]

/-- What a file that gives a collection is made of, and what is made of its fronts. -/
structure Accounts (load : String → Option String → Except Error Collection) (path : Path)
    (text : String) (c : Collection) : Prop where
  /-- All elements are closed, but perhaps the root and the last one in it. -/
  elements : (∃ root rest, events text = .element root true :: rest ∧ (read path text).found = []) ∨
    ∃ (root : Tag) (items : List Item) (tail : List Xml.Event),
      events text = .element root false :: (items.flatMap Item.events ++ tail) ∧
        items.mapM (Item.read path) = .ok (read path text).found ∧ Ends path tail
  folded : (read path text).found.foldlM (Loader.addDefinition load) (Collection.empty.addFile path) =
    .ok c
  /-- The rule of a closed element is there or replaced. -/
  rules : ∀ before name r after, (read path text).found = before ++ .rule name r :: after →
    c.get? name = some r ∨ ∃ d ∈ after, Gives load name d
  /-- A front that does not close the root is refused, or gives the first definitions only. -/
  fronts : ∀ front back root body n, text = front ++ back → events text = .element root false :: body →
    openAfter 0 (events front) = some n →
      ((∃ c', collect load path front = .ok c') ↔ .fault ∉ events front ∧ (n = 1 ∨ n = 2)) ∧
        ∀ c', collect load path front = .ok c' → ∃ first others,
          (read path text).found = first ++ others ∧
            first.foldlM (Loader.addDefinition load) (Collection.empty.addFile path) = .ok c'

theorem collect_front {front back : String} {root : Tag} {body : List Xml.Event} {n : Nat}
    (parted : events (front ++ back) = .element root false :: body)
    (whole : collect load path (front ++ back) = .ok c) (count : openAfter 0 (events front) = some n) :
    ((∃ c', collect load path front = .ok c') ↔ .fault ∉ events front ∧ (n = 1 ∨ n = 2)) ∧
      ∀ c', collect load path front = .ok c' → ∃ first others,
        (read path (front ++ back)).found = first ++ others ∧
          first.foldlM (Loader.addDefinition load) (Collection.empty.addFile path) = .ok c' := by
  obtain ⟨ds, reads, folded⟩ := collect_ok_iff.mp whole
  obtain ⟨⟨others, rfl⟩, error⟩ := read_cut parted reads count
  rw [List.foldlM_append, Outcome.do_ok_iff] at folded
  obtain ⟨short, folded, _⟩ := folded
  constructor
  · rw [← error]
    constructor
    · rintro ⟨c', given⟩
      obtain ⟨ds, reads', _⟩ := collect_ok_iff.mp given
      rw [reads']
    · intro clean
      exact ⟨short, collect_ok_iff.mpr ⟨_, by rw [← clean], folded⟩⟩
  · intro c' given
    obtain ⟨ds, reads', folded'⟩ := collect_ok_iff.mp given
    exact ⟨ds, others, by rw [reads, reads'], folded'⟩

theorem accounts_of_collect {text : String} (given : collect load path text = .ok c) :
    Accounts load path text c := by
  obtain ⟨ds, reads, folded⟩ := collect_ok_iff.mp given
  refine ⟨?_, by rwa [reads], fun before name r after parts => ?_, ?_⟩
  · rw [reads]
    exact read_ok_iff.mp reads
  · rw [reads] at parts
    subst parts
    exact rule_stays folded
  · rintro front back root body n rfl parted count
    exact collect_front parted given count

theorem accounts_of_loadBelow {l : Loader} {t : FileTree} {fuel : Nat} {stack : List Path}
    {resource : String} {kind : Option String} {folder : Option Path} {x : Loader.Target}
    (resolved : l.resolve t resource kind folder = .ok x) (xml : x.format = .xml)
    (loaded : l.loadBelow t (fuel + 1) stack resource kind folder = .ok c) :
    ∃ text, Loader.textOf t x.file = .ok text ∧
      Accounts (fun resource kind =>
        l.loadBelow t fuel (stack ++ [x.canonical]) resource kind (Loader.folderOf x.file))
        x.file text c := by
  have opens := loaded
  rw [Loader.loadBelow_succ, resolved] at opens
  by_cases again : x.canonical ∈ stack
  · simp only [Except.bind, if_pos again] at opens
    cases opens
  · simp only [Except.bind, if_neg again] at opens
    obtain ⟨text, opened, _⟩ := Outcome.bind_ok_iff.mp opens
    rw [loadBelow_eq_collect resolved xml again opened] at loaded
    exact ⟨text, opened, accounts_of_collect loaded⟩

/-- A collection is accounted for by the file that it was read from, whatever loads the imports of the
file; and so is one that a loader gives for an XML file. -/
theorem collect_accounts (load : String → Option String → Except Error Collection) (path : Path)
    (text : String) (l : Loader) (t : FileTree) (c : Collection) :
    (collect load path text = .ok c → Accounts load path text c) ∧
    ∀ fuel stack resource kind folder x, l.resolve t resource kind folder = .ok x →
      x.format = .xml → l.loadBelow t (fuel + 1) stack resource kind folder = .ok c →
        ∃ text, Loader.textOf t x.file = .ok text ∧
          Accounts (fun resource kind =>
            l.loadBelow t fuel (stack ++ [x.canonical]) resource kind (Loader.folderOf x.file))
            x.file text c := by
  refine ⟨accounts_of_collect, ?_⟩
  intro fuel stack resource kind folder x resolved xml loaded
  exact accounts_of_loadBelow resolved xml loaded

/-- Loads no imports. -/
def alone (resource : String) (kind : Option String) : Except Error Collection :=
  .error (.unsupported resource kind)

/-- A file that ends before the end tags of its second rule and of its root. -/
def cutRules : String := "<r><rule id='a' expression='1'/><rule id='b' expression='2'>"

def closedRules : String := cutRules ++ "</rule></r>"

def closedTree : FileTree where
  current := []
  files := [(["rules.xml".toList], ⟨Bytes.ofText closedRules, none⟩)]

theorem collect_accounts_closed :
    (∃ c, collect alone ⟨"rules.xml"⟩ closedRules = .ok c ∧ c.names = ["a", "b"] ∧
      Accounts alone ⟨"rules.xml"⟩ closedRules c) ∧
    ∃ c, Loader.load {} closedTree "rules.xml" none = .ok c ∧ c.names = ["a", "b"] ∧
      Accounts (fun resource kind =>
        Loader.loadBelow {} closedTree 1 [⟨"/rules.xml"⟩] resource kind none)
        ⟨"rules.xml"⟩ closedRules c := by
  constructor
  · have names : (collect alone ⟨"rules.xml"⟩ closedRules).toOption.map Collection.names =
        some ["a", "b"] := by decide +kernel
    obtain ⟨c, given, names⟩ := Outcome.exists_of_toOption names
    exact ⟨c, given, names, (collect_accounts _ _ _ {} closedTree c).1 given⟩
  · have names : (Loader.load {} closedTree "rules.xml" none).toOption.map Collection.names =
        some ["a", "b"] := by decide +kernel
    obtain ⟨c, loaded, names⟩ := Outcome.exists_of_toOption names
    have resolved : Loader.resolve {} closedTree "rules.xml" none none =
        .ok ⟨⟨"rules.xml"⟩, ⟨"/rules.xml"⟩, .xml⟩ := Outcome.ok_of_toOption (by decide +kernel)
    have content : Loader.textOf closedTree ⟨"rules.xml"⟩ = .ok closedRules :=
      Outcome.ok_of_toOption (by decide +kernel)
    obtain ⟨text, opened, accounts⟩ :=
      (collect_accounts alone ⟨"rules.xml"⟩ closedRules {} closedTree c).2 _ _ _ _ _ _ resolved rfl
        loaded
    obtain rfl := Except.ok.inj (opened.symm.trans content)
    exact ⟨c, loaded, names, accounts⟩

theorem collect_of_open_elements :
    openAfter 0 (events cutRules) = some 2 ∧
      (∃ c, collect alone ⟨"rules.xml"⟩ cutRules = .ok c ∧ c.names = ["a"]) ∧
        ∃ c, collect alone ⟨"rules.xml"⟩ closedRules = .ok c ∧ c.names = ["a", "b"] := by
  refine ⟨by decide +kernel, ?_, ?_⟩
  · exact Outcome.exists_of_toOption (by decide +kernel)
  · exact Outcome.exists_of_toOption (by decide +kernel)

end RuleRegistry.Source.XmlRules
