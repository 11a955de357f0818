import RuleRegistry.Proofs.Definitions
import RuleRegistry.Proofs.Places

/-!
What a load reads. Its files form a tree of definitions and imports, and a load succeeds exactly when
there is such a tree, whatever the fuel that it counts down: no more files can be on the stack than
there are files.
-/

namespace RuleRegistry.Source

open Outcome

/-- What a file holds with everything that it imports. -/
inductive Contents where
  | nil
  | rule (name : String) (r : Rule) (rest : Contents)
  | imported (tags : TagList) (file : Path) (inside rest : Contents)

namespace Contents

/-- Adds everything to a collection, each import by way of a collection of its own. -/
def collect : Contents → Collection → Collection
  | nil, c => c
  | rule name r rest, c => rest.collect (c.add name r)
  | imported tags file inside rest, c =>
    rest.collect (c.merge ((inside.collect (Collection.empty.addFile file)).addTags tags))

end Contents

namespace Loader

structure Opens (l : Loader) (t : FileTree) (resource : String) (kind : Option String)
    (folder : Option Path) (file canonical : Path) (found : List Definition) : Prop where
  located : l.locate t resource folder = .ok file
  canonical : t.canonical? file = some canonical
  readable : ∃ format text, l.format? resource kind = some format ∧ textOf t file = .ok text ∧
    format.read file text = ⟨found, none⟩

/-- What the definitions of a file stand for, below the files of a stack. -/
inductive Reads (l : Loader) (t : FileTree) :
    List Path → Option Path → List Definition → Contents → Prop
  | nil {stack folder} : Reads l t stack folder [] .nil
  | rule {stack folder name r ds rest} (others : Reads l t stack folder ds rest) :
      Reads l t stack folder (.rule name r :: ds) (.rule name r rest)
  | imported {stack folder resource kind tags file canonical found ds inside rest}
      (opens : l.Opens t resource kind folder file canonical found) (fresh : canonical ∉ stack)
      (within : Reads l t (stack ++ [canonical]) (folderOf file) found inside)
      (others : Reads l t stack folder ds rest) :
      Reads l t stack folder (.reference resource kind tags :: ds) (.imported tags file inside rest)

variable {l : Loader} {t : FileTree}

theorem Opens.unique {resource : String} {kind : Option String} {folder : Option Path}
    {file file' canonical canonical' : Path} {found found' : List Definition}
    (one : l.Opens t resource kind folder file canonical found)
    (other : l.Opens t resource kind folder file' canonical' found') :
    file = file' ∧ canonical = canonical' ∧ found = found' := by
  obtain ⟨located, canonical, format, text, hformat, htext, hread⟩ := one
  obtain ⟨located', canonical', format', text', hformat', htext', hread'⟩ := other
  rw [located, Except.ok.injEq] at located'
  subst located'
  rw [canonical, Option.some.injEq] at canonical'
  rw [hformat, Option.some.injEq] at hformat'
  subst hformat'
  rw [htext, Except.ok.injEq] at htext'
  subst htext'
  rw [hread, Definitions.mk.injEq] at hread'
  exact ⟨rfl, canonical', hread'.1⟩

theorem Reads.unique {stack stack' : List Path} {folder : Option Path} {ds : List Definition}
    {contents contents' : Contents} (one : Reads l t stack folder ds contents)
    (other : Reads l t stack' folder ds contents') : contents = contents' := by
  induction one generalizing stack' contents' with
  | nil =>
    cases other
    rfl
  | rule _ ih =>
    cases other with
    | rule others => rw [ih others]
  | imported opens _ _ _ within_ih others_ih =>
    cases other with
    | imported opens' _ within' others' =>
      obtain ⟨rfl, rfl, rfl⟩ := opens.unique opens'
      rw [within_ih within', others_ih others']

theorem addDefinitions_ok {load : String → Option String → Except Error Collection}
    {c c' : Collection} {ds : Definitions} :
    addDefinitions load c ds = .ok c' ↔
      ds.found.foldlM (addDefinition load) c = .ok c' ∧ ds.error = none := by
  unfold addDefinitions
  rw [bind_ok_iff]
  cases ds.error <;> simp

/-- What one open file of a load is for the rest of the proof: a tree below the stack. -/
def Loaded (l : Loader) (t : FileTree) (stack : List Path) (resource : String)
    (kind : Option String) (folder : Option Path) (c : Collection) : Prop :=
  ∃ file canonical found contents, l.Opens t resource kind folder file canonical found ∧
    canonical ∉ stack ∧ Reads l t (stack ++ [canonical]) (folderOf file) found contents ∧
    c = contents.collect (Collection.empty.addFile file)

theorem reads_of_foldlM {load : String → Option String → Except Error Collection}
    {stack : List Path} {folder : Option Path}
    (hload : ∀ resource kind c, load resource kind = .ok c → Loaded l t stack resource kind folder c)
    (ds : List Definition) {c c' : Collection} (h : ds.foldlM (addDefinition load) c = .ok c') :
    ∃ contents, Reads l t stack folder ds contents ∧ c' = contents.collect c := by
  induction ds generalizing c with
  | nil =>
    cases h
    exact ⟨.nil, .nil, rfl⟩
  | cons d rest ih =>
    rw [List.foldlM_cons, do_ok_iff] at h
    obtain ⟨mid, hd, hrest⟩ := h
    obtain ⟨others, reads, rfl⟩ := ih hrest
    cases d with
    | rule name r =>
      cases hd
      exact ⟨.rule name r others, .rule reads, rfl⟩
    | reference resource kind tags =>
      obtain ⟨imported, hload', rfl⟩ := map_ok_iff.mp hd
      obtain ⟨file, canonical, found, inside, opens, fresh, within, rfl⟩ := hload _ _ _ hload'
      exact ⟨.imported tags file inside others, .imported opens fresh within reads, rfl⟩

theorem loadBelow_ok {fuel : Nat} {stack : List Path} {resource : String} {kind : Option String}
    {folder : Option Path} {c : Collection}
    (h : l.loadBelow t fuel stack resource kind folder = .ok c) :
    Loaded l t stack resource kind folder c := by
  -- The fuel only carries the induction: a load that succeeds has had enough of it.
  induction fuel generalizing stack resource kind folder c with
  | zero => cases h
  | succ fuel ih =>
    rw [loadBelow, do_ok_iff] at h
    obtain ⟨file, located, h⟩ := h
    cases hformat : l.format? resource kind with
    | none => simp [hformat] at h
    | some format =>
      cases hcanonical : t.canonical? file with
      | none => simp [hformat, hcanonical] at h
      | some canonical =>
        simp only [hformat, hcanonical] at h
        split at h
        · cases h
        · rename_i fresh
          obtain ⟨text, htext, h⟩ := do_ok_iff.mp h
          rw [addDefinitions_ok] at h
          obtain ⟨folded, ended⟩ := h
          obtain ⟨contents, reads, rfl⟩ := reads_of_foldlM (fun _ _ _ => ih) _ folded
          refine ⟨file, canonical, _, contents, ⟨located, hcanonical, format, text, hformat, htext, ?_⟩,
            fresh, reads, rfl⟩
          rw [← ended]

structure Stacked (t : FileTree) (stack : List Path) : Prop where
  nodup : stack.Nodup
  files : ∀ p ∈ stack, p ∈ t.files.map fun e => Location.path e.1

theorem Stacked.length_le {stack : List Path} (h : Stacked t stack) :
    stack.length ≤ t.files.length := by
  have bound := h.nodup.length_le_of_subset h.files
  rwa [List.length_map] at bound

theorem isFile_of_locate {name : String} {folder : Option Path} {file : Path}
    (h : l.locate t name folder = .ok file) : t.isFile file = true := by
  unfold locate at h
  split at h
  · cases h
  · dsimp only at h
    split at h
    · rename_i found hfound
      cases h
      exact List.find?_some hfound
    · cases h

theorem listed_of_locate {name : String} {folder : Option Path} {file canonical : Path}
    (located : l.locate t name folder = .ok file) (named : t.canonical? file = some canonical) :
    canonical ∈ t.files.map fun e => Location.path e.1 := by
  have present := isFile_of_locate located
  simp only [FileTree.isFile, FileTree.file?, Option.isSome_iff_exists, Option.bind_eq_some_iff] at present
  obtain ⟨f, place, found, hf⟩ := present
  simp only [FileTree.canonical?, found, Option.map_some, Option.some.injEq] at named
  subst named
  exact List.mem_map.mpr ⟨(place, f), FileTree.mem_files_of_fileAt? hf, rfl⟩

theorem Stacked.push {stack : List Path} (h : Stacked t stack) {canonical : Path}
    (listed : canonical ∈ t.files.map fun e => Location.path e.1) (fresh : canonical ∉ stack) :
    Stacked t (stack ++ [canonical]) := by
  refine ⟨?_, fun p hp => ?_⟩
  · rw [List.nodup_append]
    refine ⟨h.nodup, by simp, fun a ha b hb eq => ?_⟩
    rw [List.mem_singleton.mp hb] at eq
    exact fresh (eq ▸ ha)
  · rcases List.mem_append.mp hp with hp | hp
    · exact h.files p hp
    · rw [List.mem_singleton.mp hp]
      exact listed

theorem loadBelow_of_opens {fuel : Nat} {stack : List Path} {resource : String}
    {kind : Option String} {folder : Option Path} {file canonical : Path} {found : List Definition}
    {c : Collection} (opens : l.Opens t resource kind folder file canonical found)
    (fresh : canonical ∉ stack)
    (h : found.foldlM (addDefinition fun resource kind =>
      l.loadBelow t fuel (stack ++ [canonical]) resource kind (folderOf file))
        (Collection.empty.addFile file) = .ok c) :
    l.loadBelow t (fuel + 1) stack resource kind folder = .ok c := by
  obtain ⟨located, named, format, text, hformat, htext, hread⟩ := opens
  rw [loadBelow]
  refine do_ok_iff.mpr ⟨file, located, ?_⟩
  simp only [hformat, named]
  rw [if_neg fresh]
  refine do_ok_iff.mpr ⟨text, htext, ?_⟩
  rw [hread]
  exact addDefinitions_ok.mpr ⟨h, rfl⟩

theorem foldlM_of_reads {stack : List Path} {folder : Option Path} {ds : List Definition}
    {contents : Contents} (h : Reads l t stack folder ds contents) (stacked : Stacked t stack)
    {fuel : Nat} (enough : t.files.length + 1 ≤ fuel + stack.length) (c : Collection) :
    ds.foldlM (addDefinition fun resource kind => l.loadBelow t fuel stack resource kind folder) c =
      .ok (contents.collect c) := by
  induction h generalizing fuel c with
  | nil => rfl
  | rule _ ih =>
    rw [List.foldlM_cons]
    exact ih stacked enough _
  | @imported stack _ _ _ tags file canonical found _ _ _ opens fresh _ _ within_ih others_ih =>
    have pushed := stacked.push (listed_of_locate opens.located opens.canonical) fresh
    -- The files of a stack are distinct files of the tree, so some fuel is left for this one.
    have room := pushed.length_le
    simp only [List.length_append, List.length_singleton] at room
    obtain ⟨fuel, rfl⟩ : ∃ less, fuel = less + 1 := ⟨fuel - 1, by omega⟩
    have below : t.files.length + 1 ≤ fuel + (stack ++ [canonical]).length := by
      rw [List.length_append, List.length_singleton]
      omega
    have loaded := loadBelow_of_opens opens fresh (within_ih pushed below _)
    rw [List.foldlM_cons, addDefinition, loaded]
    exact others_ih stacked enough _

/-- A load gives a collection exactly when there is a tree that it reads. -/
theorem load_ok_iff {resource : String} {kind : Option String} {c : Collection} :
    l.load t resource kind = .ok c ↔ Loaded l t [] resource kind none c := by
  constructor
  · exact loadBelow_ok
  · rintro ⟨file, canonical, found, contents, opens, fresh, reads, rfl⟩
    have pushed := Stacked.push ⟨List.nodup_nil, by simp⟩
      (listed_of_locate opens.located opens.canonical) fresh
    exact loadBelow_of_opens opens fresh (foldlM_of_reads reads pushed (by simp) _)

end Loader

end RuleRegistry.Source
