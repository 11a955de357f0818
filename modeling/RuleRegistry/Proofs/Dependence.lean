import RuleRegistry.Proofs.Probing

namespace RuleRegistry

namespace FileTree

variable {t t' : FileTree} {here l : Location} {p q : Path}

theorem file?_of_isFile (h : t.isFile p = true) : t.file? p = t.fileAt? (t.place p) := by
  obtain ⟨f, found⟩ := Option.isSome_iff_exists.mp h
  rw [found, (file?_eq_some_iff.mp found).2]

/-- Paths with the same components that are files are the same file. -/
theorem read?_of_same (same : p.same q = true) (hp : t.isFile p = true) (hq : t.isFile q = true) :
    t.read? p = t.read? q := by
  rw [read?, read?, file?_of_isFile hp, file?_of_isFile hq, t.place_of_same same]

theorem fileAt?_isSome_iff : (t.fileAt? l).isSome = true ↔ l ∈ t.files.map Prod.fst := by
  constructor
  · intro there
    obtain ⟨f, found⟩ := Option.isSome_iff_exists.mp there
    exact List.mem_map_of_mem (f := Prod.fst) (mem_files_of_fileAt? found)
  · intro listed
    obtain ⟨e, mem, rfl⟩ := List.mem_map.mp listed
    cases found : t.fileAt? e.1 with
    | some f => rfl
    | none => simpa using List.lookup_eq_none_iff.mp found e mem

/-- The folders are the same, and there are files at the same places. -/
structure SamePlaces (t t' : FileTree) : Prop where
  current : t'.current = t.current
  folders : t'.folders = t.folders
  files : t'.files.map Prod.fst = t.files.map Prod.fst

namespace SamePlaces

theorem walk_eq (h : SamePlaces t t') (here : Location) (pieces : List (List Char)) :
    t'.walk here pieces = t.walk here pieces := by
  have folder := isFolder_congr h.current h.folders
  have file : ∀ x, (t'.fileAt? x).isSome = (t.fileAt? x).isSome := fun x => by
    rw [Bool.eq_iff_iff, fileAt?_isSome_iff, fileAt?_isSome_iff, h.files]
  induction pieces generalizing here with
  | nil => rfl
  | cons piece rest ih => rw [walk_cons, walk_cons, folder, folder, file, ih]

theorem find?_eq (h : SamePlaces t t') (p : Path) : t'.find? p = t.find? p := by
  rw [find?, find?, start_congr h.current, h.walk_eq]

theorem isFile_eq (h : SamePlaces t t') (p : Path) : t'.isFile p = t.isFile p := by
  rw [isFile, isFile, file?, file?, h.find?_eq, Bool.eq_iff_iff]
  cases t.find? p with
  | none => rfl
  | some l => rw [Option.bind_some, Option.bind_some, fileAt?_isSome_iff, fileAt?_isSome_iff, h.files]

theorem canonical?_eq (h : SamePlaces t t') (p : Path) : t'.canonical? p = t.canonical? p := by
  rw [canonical?, canonical?, h.find?_eq]

end SamePlaces

end FileTree

namespace Source.Loader

variable {l : Loader} {t t' : FileTree} {resource : String} {kind : Option String} {c : Collection}

/-- Every file that was opened is the same on a tree where the resources have the same text. -/
theorem alike_of_resources (loads : l.load t resource kind = .ok c)
    (files : ∀ p, t'.isFile p = t.isFile p) (places : ∀ p, t'.canonical? p = t.canonical? p)
    (texts : ∀ p ∈ c.resources, t'.read? p = t.read? p) {p : Path} (opened : p ∈ c.files) :
    Alike t t' p := by
  -- Of the paths that are the same only the first is a resource.
  obtain ⟨q, listed, same⟩ := Collection.mem_distinct opened
  have present := (probes_of_mem_files loads opened).1
  have present' := (probes_of_mem_files loads (Collection.mem_of_mem_distinct listed)).1
  refine ⟨places p, ?_⟩
  calc t'.read? p
    _ = t'.read? q := FileTree.read?_of_same same ((files p).trans present) ((files q).trans present')
    _ = t.read? q := texts q listed
    _ = t.read? p := (FileTree.read?_of_same same present present').symm

/-- A load depends on the texts of the resources of its collection and on no other text. -/
theorem load_of_same_resources (loads : l.load t resource kind = .ok c)
    (files : ∀ p, t'.isFile p = t.isFile p) (places : ∀ p, t'.canonical? p = t.canonical? p)
    (texts : ∀ p ∈ c.resources, t'.read? p = t.read? p) : l.load t' resource kind = .ok c :=
  load_of_alike loads (fun p _ absent => (files p).trans absent)
    fun _ opened => alike_of_resources loads files places texts opened

/-- The sources of two formats beside a file that no import names. -/
def mixedBeside (text : String) : FileTree :=
  { mixedSources with
    files := mixedSources.files ++ [(["notes.yml".toList], ⟨Bytes.ofText text, some ⟨1, 0⟩⟩)] }

theorem samePlaces_mixedBeside (text text' : String) :
    FileTree.SamePlaces (mixedBeside text) (mixedBeside text') := ⟨rfl, rfl, rfl⟩

theorem load_of_same_resources_mixed : ∃ c,
    load {} (mixedBeside "a: \x7bexpression: x\x7d") "main.yml" none = .ok c ∧
      c.resources = [⟨"main.yml"⟩, ⟨"parts.xml"⟩] ∧
      load {} (mixedBeside "no mapping") "main.yml" none = .ok c := by
  have found : ((load {} (mixedBeside "a: \x7bexpression: x\x7d") "main.yml" none).toOption.map
      Collection.resources) = some [⟨"main.yml"⟩, ⟨"parts.xml"⟩] := by decide +kernel
  obtain ⟨c, loads, listed⟩ := Outcome.exists_of_toOption found
  have places := samePlaces_mixedBeside "a: \x7bexpression: x\x7d" "no mapping"
  refine ⟨c, loads, listed, load_of_same_resources loads places.isFile_eq places.canonical?_eq ?_⟩
  rw [listed]
  decide +kernel

end Source.Loader

end RuleRegistry
