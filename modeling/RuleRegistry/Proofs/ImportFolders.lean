import RuleRegistry.Proofs.ImportCycles
import RuleRegistry.Proofs.NullEdits
import RuleRegistry.Proofs.PathFolders

namespace RuleRegistry

namespace Source.Loader

open Relation

variable {l : Loader} {t : FileTree} {resource name : String} {kind kind' : Option String}
  {folder : Option Path} {front : List Target} {x : Target} {other : Location}

/-- An import is of the file at a place: it is located there, and opened if a format goes with it. -/
def Takes (l : Loader) (t : FileTree) (name : String) (kind : Option String) (folder : Option Path)
    (place : Location) : Prop :=
  ∃ path, l.locate t name folder = .ok path ∧ t.find? path = some place ∧
    l.resolve t name kind folder = match l.format? name kind with
      | some format => .ok ⟨path, place.path, format⟩
      | none => .error (.unsupported name kind)

/-- The first search folder that has a file of a name has the one at a place. -/
def SearchFinds (l : Loader) (t : FileTree) (name : String) (place : Location) : Prop :=
  ∃ path, (l.candidates name none).find? t.isFile = some path ∧ t.find? path = some place

/-- The path of a file has a folder in it, behind which a name makes a path that is not too long. -/
def HasFolderFor (file : Path) (name : String) : Prop :=
  file.components.length ≠ 1 ∧
    ∀ dir, file.parent? = some dir → FileTree.isUsable (dir.join ⟨name⟩) = true

theorem takes_iff : Takes l t name kind folder other ↔
    ∃ path, l.locate t name folder = .ok path ∧ t.find? path = some other := by
  constructor
  · rintro ⟨path, located, leads, _⟩
    exact ⟨path, located, leads⟩
  · rintro ⟨path, located, leads⟩
    refine ⟨path, located, leads, ?_⟩
    rw [resolve, located]
    dsimp only [Except.bind]
    cases l.format? name kind with
    | none => rfl
    | some format => simp [FileTree.canonical?, leads]

theorem Trail.fileName? (trail : Trail l t resource kind front x) :
    ∃ n, x.file.fileName? = some n := by
  obtain ⟨name, kind, folder, resolved⟩ : ∃ name kind folder, l.resolve t name kind folder = .ok x := by
    cases trail with
    | root resolved => exact ⟨_, _, _, resolved⟩
    | onward _ imports =>
      obtain ⟨name, kind, _, _, resolved⟩ := imports_iff.mp imports
      exact ⟨name, kind, _, resolved⟩
  obtain ⟨located, chosen, _⟩ := resolve_ok resolved
  obtain ⟨n, _, named, _⟩ := extension?_of_format? chosen
  exact ⟨n, fileName?_of_locate located named⟩

section

variable (named : name ≠ "") (relative : (Path.mk name).isAbsolute = false)

include relative

theorem candidates_of_folder (dir : Path) :
    l.candidates name (some dir) = dir.join ⟨name⟩ :: l.candidates name none := by
  simp [candidates, relative]

include named

/-- The folder of the importing file is a first candidate, and the name leads from it to the file. -/
theorem takes_beside (trail : Trail l t resource kind front x) (has : HasFolderFor x.file name)
    (beside : t.beside? x.file ⟨name⟩ = some other) :
    Takes l t name kind' (folderOf x.file) other := by
  obtain ⟨n, file_name⟩ := trail.fileName?
  obtain ⟨dir, pieces, within⟩ := Path.within_of_fileName? file_name
  rcases within.folder with ⟨_, single⟩ | ⟨filled, _⟩
  · exact absurd single has.1
  · have folder_eq : folderOf x.file = some dir := by simp [folderOf, within.parent, filled]
    obtain ⟨leads, present⟩ :=
      FileTree.find?_join_of_beside within filled relative (has.2 dir within.parent) beside
    refine takes_iff.mpr ⟨dir.join ⟨name⟩, locate_ok_iff_find?.mpr ⟨named, ?_⟩, leads⟩
    rw [folder_eq, candidates_of_folder relative]
    exact List.find?_cons_of_pos present

/-- Without such a folder an import is looked for in the search folders alone. -/
theorem takes_iff_searchFinds (trail : Trail l t resource kind front x)
    (lacks : ¬ HasFolderFor x.file name) :
    Takes l t name kind' (folderOf x.file) other ↔ SearchFinds l t name other := by
  obtain ⟨n, file_name⟩ := trail.fileName?
  obtain ⟨dir, pieces, within⟩ := Path.within_of_fileName? file_name
  have same : (l.candidates name (folderOf x.file)).find? t.isFile =
      (l.candidates name none).find? t.isFile := by
    rcases within.folder with ⟨empty, _⟩ | ⟨filled, several, _⟩
    · have folder_eq : folderOf x.file = none := by simp [folderOf, within.parent, empty]
      rw [folder_eq]
    · have folder_eq : folderOf x.file = some dir := by simp [folderOf, within.parent, filled]
      have missing : t.isFile (dir.join ⟨name⟩) = false := by
        rw [Bool.eq_false_iff]
        intro present
        refine lacks ⟨several, ?_⟩
        intro dir' parent
        obtain rfl : dir = dir' := Option.some.inj (within.parent.symm.trans parent)
        exact FileTree.isUsable_of_isFile present
      rw [folder_eq, candidates_of_folder relative, List.find?_cons_of_neg (by simp [missing])]
  rw [takes_iff]
  constructor
  · rintro ⟨path, located, leads⟩
    exact ⟨path, same ▸ (locate_ok_iff_find?.mp located).2, leads⟩
  · rintro ⟨path, found, leads⟩
    exact ⟨path, locate_ok_iff_find?.mpr ⟨named, same.trans found⟩, leads⟩

end

/-- Whatever import a load comes to: a file of the name in the folder of the importing file comes
first, if the path of that file has a folder in it. -/
theorem imports_beside_first {stack : List Path}
    (comes : ReflTransGen (Calls l t) ([], .resource resource kind none)
      (stack, .resource name kind' folder))
    (inner : stack ≠ []) (named : name ≠ "") (relative : (Path.mk name).isAbsolute = false) :
    ∃ front x, Trail l t resource kind front x ∧ stack = chainOf front x ∧
      (∃ tags, .reference name kind' tags ∈ x.found t) ∧
      ∀ other, t.beside? x.file ⟨name⟩ = some other →
        (HasFolderFor x.file name → Takes l t name kind' folder other) ∧
        (¬ HasFolderFor x.file name →
          (Takes l t name kind' folder other ↔ SearchFinds l t name other)) := by
  cases Stands.of_calls comes with
  | start => exact absurd rfl inner
  | @reference front x _ _ tags trail _ own =>
    refine ⟨front, x, trail, rfl, ⟨tags, own⟩, ?_⟩
    intro other beside
    constructor
    · intro has
      exact takes_beside named relative trail has beside
    · intro lacks
      exact takes_iff_searchFinds named relative trail lacks

def sharedName : FileTree where
  current := []
  folders := [["lib".toList]]
  files := [
    (["rules.xml".toList], ⟨Bytes.ofText "<r><import resource='common.xml'/></r>", some ⟨0, 0⟩⟩),
    (["common.xml".toList], ⟨Bytes.ofText "<r><rule id='c' expression='1'/></r>", some ⟨0, 0⟩⟩),
    (["lib".toList, "common.xml".toList],
      ⟨Bytes.ofText "<r><rule id='c' expression='2'/></r>", some ⟨0, 0⟩⟩)]

/-- The current folder is searched last, under a given path. -/
def searching (here : String) : Loader := { search := [⟨"lib"⟩, ⟨here⟩] }

theorem calls_common (here file : String) (folder : Option Path)
    (resolved : (searching here).resolve sharedName "rules.xml" none none =
      .ok ⟨⟨file⟩, ⟨"/rules.xml"⟩, .xml⟩)
    (read : textOf sharedName ⟨file⟩ = .ok "<r><import resource='common.xml'/></r>")
    (within : folderOf ⟨file⟩ = folder) :
    ReflTransGen (Calls (searching here) sharedName) ([], .resource "rules.xml" none none)
      ([⟨"/rules.xml"⟩], .resource "common.xml" none folder) := by
  have inside := Calls.inside resolved List.not_mem_nil read
  have stated : Format.xml.read ⟨file⟩ "<r><import resource='common.xml'/></r>" =
      ⟨[.reference "common.xml" none []], none⟩ := rfl
  rw [within, Target.definitions, stated] at inside
  exact (ReflTransGen.single inside).tail .reference

/-- Under a path with a folder the file next to the importing one comes before that of the library. -/
theorem imports_beside_first_dotted :
    ReflTransGen (Calls (searching ".") sharedName) ([], .resource "rules.xml" none none)
      ([⟨"/rules.xml"⟩], .resource "common.xml" none (some ⟨"."⟩)) ∧
    sharedName.beside? ⟨"./rules.xml"⟩ ⟨"common.xml"⟩ = some ["common.xml".toList] ∧
    HasFolderFor ⟨"./rules.xml"⟩ "common.xml" ∧
    Takes (searching ".") sharedName "common.xml" none (some ⟨"."⟩) ["common.xml".toList] := by
  have resolved : (searching ".").resolve sharedName "rules.xml" none none =
      .ok ⟨⟨"./rules.xml"⟩, ⟨"/rules.xml"⟩, .xml⟩ := by decide +kernel
  have beside : sharedName.beside? ⟨"./rules.xml"⟩ ⟨"common.xml"⟩ = some ["common.xml".toList] := by
    decide +kernel
  have parent : (Path.mk "./rules.xml").parent? = some ⟨"."⟩ := by decide +kernel
  have has : HasFolderFor ⟨"./rules.xml"⟩ "common.xml" := by
    refine ⟨by decide +kernel, ?_⟩
    intro dir within
    obtain rfl : ⟨"."⟩ = dir := Option.some.inj (parent.symm.trans within)
    decide +kernel
  have comes := calls_common "." "./rules.xml" (some ⟨"."⟩) resolved (by decide +kernel) (by decide +kernel)
  obtain ⟨front, x, trail, stack, _, first⟩ :=
    imports_beside_first comes (List.cons_ne_nil _ _) (by decide) (by decide +kernel)
  cases trail with
  | root again =>
    rw [resolved, Except.ok.injEq] at again
    subst again
    exact ⟨comes, beside, has, (first _ beside).1 has⟩
  | onward =>
    have longer := congrArg List.length stack
    simp [chainOf] at longer

/-- Under its bare name a file in the current folder imports from the library instead. -/
theorem takes_library_of_bare :
    ReflTransGen (Calls (searching "") sharedName) ([], .resource "rules.xml" none none)
      ([⟨"/rules.xml"⟩], .resource "common.xml" none none) ∧
    .reference "common.xml" none [] ∈ Target.found sharedName ⟨⟨"rules.xml"⟩, ⟨"/rules.xml"⟩, .xml⟩ ∧
    sharedName.beside? ⟨"rules.xml"⟩ ⟨"common.xml"⟩ = some ["common.xml".toList] ∧
    ¬ Takes (searching "") sharedName "common.xml" none none ["common.xml".toList] ∧
    ∃ c, (searching "").load sharedName "rules.xml" none = .ok c ∧
      c.rules.map (fun e => (e.1, e.2.expression)) = [("c", "2")] ∧
      c.resources = [⟨"rules.xml"⟩, ⟨"lib/common.xml"⟩] := by
  have comes := calls_common "" "rules.xml" none (by decide +kernel) (by decide +kernel)
    (by decide +kernel)
  refine ⟨comes, ?_, by decide +kernel, ?_, ?_⟩
  · have stated : Target.found sharedName ⟨⟨"rules.xml"⟩, ⟨"/rules.xml"⟩, .xml⟩ =
        [.reference "common.xml" none []] := rfl
    rw [stated]
    exact List.mem_cons_self
  · rw [takes_iff]
    rintro ⟨path, located, leads⟩
    have library : (searching "").locate sharedName "common.xml" none = .ok ⟨"lib/common.xml"⟩ := by
      decide +kernel
    rw [library, Except.ok.injEq] at located
    subst located
    revert leads
    decide +kernel
  · have loaded : ((searching "").load sharedName "rules.xml" none).toOption.map
        (fun c => (c.rules.map fun e => (e.1, e.2.expression), c.resources)) =
          some ([("c", "2")], [⟨"rules.xml"⟩, ⟨"lib/common.xml"⟩]) := by decide +kernel
    obtain ⟨c, loads, shown⟩ := Outcome.exists_of_toOption loaded
    exact ⟨c, loads, congrArg Prod.fst shown, congrArg Prod.snd shown⟩

end Source.Loader

end RuleRegistry
