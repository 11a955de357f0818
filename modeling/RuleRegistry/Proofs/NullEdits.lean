import RuleRegistry.Proofs.Dependence
import RuleRegistry.Proofs.Importing
import RuleRegistry.Proofs.NullKeys
import RuleRegistry.Proofs.PathFolders

namespace RuleRegistry

open Outcome

namespace Source

open Yaml YamlRules

/-- By its name a file at this place is read as YAML. -/
def isYaml (place : Location) : Bool :=
  ((place.getLast?.bind Path.extensionOf?).map Format.yaml.extensions.contains).getD false

/-- Two files at one place: the contents are the same, or both are YAML and differ in null keys of
definitions that are related in a given way. -/
structure FileApart (P : Fields → Fields → Prop) (e e' : Location × File) : Prop where
  place : e'.1 = e.1
  content : e'.2.content = e.2.content ∨ isYaml e.1 = true ∧
    ∃ text text', Bytes.text? e.2.content = some text ∧ Bytes.text? e'.2.content = some text' ∧
      TextApart P text text'

/-- Trees of the same files, whose YAML files may differ in null keys. -/
structure NullsApart (P : Fields → Fields → Prop) (t t' : FileTree) : Prop where
  current : t'.current = t.current
  folders : t'.folders = t.folders
  files : List.Forall₂ (FileApart P) t.files t'.files

def CleanFile (f : File) : Prop := ∀ text, Bytes.text? f.content = some text → CleanText text

variable {P : Fields → Fields → Prop} {t t' : FileTree}

theorem places_apart {fs fs' : List (Location × File)} (apart : List.Forall₂ (FileApart P) fs fs') :
    fs'.map Prod.fst = fs.map Prod.fst := by
  induction apart with
  | nil => rfl
  | cons first _ ih => rw [List.map_cons, List.map_cons, first.place, ih]

theorem fileAt?_apart {fs fs' : List (Location × File)} (apart : List.Forall₂ (FileApart P) fs fs')
    {place : Location} {f : File} (found : fs.lookup place = some f) :
    ∃ f', fs'.lookup place = some f' ∧ FileApart P (place, f) (place, f') := by
  induction apart with
  | nil => cases found
  | @cons e e' rest rest' first _ ih =>
    obtain ⟨here, g⟩ := e
    obtain ⟨here', g'⟩ := e'
    obtain rfl : here' = here := first.place
    rw [List.lookup_cons] at found ⊢
    split at found
    · rename_i same
      cases found
      rw [eq_of_beq same]
      exact ⟨g', rfl, first⟩
    · exact ih found

namespace NullsApart

theorem samePlaces (h : NullsApart P t t') : FileTree.SamePlaces t t' :=
  ⟨h.current, h.folders, places_apart h.files⟩

theorem file? (h : NullsApart P t t') {p : Path} {f : File} (found : t.file? p = some f) :
    ∃ f', t'.file? p = some f' ∧ FileApart P (t.place p, f) (t.place p, f') := by
  obtain ⟨leads, there⟩ := FileTree.file?_eq_some_iff.mp found
  obtain ⟨f', there', apart⟩ := fileAt?_apart h.files there
  refine ⟨f', ?_, apart⟩
  rw [FileTree.file?, h.samePlaces.find?_eq, leads]
  exact there'

end NullsApart

namespace Loader

variable {l : Loader} {resource : String} {kind : Option String} {folder : Option Path}
  {file canonical p : Path} {found : List Definition} {format : Format} {c : Collection}

/-- A file has the name of its resource at its end. -/
theorem fileName?_of_locate {s : List Char} (located : l.locate t resource folder = .ok file)
    (named : (Path.mk resource).fileName? = some s) : file.fileName? = some s := by
  obtain ⟨_, _, before, after, order, _⟩ := locate_ok_iff.mp located
  have tried : file ∈ l.candidates resource folder := by
    rw [order]
    exact List.mem_append_right _ List.mem_cons_self
  unfold candidates at tried
  split at tried
  · rw [List.mem_singleton.mp tried]
    exact named
  · obtain ⟨dir, _, rfl⟩ := List.mem_map.mp tried
    exact Path.fileName?_join dir named

theorem extension?_of_format? (chosen : l.format? resource kind = some format) :
    ∃ s ext, (Path.mk resource).fileName? = some s ∧ Path.extensionOf? s = some ext ∧
      ext ∈ format.extensions := by
  have supported := List.find?_some chosen
  rw [Format.supports, Bool.and_eq_true, Path.extension?_eq] at supported
  obtain ⟨extension, _⟩ := supported
  cases named : (Path.mk resource).fileName? with
  | none =>
    rw [named] at extension
    cases extension
  | some s =>
    cases ends : Path.extensionOf? s with
    | none =>
      rw [named, Option.bind_some, ends] at extension
      cases extension
    | some ext =>
      rw [named, Option.bind_some, ends] at extension
      exact ⟨s, ext, rfl, ends, by simpa using extension⟩

theorem format_of_isYaml (located : l.locate t resource folder = .ok file)
    (chosen : l.format? resource kind = some format) (yaml : isYaml (t.place file) = true) :
    format = .yaml := by
  obtain ⟨s, ext, named, ends, mem⟩ := extension?_of_format? chosen
  have last := FileTree.getLast?_place (fileName?_of_locate located named) t
  have known : ext ∈ Format.yaml.extensions := by
    rw [isYaml, last, Option.bind_some, ends] at yaml
    simpa using yaml
  cases format with
  | yaml => rfl
  | xml =>
    rw [List.mem_singleton.mp mem] at known
    exact absurd known (by decide)

theorem textOf_eq {f : File} (found : t.file? p = some f) :
    textOf t p = match Bytes.text? f.content with
      | some text => .ok text
      | none => .error (.unreadable p) := by
  rw [textOf, FileTree.read?, found]
  rfl

theorem file?_of_locate (located : l.locate t resource folder = .ok file) :
    ∃ f, t.file? file = some f :=
  Option.isSome_iff_exists.mp (isFile_of_locate located)

theorem resolve_eq (h : NullsApart P t t') : l.resolve t' resource kind folder =
    l.resolve t resource kind folder := by
  have files : t'.isFile = t.isFile := funext h.samePlaces.isFile_eq
  have located : l.locate t' resource folder = l.locate t resource folder := by
    rw [locate, locate, files]
  rw [resolve, resolve, located]
  simp only [h.samePlaces.canonical?_eq]

/-- What stands in a file that was found is the same but for the slips. -/
theorem definitions_apart (h : NullsApart P t t')
    (clean : ∀ fields fields', P fields fields' → Clean fields ∧ Clean fields') {x : Target}
    (resolved : l.resolve t resource kind folder = .ok x) :
    (textOf t' x.file).map x.definitions = (textOf t x.file).map x.definitions := by
  obtain ⟨located, chosen, _⟩ := resolve_ok resolved
  obtain ⟨f, here⟩ := file?_of_locate located
  obtain ⟨f', here', apart⟩ := h.file? here
  rw [textOf_eq here, textOf_eq here']
  obtain same | ⟨yaml, text, text', written, written', texts⟩ := apart.content
  · rw [same]
  · have format : x.format = .yaml := format_of_isYaml located chosen yaml
    rw [written, written']
    simp only [Except.map, Target.definitions, format, Format.read]
    rw [read_of_apart texts fun _ _ _ fields fields' _ => clean fields fields']

theorem loadBelow_of_apart (h : NullsApart P t t')
    (clean : ∀ fields fields', P fields fields' → Clean fields ∧ Clean fields') (fuel : Nat)
    (stack : List Path) (resource : String) (kind : Option String) (folder : Option Path) :
    l.loadBelow t' fuel stack resource kind folder = l.loadBelow t fuel stack resource kind folder := by
  have read_first {x : Target} (t : FileTree) (load : String → Option String → Except Error Collection)
      (c : Collection) : ((textOf t x.file).bind fun text => addDefinitions load c (x.definitions text)) =
        ((textOf t x.file).map x.definitions).bind (addDefinitions load c) := by
    cases textOf t x.file <;> rfl
  induction fuel generalizing stack resource kind folder with
  | zero => rfl
  | succ fuel ih =>
    rw [loadBelow_succ, loadBelow_succ, resolve_eq h]
    cases resolved : l.resolve t resource kind folder with
    | error e => rfl
    | ok x =>
      simp only [Except.bind]
      split
      · rfl
      · have imports : (fun resource kind =>
            l.loadBelow t' fuel (stack ++ [x.canonical]) resource kind (folderOf x.file)) =
            fun resource kind =>
              l.loadBelow t fuel (stack ++ [x.canonical]) resource kind (folderOf x.file) :=
          funext fun resource => funext fun kind => ih _ resource kind _
        rw [imports]
        refine (read_first t' _ _).trans (Eq.trans ?_ (read_first t _ _).symm)
        rw [definitions_apart h clean resolved]

theorem Reads.named {stack : List Path} {ds : List Definition} {contents : Contents}
    (reads : Reads l t stack folder ds contents) {tags : TagList}
    (mem : .reference resource kind tags ∈ ds) : resource ≠ "" := by
  induction reads with
  | nil => cases mem
  | rule _ ih =>
    rcases List.mem_cons.mp mem with same | mem
    · cases same
    · exact ih mem
  | imported opens _ _ _ _ others_ih =>
    rcases List.mem_cons.mp mem with same | mem
    · cases same
      exact (locate_ok_iff.mp opens.located).1
    · exact others_ih mem

/-- A YAML file that was opened with all its imports has no slips. -/
theorem Opens.clean (opens : l.Opens t resource kind folder file canonical found)
    {stack : List Path} {contents : Contents} (reads : Reads l t stack (folderOf file) found contents)
    (yaml : isYaml (t.place file) = true) {f : File} (here : t.file? file = some f) : CleanFile f := by
  obtain ⟨located, _, format, text, chosen, read, definitions⟩ := opens
  obtain rfl := format_of_isYaml located chosen yaml
  intro written same
  rw [textOf_eq here, same, Except.ok.injEq] at read
  subst read
  exact cleanText_of_read definitions fun _ _ _ mem => reads.named mem

theorem Reads.clean {stack : List Path} {ds : List Definition} {contents : Contents}
    (reads : Reads l t stack folder ds contents) (mem : p ∈ contents.opened)
    (yaml : isYaml (t.place p) = true) {f : File} (here : t.file? p = some f) : CleanFile f := by
  induction reads with
  | nil => cases mem
  | rule _ ih => exact ih mem
  | imported opens _ within _ within_ih others_ih =>
    rcases List.mem_append.mp mem with mem | mem
    · rcases List.mem_cons.mp mem with rfl | mem
      · exact opens.clean within yaml here
      · exact within_ih mem
    · exact others_ih mem

theorem Opens.apart (h : NullsApart P t t') (clean' : ∀ fields fields', P fields fields' → Clean fields')
    (opens : l.Opens t resource kind folder file canonical found) {stack : List Path}
    {contents : Contents} (reads : Reads l t stack (folderOf file) found contents) :
    l.Opens t' resource kind folder file canonical found := by
  obtain ⟨f, here⟩ := file?_of_locate opens.located
  obtain ⟨f', here', apart⟩ := h.file? here
  have files : t'.isFile = t.isFile := funext h.samePlaces.isFile_eq
  have located' : l.locate t' resource folder = .ok file := by
    rw [locate, files]
    exact opens.located
  have canonical' := (h.samePlaces.canonical?_eq file).trans opens.canonical
  refine ⟨located', canonical', ?_⟩
  obtain ⟨format, text, chosen, read, definitions⟩ := opens.readable
  obtain same | ⟨yaml, written, written', plain, plain', texts⟩ := apart.content
  · refine ⟨format, text, chosen, ?_, definitions⟩
    rw [textOf_eq here', same, ← textOf_eq here]
    exact read
  · obtain rfl := format_of_isYaml opens.located chosen yaml
    have clean := opens.clean reads yaml here
    rw [textOf_eq here, plain, Except.ok.injEq] at read
    subst read
    refine ⟨.yaml, written', chosen, by rw [textOf_eq here', plain'], ?_⟩
    refine (read_of_apart texts (fun pairs entries k fields fields' mem holds => ?_) file).trans
      definitions
    exact ⟨clean _ plain pairs entries k fields mem, clean' fields fields' holds⟩

theorem Reads.apart (h : NullsApart P t t') (clean' : ∀ fields fields', P fields fields' → Clean fields')
    {stack : List Path} {ds : List Definition} {contents : Contents}
    (reads : Reads l t stack folder ds contents) : Reads l t' stack folder ds contents := by
  induction reads with
  | nil => exact .nil
  | rule _ ih => exact .rule ih
  | imported opens fresh within _ within_ih others_ih =>
    exact .imported (opens.apart h clean' within) fresh within_ih others_ih

/-- A load that succeeds met no slip, and removing null keys does not change it. A load that fails
gives the same error when null keys are added or removed in definitions without slips. -/
theorem load_of_null_keys (l : Loader) (t : FileTree) (resource : String) (kind : Option String) :
    (∀ c, l.load t resource kind = .ok c → ∀ p ∈ c.files, isYaml (t.place p) = true →
        ∀ f, t.file? p = some f → CleanFile f) ∧
      (∀ t', NullsApart (fun fields fields' => fields' = withoutNulls fields) t t' →
        ∀ c, l.load t resource kind = .ok c → l.load t' resource kind = .ok c) ∧
      ∀ t', NullsApart (fun fields fields' => Clean fields ∧ Clean fields') t t' →
        l.load t' resource kind = l.load t resource kind := by
  refine ⟨fun c loads p mem yaml f here => ?_, fun t' h c loads => ?_, fun t' h => ?_⟩
  · obtain ⟨file, canonical, found, contents, opens, _, reads, rfl⟩ := load_ok_iff.mp loads
    rw [Contents.files_collect] at mem
    rcases List.mem_cons.mp mem with rfl | mem
    · exact opens.clean reads yaml here
    · exact reads.clean mem yaml here
  · obtain ⟨file, canonical, found, contents, opens, fresh, reads, rfl⟩ := load_ok_iff.mp loads
    have clean' (fields fields' : Fields) (removed : fields' = withoutNulls fields) : Clean fields' := by
      rw [removed]
      exact clean_withoutNulls fields
    exact load_ok_iff.mpr ⟨file, canonical, found, contents, opens.apart h clean' reads, fresh,
      reads.apart h clean', rfl⟩
  · have places := congrArg List.length h.samePlaces.files
    rw [List.length_map, List.length_map] at places
    rw [load, load, places]
    exact loadBelow_of_apart h (fun _ _ h => h) _ _ _ _ _

/-- The source of one rule, with more in its definition. -/
def oneRuleText (more : String) : String := "a: \x7bexpression: x" ++ more ++ "\x7d"

def oneRuleFile (more : String) : FileTree where
  current := []
  files := [(["rules.yml".toList], ⟨Bytes.ofText (oneRuleText more), some ⟨0, 0⟩⟩)]

/-- The definition of the rule with null under further keys. -/
def oneRuleFields (nulls : List String) : Fields :=
  (.atom (.string "expression"), .atom (.string "x")) ::
    nulls.map fun key => (.atom (.string key), .atom .null)

def nullKeys? : Fields → Option (List String)
  | [] => some []
  | (.atom (.string key), .atom .null) :: rest => (nullKeys? rest).map fun keys => key :: keys
  | _ => none

/-- The further null keys of the rule, if it is nothing else. -/
def oneRuleNulls? : Option Fields → Option (List String)
  | some [(.atom (.string "a"), .mapping ((.atom (.string "expression"), .atom (.string "x")) :: rest))] =>
    nullKeys? rest
  | _ => none

theorem eq_of_nullKeys? {fields : Fields} {nulls : List String} (h : nullKeys? fields = some nulls) :
    fields = nulls.map fun key => (.atom (.string key), .atom .null) := by
  fun_induction nullKeys? fields generalizing nulls with
  | case1 =>
    cases h
    rfl
  | case2 key rest ih =>
    obtain ⟨keys, others, rfl⟩ := Option.map_eq_some_iff.mp h
    rw [ih others]
    rfl
  | case3 => cases h

theorem eq_of_oneRuleNulls? {entries : Option Fields} {nulls : List String}
    (h : oneRuleNulls? entries = some nulls) :
    entries = some [(.atom (.string "a"), .mapping (oneRuleFields nulls))] := by
  unfold oneRuleNulls? at h
  split at h
  · rw [eq_of_nullKeys? h]
    rfl
  · cases h

/-- Trees of one rule, with further null keys and without. -/
theorem nullsApart_oneRule {more : String} {nulls : List String}
    (written : oneRuleNulls? (entries? (oneRuleText more)) = some nulls)
    (gone : withoutNulls (oneRuleFields nulls) = oneRuleFields [])
    (holds : P (oneRuleFields nulls) (oneRuleFields [])) :
    NullsApart P (oneRuleFile more) (oneRuleFile "") := by
  have plain : oneRuleNulls? (entries? (oneRuleText "")) = some [] := by decide +kernel
  have texts : TextApart P (oneRuleText more) (oneRuleText "") :=
    ⟨_, _, eq_of_oneRuleNulls? written, eq_of_oneRuleNulls? plain,
      .cons (.inr ⟨_, _, rfl, rfl, gone.symm, holds⟩) .nil⟩
  exact ⟨rfl, rfl, .cons ⟨rfl, .inr ⟨(by decide : isYaml ["rules.yml".toList] = true), _, _,
    Bytes.text?_ofText _, Bytes.text?_ofText _, texts⟩⟩ .nil⟩

theorem load_of_null_keys_typed :
    NullsApart (fun fields fields' => Clean fields ∧ Clean fields') (oneRuleFile ", type: ~, tags: null")
        (oneRuleFile "") ∧
      load {} (oneRuleFile "") "rules.yml" none =
        load {} (oneRuleFile ", type: ~, tags: null") "rules.yml" none ∧
      (load {} (oneRuleFile ", type: ~, tags: null") "rules.yml" none).map Collection.names = .ok ["a"] := by
  have clean : Clean (oneRuleFields ["type", "tags"]) :=
    ⟨fun v found => by simp [oneRuleFields, Tree.lookup?] at found,
      fun v stated => by simp [oneRuleFields, states, Tree.lookup?] at stated⟩
  have gone : withoutNulls (oneRuleFields ["type", "tags"]) = oneRuleFields [] := rfl
  have apart : NullsApart (fun fields fields' => Clean fields ∧ Clean fields')
      (oneRuleFile ", type: ~, tags: null") (oneRuleFile "") :=
    nullsApart_oneRule (by decide +kernel) gone ⟨clean, gone ▸ clean_withoutNulls _⟩
  refine ⟨apart, (load_of_null_keys {} _ "rules.yml" none).2.2 _ apart, ?_⟩
  decide +kernel

/-- Beside a null resource an expression is no rule; without that key it is one. -/
theorem load_of_null_resource :
    NullsApart (fun fields fields' => fields' = withoutNulls fields) (oneRuleFile ", resource: ~")
        (oneRuleFile "") ∧
      (load {} (oneRuleFile ", resource: ~") "rules.yml" none).map Collection.names =
        .error (.notFound "" []) ∧
      (load {} (oneRuleFile "") "rules.yml" none).map Collection.names = .ok ["a"] :=
  ⟨nullsApart_oneRule (by decide +kernel : _ = some ["resource"]) rfl rfl, by decide +kernel,
    by decide +kernel⟩

end Loader

end Source

end RuleRegistry
