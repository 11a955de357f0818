import RuleRegistry.Proofs.Flattening

namespace RuleRegistry

namespace Collection

theorem mem_distinct {files : List Path} {p : Path} (mem : p ∈ files) :
    ∃ q ∈ distinct files, p.same q = true := by
  have grown : ∀ (files seen : List Path), (∀ q ∈ seen, q ∈ files.foldl
      (fun seen p => if seen.any (Path.same p) then seen else seen ++ [p]) seen) ∧
        ∀ p ∈ files, ∃ q ∈ files.foldl
          (fun seen p => if seen.any (Path.same p) then seen else seen ++ [p]) seen,
            p.same q = true := by
    intro files
    induction files with
    | nil => exact fun seen => ⟨fun _ h => h, fun _ h => nomatch h⟩
    | cons first rest ih =>
      intro seen
      rw [List.foldl_cons]
      split
      · rename_i known
        obtain ⟨q, there, same⟩ := List.any_eq_true.mp known
        obtain ⟨stays, others⟩ := ih seen
        refine ⟨stays, fun p hp => ?_⟩
        rcases List.mem_cons.mp hp with rfl | hp
        · exact ⟨q, stays q there, same⟩
        · exact others p hp
      · obtain ⟨stays, others⟩ := ih (seen ++ [first])
        refine ⟨fun q hq => stays q (List.mem_append_left _ hq), fun p hp => ?_⟩
        rcases List.mem_cons.mp hp with rfl | hp
        · exact ⟨p, stays p (by simp), by simp [Path.same]⟩
        · exact others p hp
  exact (grown files []).2 p mem

theorem mem_of_mem_distinct {files : List Path} {p : Path} (mem : p ∈ distinct files) : p ∈ files := by
  refine List.foldlRecOn (motive := fun seen => ∀ p ∈ seen, p ∈ files) files _ (by simp) ?_ p mem
  intro seen known q hq r hr
  split at hr
  · exact known r hr
  · rcases List.mem_append.mp hr with hr | hr
    · exact known r hr
    · exact List.mem_singleton.mp hr ▸ hq

end Collection

namespace Source.Loader

variable {l : Loader} {t t' : FileTree} {resource : String} {kind : Option String}
  {folder : Option Path} {file canonical p : Path} {found : List Definition}

/-- The paths that are tried for a resource, in their order. -/
def candidates (l : Loader) (resource : String) (folder : Option Path) : List Path :=
  if (Path.mk resource).isAbsolute then [⟨resource⟩]
  else (folder.toList ++ l.search).map fun dir => dir.join ⟨resource⟩

/-- The paths at which a load looks for a file, up to the first that is one. -/
inductive Probes (l : Loader) (t : FileTree) :
    String → Option String → Option Path → Path → Prop
  | tried {resource kind folder p before after} (named : resource ≠ "")
      (order : l.candidates resource folder = before ++ p :: after)
      (missing : ∀ q ∈ before, t.isFile q = false) : Probes l t resource kind folder p
  | imported {resource kind folder file canonical found inner innerKind tags p}
      (opens : l.Opens t resource kind folder file canonical found)
      (reference : .reference inner innerKind tags ∈ found)
      (below : Probes l t inner innerKind (folderOf file) p) : Probes l t resource kind folder p

theorem locate_ok_iff_find? : l.locate t resource folder = .ok file ↔
    resource ≠ "" ∧ (l.candidates resource folder).find? t.isFile = some file := by
  unfold locate candidates
  split
  · simp [*]
  · rename_i named
    dsimp only
    split
    · rename_i hit
      rw [hit]
      simp [named]
    · rename_i miss
      rw [miss]
      simp

theorem locate_ok_iff : l.locate t resource folder = .ok file ↔ resource ≠ "" ∧
    t.isFile file = true ∧ ∃ before after, l.candidates resource folder = before ++ file :: after ∧
      ∀ q ∈ before, t.isFile q = false := by
  rw [locate_ok_iff_find?, List.find?_eq_some_iff_append]
  simp

theorem Opens.probes (opens : l.Opens t resource kind folder file canonical found) :
    Probes l t resource kind folder file := by
  obtain ⟨named, _, before, after, order, missing⟩ := locate_ok_iff.mp opens.located
  exact .tried named order missing

def opened? (l : Loader) (t : FileTree) (resource : String) (kind : Option String)
    (folder : Option Path) : Option (List Definition) :=
  (l.locate t resource folder).toOption.bind fun file => (l.format? resource kind).bind fun format =>
    (textOf t file).toOption.map fun text => (format.read file text).found

theorem Opens.opened?_eq (opens : l.Opens t resource kind folder file canonical found) :
    l.opened? t resource kind folder = some found := by
  obtain ⟨located, _, format, text, hformat, htext, hread⟩ := opens
  simp [opened?, located, hformat, htext, hread, Except.toOption]

/-- Without imports a load looks only for its own file. -/
theorem Probes.mem_candidates (probed : Probes l t resource kind folder p)
    (alone : ((l.opened? t resource kind folder).all fun ds => ds.all fun d =>
      match d with | .rule _ _ => true | .reference _ _ _ => false) = true) :
    p ∈ l.candidates resource folder := by
  cases probed with
  | tried _ order _ =>
    rw [order]
    simp
  | imported opens reference _ =>
    rw [opens.opened?_eq] at alone
    exact absurd (List.all_eq_true.mp alone _ reference) (by simp)

theorem Reads.probes {stack : List Path} {ds : List Definition} {contents : Contents}
    (reads : Reads l t stack folder ds contents) (mem : p ∈ contents.opened) :
    t.isFile p = true ∧ ∃ resource kind tags,
      .reference resource kind tags ∈ ds ∧ Probes l t resource kind folder p := by
  induction reads with
  | nil => cases mem
  | rule _ ih =>
    obtain ⟨present, resource, kind, tags, there, probed⟩ := ih mem
    exact ⟨present, resource, kind, tags, List.mem_cons_of_mem _ there, probed⟩
  | imported opens _ _ _ within_ih others_ih =>
    rcases List.mem_append.mp mem with mem | mem
    · rcases List.mem_cons.mp mem with rfl | mem
      · exact ⟨isFile_of_locate opens.located, _, _, _, List.mem_cons_self, opens.probes⟩
      · obtain ⟨present, resource, kind, tags, there, probed⟩ := within_ih mem
        exact ⟨present, _, _, _, List.mem_cons_self, .imported opens there probed⟩
    · obtain ⟨present, resource, kind, tags, there, probed⟩ := others_ih mem
      exact ⟨present, resource, kind, tags, List.mem_cons_of_mem _ there, probed⟩

theorem probes_of_mem_files {c : Collection} (loads : l.load t resource kind = .ok c)
    (mem : p ∈ c.files) : t.isFile p = true ∧ Probes l t resource kind none p := by
  obtain ⟨file, canonical, found, contents, opens, _, reads, rfl⟩ := load_ok_iff.mp loads
  rw [Contents.files_collect] at mem
  rcases List.mem_cons.mp mem with rfl | mem
  · exact ⟨isFile_of_locate opens.located, opens.probes⟩
  · obtain ⟨present, _, _, _, there, probed⟩ := reads.probes mem
    exact ⟨present, .imported opens there probed⟩

/-- A path has the same canonical form and the same text in both trees. -/
structure Alike (t t' : FileTree) (p : Path) : Prop where
  canonical : t'.canonical? p = t.canonical? p
  text : t'.read? p = t.read? p

theorem Alike.isFile_eq (h : Alike t t' p) : t'.isFile p = t.isFile p := by
  have present := congrArg Option.isSome h.text
  rwa [FileTree.read?, FileTree.read?, Option.isSome_map, Option.isSome_map] at present

/-- A path leads to the same place with the same text in both trees. -/
structure SameFile (t t' : FileTree) (p : Path) : Prop where
  found : t'.find? p = t.find? p
  text : t'.read? p = t.read? p

theorem SameFile.alike (h : SameFile t t' p) : Alike t t' p :=
  ⟨by rw [FileTree.canonical?, FileTree.canonical?, h.found], h.text⟩

theorem Opens.transfer (opens : l.Opens t resource kind folder file canonical found)
    (missing : ∀ p, Probes l t resource kind folder p → t.isFile p = false → t'.isFile p = false)
    (same : Alike t t' file) : l.Opens t' resource kind folder file canonical found := by
  obtain ⟨located, hcanonical, format, text, hformat, htext, hread⟩ := opens
  obtain ⟨named, present, before, after, order, before_missing⟩ := locate_ok_iff.mp located
  refine ⟨?_, same.canonical.trans hcanonical, format, text, hformat, ?_, hread⟩
  · refine locate_ok_iff.mpr ⟨named, same.isFile_eq.trans present, before, after, order, fun q hq => ?_⟩
    -- The paths in front of the file were probed too.
    obtain ⟨front, back, rfl⟩ := List.append_of_mem hq
    rw [List.append_assoc, List.cons_append] at order
    exact missing q (.tried named order fun r hr => before_missing r (List.mem_append_left _ hr))
      (before_missing q hq)
  · rw [textOf, same.text]
    exact htext

theorem Reads.transfer {stack : List Path} {ds : List Definition} {contents : Contents}
    (reads : Reads l t stack folder ds contents)
    (missing : ∀ resource kind tags, .reference resource kind tags ∈ ds → ∀ p,
      Probes l t resource kind folder p → t.isFile p = false → t'.isFile p = false)
    (same : ∀ p ∈ contents.opened, Alike t t' p) : Reads l t' stack folder ds contents := by
  induction reads with
  | nil => exact .nil
  | rule _ ih =>
    exact .rule (ih (fun _ _ _ there => missing _ _ _ (List.mem_cons_of_mem _ there)) same)
  | imported opens fresh _ _ within_ih others_ih =>
    have here := missing _ _ _ List.mem_cons_self
    refine .imported (opens.transfer here (same _ (by simp [Contents.opened]))) fresh
      (within_ih (fun _ _ _ there p probed => here p (.imported opens there probed)) fun p hp => ?_)
      (others_ih (fun _ _ _ there => missing _ _ _ (List.mem_cons_of_mem _ there)) fun p hp => ?_)
    · exact same p (by simp [Contents.opened, hp])
    · exact same p (by simp [Contents.opened, hp])

/-- A load gives the same collection where nothing that it looked at has changed. -/
theorem load_of_alike {c : Collection} (loads : l.load t resource kind = .ok c)
    (missing : ∀ p, Probes l t resource kind none p → t.isFile p = false → t'.isFile p = false)
    (same : ∀ p ∈ c.files, Alike t t' p) : l.load t' resource kind = .ok c := by
  obtain ⟨file, canonical, found, contents, opens, fresh, reads, rfl⟩ := load_ok_iff.mp loads
  rw [Contents.files_collect] at same
  refine load_ok_iff.mpr ⟨file, canonical, found, contents, ?_, fresh, ?_, rfl⟩
  · exact opens.transfer missing (same file List.mem_cons_self)
  · exact reads.transfer (fun _ _ _ there p probed => missing p (.imported opens there probed))
      fun p hp => same p (List.mem_cons_of_mem _ hp)

theorem load_transfer {c : Collection} (loads : l.load t resource kind = .ok c)
    (missing : ∀ p, Probes l t resource kind none p → t.isFile p = false → t'.isFile p = false)
    (same : ∀ p ∈ c.files, SameFile t t' p) : l.load t' resource kind = .ok c :=
  load_of_alike loads missing fun p hp => (same p hp).alike

end Source.Loader

end RuleRegistry
