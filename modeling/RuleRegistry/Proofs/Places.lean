import RuleRegistry.FileTree

/-!
Places. Without links a path has one place, whatever is there, and it leads to its place or nowhere.
What it leads to depends only on the folders on its way and on what stands at its place.
-/

namespace RuleRegistry

namespace Path

theorem piecesOf_append (cs : List Char) :
    ∃ front last, ∀ back, '/' ∉ back → piecesOf (cs ++ back) = front ++ [last ++ back] := by
  induction cs with
  | nil =>
    refine ⟨[], [], fun back whole => ?_⟩
    induction back with
    | nil => rfl
    | cons c rest ih =>
      simp only [List.mem_cons, not_or] at whole
      have behind := ih whole.2
      simp only [List.nil_append] at behind ⊢
      rw [piecesOf, if_neg (Ne.symm whole.1), behind]
  | cons c rest ih =>
    obtain ⟨front, last, extended⟩ := ih
    by_cases slash : c = '/'
    · refine ⟨[] :: front, last, fun back whole => ?_⟩
      rw [List.cons_append, piecesOf, if_pos slash, extended back whole]
      rfl
    · cases front with
      | nil =>
        refine ⟨[], c :: last, fun back whole => ?_⟩
        rw [List.cons_append, piecesOf, if_neg slash, extended back whole]
        rfl
      | cons first others =>
        refine ⟨(c :: first) :: others, last, fun back whole => ?_⟩
        rw [List.cons_append, piecesOf, if_neg slash, extended back whole]
        rfl

/-- An ending as that of an artifact: a dot with other characters behind it. -/
def IsEnding (s : String) : Prop := ∃ c rest, s.toList = '.' :: c :: rest ∧ c ≠ '.' ∧ '/' ∉ s.toList

theorem proper_of_isEnding {s : String} (h : IsEnding s) (last : List Char) :
    last ++ s.toList ≠ [] ∧ last ++ s.toList ≠ ['.'] ∧ last ++ s.toList ≠ ['.', '.'] := by
  obtain ⟨c, rest, eq, dot, _⟩ := h
  rw [eq]
  cases last with
  | nil => simp [dot]
  | cons first others => cases others <;> simp

/-- The last piece is a name. -/
def HasName (p : Path) : Prop :=
  ∃ front last, p.pieces = front ++ [last] ∧ last ≠ [] ∧ last ≠ ['.'] ∧ last ≠ ['.', '.']

theorem hasName_addText (p : Path) {s : String} (h : IsEnding s) : (p.addText s).HasName := by
  obtain ⟨front, last, extended⟩ := piecesOf_append p.text.toList
  refine ⟨front, last ++ s.toList, ?_, proper_of_isEnding h last⟩
  obtain ⟨_, _, _, _, whole⟩ := h
  rw [pieces, addText, String.toList_append, extended _ whole]

section

variable {p : Path} {s : String} (h : p.HasName)

include h

theorem HasName.pieces_addText : ∃ front last, p.pieces = front ++ [last] ∧
    (last ≠ [] ∧ last ≠ ['.'] ∧ last ≠ ['.', '.']) ∧
      ∀ s, IsEnding s → (p.addText s).pieces = front ++ [last ++ s.toList] := by
  obtain ⟨front, last, whole, proper⟩ := h
  obtain ⟨front', last', extended⟩ := piecesOf_append p.text.toList
  have same := extended [] List.not_mem_nil
  rw [List.append_nil, List.append_nil, ← pieces, whole] at same
  obtain ⟨rfl, single⟩ := List.append_inj' same rfl
  obtain rfl := List.singleton_inj.mp single
  refine ⟨front, last, whole, proper, fun s ending => ?_⟩
  obtain ⟨_, _, _, _, plain⟩ := ending
  rw [pieces, addText, String.toList_append, extended _ plain]

theorem HasName.isAbsolute_addText (s : String) : (p.addText s).isAbsolute = p.isAbsolute := by
  obtain ⟨front, last, whole, some_char, _⟩ := h
  simp only [isAbsolute, addText, String.toList_append]
  cases text : p.text.toList with
  | nil =>
    rw [pieces, text, piecesOf] at whole
    cases front with
    | nil => exact absurd (List.singleton_inj.mp whole).symm some_char
    | cons first others => simp at whole
  | cons c rest => rfl

/-- A file whose name is longer by an ending is in the same folder. -/
theorem HasName.parent?_addText (ending : IsEnding s) : (p.addText s).parent? = p.parent? := by
  have absolute := h.isAbsolute_addText s
  obtain ⟨front, last, whole, proper, extended⟩ := h.pieces_addText
  have proper' := proper_of_isEnding ending last
  have named : component? last = some (.name last) := by
    simp only [component?, proper, or_self, if_false]
  have named' : component? (last ++ s.toList) = some (.name (last ++ s.toList)) := by
    simp only [component?, proper', or_self, if_false]
  unfold parent?
  rw [absolute, extended s ending, whole]
  cases front with
  | nil => cases p.isAbsolute <;> simp [dropIdle, named, named', proper, proper']
  | cons first others =>
    cases p.isAbsolute <;> cases dot : first == ['.'] <;> simp_all [dropIdle]

end

theorem join_text (dir p : Path) : ∃ front, (dir.join p).text = front ++ p.text := by
  unfold join
  split
  · exact ⟨"", by simp⟩
  · split
    · exact ⟨dir.text, rfl⟩
    · exact ⟨dir.text ++ "/", rfl⟩

end Path

namespace FileTree

variable {t t' : FileTree} {here l : Location} {pieces : List (List Char)} {p q : Path}

def next (here : Location) (piece : List Char) : Location :=
  if isIdle piece then here else if isUp piece then here.dropLast else here ++ [piece]

def follow (here : Location) (pieces : List (List Char)) : Location := pieces.foldl next here

def way : Location → List (List Char) → List Location
  | here, [] => [here]
  | here, piece :: rest => here :: way (next here piece) rest

/-- The place of a path, whatever is there. -/
def place (t : FileTree) (p : Path) : Location := follow (t.start p) p.pieces

def wayTo (t : FileTree) (p : Path) : List Location := way (t.start p) p.pieces

theorem mem_way (here : Location) (pieces : List (List Char)) : here ∈ way here pieces := by
  cases pieces <;> simp [way]

theorem follow_mem_way (here : Location) (pieces : List (List Char)) :
    follow here pieces ∈ way here pieces := by
  induction pieces generalizing here with
  | nil => simp [follow, way]
  | cons piece rest ih => exact List.mem_cons_of_mem _ (ih _)

theorem place_mem_wayTo (t : FileTree) (p : Path) : t.place p ∈ t.wayTo p := follow_mem_way _ _

theorem start_congr (current : t'.current = t.current) (p : Path) : t'.start p = t.start p := by
  rw [start, start, current]

theorem place_congr (current : t'.current = t.current) (p : Path) : t'.place p = t.place p := by
  rw [place, place, start_congr current]

theorem wayTo_congr (current : t'.current = t.current) (p : Path) : t'.wayTo p = t.wayTo p := by
  rw [wayTo, wayTo, start_congr current]

def enter (here : Location) : Path.Component → Location
  | .root => []
  | .here => here
  | .up => here.dropLast
  | .name s => here ++ [s]

theorem follow_eq (here : Location) (pieces : List (List Char)) :
    follow here pieces = (pieces.filterMap Path.component?).foldl enter here := by
  induction pieces generalizing here with
  | nil => rfl
  | cons piece rest ih =>
    rw [follow, List.foldl_cons, ← follow, ih, List.filterMap_cons]
    unfold next Path.component? isIdle isUp
    by_cases idle : piece = [] ∨ piece = ['.']
    · simp [idle]
    · by_cases up : piece = ['.', '.']
      · simp [up, enter]
      · simp [idle, up, enter]

theorem place_eq (t : FileTree) (p : Path) : t.place p = p.components.foldl enter t.current := by
  rw [place, follow_eq, start, Path.components]
  split
  · rfl
  · split <;> rfl

theorem place_of_same (t : FileTree) (same : p.same q = true) : t.place p = t.place q := by
  rw [place_eq, place_eq, eq_of_beq same]

/-- A file whose name is longer by an ending has another place. -/
theorem place_addText_ne (t : FileTree) (h : p.HasName) {s : String} (ending : Path.IsEnding s) :
    t.place (p.addText s) ≠ t.place p := by
  have absolute := h.isAbsolute_addText s
  obtain ⟨front, last, whole, ⟨some_char, no_dot, no_dots⟩, extended⟩ := h.pieces_addText
  obtain ⟨some_char', no_dot', no_dots'⟩ := Path.proper_of_isEnding ending last
  have start_eq : t.start (p.addText s) = t.start p := by rw [start, start, absolute]
  have longer : s.toList ≠ [] := by
    obtain ⟨c, rest, spelled, _⟩ := ending
    rw [spelled]
    exact List.cons_ne_nil _ _
  rw [place, place, start_eq, extended s ending, whole, follow, follow, List.foldl_append,
    List.foldl_append]
  simp [next, isIdle, isUp, some_char, no_dot, no_dots, some_char', no_dot', no_dots', longer]

theorem walk_cons (t : FileTree) (here : Location) (piece : List Char) (rest : List (List Char)) :
    t.walk here (piece :: rest) = if t.isFolder here = true ∧ (isIdle piece = true ∨ isUp piece = true ∨
      t.isFolder (next here piece) = true ∨ (t.fileAt? (next here piece)).isSome = true) then
        t.walk (next here piece) rest else none := by
  rw [walk]
  cases t.isFolder here with
  | false => simp
  | true =>
    cases idle : isIdle piece with
    | true => simp [next, idle]
    | false => cases up : isUp piece <;> simp [next, idle, up]

theorem walk_eq_follow (h : t.walk here pieces = some l) : l = follow here pieces := by
  induction pieces generalizing here with
  | nil =>
    cases h
    rfl
  | cons piece rest ih =>
    rw [walk_cons] at h
    split at h
    · exact ih h
    · cases h

theorem walk_append (t : FileTree) (here : Location) (front back : List (List Char)) :
    t.walk here (front ++ back) = (t.walk here front).bind fun l => t.walk l back := by
  induction front generalizing here with
  | nil => rfl
  | cons piece rest ih =>
    rw [List.cons_append, walk_cons, walk_cons]
    split
    · exact ih _
    · rfl

theorem isFolder_of_walk {piece : List Char} (h : t.walk here (piece :: pieces) = some l) :
    t.isFolder here = true := by
  rw [walk_cons] at h
  split at h
  · rename_i enters
    exact enters.1
  · cases h

/-- Where the folders on a way stay, and something stays at its end, it still leads there. -/
theorem walk_keeps
    (folders : ∀ x ∈ way here pieces, t.isFolder x = true → t'.isFolder x = true)
    (there : t'.isFolder (follow here pieces) = true ∨ (t'.fileAt? (follow here pieces)).isSome = true)
    (h : t.walk here pieces = some l) : t'.walk here pieces = some l := by
  induction pieces generalizing here with
  | nil => exact h
  | cons piece rest ih =>
    have first := folders here List.mem_cons_self (isFolder_of_walk h)
    have others : ∀ x ∈ way (next here piece) rest, t.isFolder x = true → t'.isFolder x = true :=
      fun x hx => folders x (List.mem_cons_of_mem _ hx)
    rw [walk_cons] at h ⊢
    split at h
    · rename_i enters
      -- The last piece may lead to a file; before it there are folders, and these stay.
      have behind : t'.isFolder (next here piece) = true ∨
          (t'.fileAt? (next here piece)).isSome = true := by
        cases rest with
        | nil => exact there
        | cons other more => exact .inl (others _ (mem_way _ _) (isFolder_of_walk h))
      rw [if_pos ⟨first, .inr (.inr behind)⟩]
      exact ih others there h
    · cases h

theorem place_of_find? (h : t.find? p = some l) : l = t.place p := by
  unfold find? at h
  split at h
  · exact walk_eq_follow h
  · cases h

theorem find?_keeps (current : t'.current = t.current)
    (folders : ∀ x ∈ t.wayTo p, t.isFolder x = true → t'.isFolder x = true)
    (there : t'.isFolder (t.place p) = true ∨ (t'.fileAt? (t.place p)).isSome = true)
    (h : t.find? p = some l) : t'.find? p = some l := by
  unfold find? at h ⊢
  split at h
  · rw [if_pos ‹_›, start_congr current]
    exact walk_keeps folders there h
  · cases h

theorem file?_eq_some_iff {f : File} :
    t.file? p = some f ↔ t.find? p = some (t.place p) ∧ t.fileAt? (t.place p) = some f := by
  rw [file?, Option.bind_eq_some_iff]
  constructor
  · rintro ⟨l, found, there⟩
    obtain rfl := place_of_find? found
    exact ⟨found, there⟩
  · rintro ⟨found, there⟩
    exact ⟨_, found, there⟩

/-- The folders that were there stay, and new ones lie in a region; nothing else changes. -/
structure Grown (t t' : FileTree) (region : List Location) : Prop where
  current : t'.current = t.current
  files : t'.files = t.files
  kept : ∀ x, t.isFolder x = true → t'.isFolder x = true
  within : ∀ x, t'.isFolder x = true → t.isFolder x = true ∨ x ∈ region

theorem Grown.unchanged (t : FileTree) (region : List Location) : Grown t t region :=
  ⟨rfl, rfl, fun _ h => h, fun _ h => .inl h⟩

theorem isFolder_push (t : FileTree) (x y : Location) :
    ({ t with folders := t.folders ++ [y] } : FileTree).isFolder x = true ↔
      t.isFolder x = true ∨ x = y := by
  simp [isFolder, or_assoc]

theorem makeFolders_grown (t : FileTree) (here : Location) (pieces : List (List Char)) :
    Grown t (t.makeFolders here pieces).2 (way here pieces) := by
  induction pieces generalizing t here with
  | nil => exact .unchanged t _
  | cons piece rest ih =>
    have wider {s s' : FileTree} {x : Location} (h : Grown s s' (way x rest)) (eq : x = next here piece) :
        Grown s s' (way here (piece :: rest)) := by
      subst eq
      exact { h with within := fun x hx => (h.within x hx).imp_right (List.mem_cons_of_mem _) }
    rw [makeFolders]
    split
    · exact wider (ih t here) (by simp [next, *])
    · split
      · exact wider (ih t here.dropLast) (by simp [next, *])
      · have eq : here ++ [piece] = next here piece := by simp [next, *]
        dsimp only
        split
        · exact wider (ih t _) eq
        · split
          · exact .unchanged t _
          · have grown := wider (ih { t with folders := t.folders ++ [here ++ [piece]] } _) eq
            exact {
              current := grown.current
              files := grown.files
              kept := fun x hx => grown.kept x ((isFolder_push t x _).mpr (.inl hx))
              within := fun x hx => by
                rcases grown.within x hx with old | new
                · rcases (isFolder_push t x _).mp old with old | rfl
                  · exact .inl old
                  · rw [eq]
                    exact .inr (List.mem_cons_of_mem _ (mem_way _ _))
                · exact .inr new }

/-- Where all the folders of a way are, none is made. -/
theorem makeFolders_again {s : FileTree} (made : t.makeFolders here pieces = (true, s))
    (kept : ∀ x, s.isFolder x = true → t'.isFolder x = true) :
    t'.makeFolders here pieces = (true, t') := by
  induction pieces generalizing t here with
  | nil => rfl
  | cons piece rest ih =>
    rw [makeFolders] at made ⊢
    split at made
    · rw [if_pos ‹_›]
      exact ih made
    · rw [if_neg ‹_›]
      split at made
      · rw [if_pos ‹_›]
        exact ih made
      · rw [if_neg ‹_›]
        dsimp only at made ⊢
        have stays {r : FileTree} (there : r.isFolder (here ++ [piece]) = true)
            (made : r.makeFolders (here ++ [piece]) rest = (true, s)) :
            t'.isFolder (here ++ [piece]) = true := by
          have grown := makeFolders_grown r (here ++ [piece]) rest
          rw [made] at grown
          exact kept _ (grown.kept _ there)
        split at made
        · rename_i there
          rw [if_pos (stays there made)]
          exact ih made
        · split at made
          · cases made
          · rw [if_pos (stays ((isFolder_push t _ _).mpr (.inr rfl)) made)]
            exact ih made

theorem createFolder_grown (t : FileTree) (p : Path) :
    Grown t (t.createFolder p).2 (t.wayTo p) := by
  unfold createFolder
  split
  · exact makeFolders_grown t _ _
  · exact .unchanged t _

theorem createFolder_again {s : FileTree} (made : t.createFolder p = (true, s))
    (current : t'.current = t.current) (kept : ∀ x, s.isFolder x = true → t'.isFolder x = true) :
    t'.createFolder p = (true, t') := by
  unfold createFolder at made ⊢
  split at made
  · rw [if_pos ‹_›, start_congr current]
    exact makeFolders_again made kept
  · cases made

def drop (t : FileTree) (l : Location) : FileTree :=
  { t with files := t.files.filter fun e => e.1 != l }

theorem lookup_filter (files : List (Location × File)) (l x : Location) :
    (files.filter fun e => e.1 != l).lookup x = if x = l then none else files.lookup x := by
  induction files with
  | nil => simp
  | cons e rest ih =>
    obtain ⟨k, f⟩ := e
    by_cases same : k = l
    · subst same
      rw [List.filter_cons_of_neg (by simp), ih, List.lookup_cons]
      by_cases hit : x = k
      · rw [if_pos hit, if_pos hit]
      · rw [if_neg hit, if_neg hit, beq_false_of_ne hit]
    · rw [List.filter_cons_of_pos (by simpa using same), List.lookup_cons, List.lookup_cons, ih]
      by_cases hit : x = k
      · subst hit
        simp [same]
      · simp [beq_false_of_ne hit]

theorem fileAt?_drop (t : FileTree) (l x : Location) :
    (t.drop l).fileAt? x = if x = l then none else t.fileAt? x := lookup_filter t.files l x

theorem fileAt?_put (t : FileTree) (l x : Location) (f : File) :
    (t.put l f).fileAt? x = if x = l then some f else t.fileAt? x := by
  rw [fileAt?, put, List.lookup_append, lookup_filter]
  by_cases hit : x = l
  · simp [hit]
  · have other : (x == l) = false := beq_false_of_ne hit
    simp [hit, fileAt?, List.lookup_cons, other]

theorem mem_files_of_fileAt? {f : File} (h : t.fileAt? l = some f) : (l, f) ∈ t.files := by
  obtain ⟨before, after, split, _⟩ := List.lookup_eq_some_iff.mp h
  simp [split]

/-- A file can be written under a name in a folder that is there. -/
structure Target (t : FileTree) (p : Path) (front : List (List Char)) (folder : Location)
    (name : List Char) : Prop where
  pieces : p.pieces = front ++ [name]
  not_idle : isIdle name = false
  not_up : isUp name = false
  usable : isUsable p = true
  walked : t.walk (t.start p) front = some folder
  there : t.isFolder folder = true
  free : t.isFolder (folder ++ [name]) = false

theorem target_of_target? (h : t.target? p = some l) :
    ∃ front folder name, Target t p front folder name ∧ l = folder ++ [name] := by
  unfold target? at h
  split at h
  · rename_i name front reversed
    have pieces_eq : p.pieces = front.reverse ++ [name] := by
      rw [← List.reverse_reverse p.pieces, reversed, List.reverse_cons]
    split at h
    · cases h
    · rename_i proper
      simp only [Bool.or_eq_true, not_or, Bool.not_eq_true, Bool.not_eq_false'] at proper
      obtain ⟨⟨⟨not_idle, not_up⟩, _⟩, usable⟩ := proper
      obtain ⟨folder, walked, named⟩ := Option.bind_eq_some_iff.mp h
      dsimp only at named
      split at named
      · rename_i free
        cases named
        rw [Bool.and_eq_true, Bool.not_eq_true'] at free
        exact ⟨front.reverse, folder, name,
          ⟨pieces_eq, not_idle, not_up, usable, walked, free.1, free.2⟩, rfl⟩
      · cases named
  · cases h

theorem Target.next_eq {front : List (List Char)} {folder : Location} {name : List Char}
    (h : Target t p front folder name) : next folder name = folder ++ [name] := by
  simp [next, h.not_idle, h.not_up]

theorem place_of_target? (h : t.target? p = some l) :
    l = t.place p ∧ t.isFolder (t.place p) = false := by
  obtain ⟨front, folder, name, target, rfl⟩ := target_of_target? h
  have eq : t.place p = folder ++ [name] := by
    rw [place, target.pieces, follow, List.foldl_append]
    change next (follow (t.start p) front) name = _
    rw [← walk_eq_follow target.walked]
    exact target.next_eq
  rw [eq]
  exact ⟨rfl, target.free⟩

/-- A file that can be written is found once it is there. -/
theorem find?_of_target? (h : t.target? p = some l) (there : (t.fileAt? l).isSome = true) :
    t.find? p = some l := by
  obtain ⟨front, folder, name, target, rfl⟩ := target_of_target? h
  rw [find?, if_pos target.usable, target.pieces, walk_append, target.walked, Option.bind_some,
    walk_cons, target.next_eq, if_pos ⟨target.there, .inr (.inr (.inr there))⟩]
  rfl

theorem hasName_of_target? (h : t.target? p = some l) : p.HasName := by
  obtain ⟨front, folder, name, target, _⟩ := target_of_target? h
  have idle := target.not_idle
  have up := target.not_up
  simp only [isIdle, isUp, Bool.or_eq_false_iff, beq_eq_false_iff_ne] at idle up
  exact ⟨front, name, target.pieces, idle.1, idle.2, up⟩

theorem target?_keeps (current : t'.current = t.current)
    (kept : ∀ x, t.isFolder x = true → t'.isFolder x = true)
    (free : t'.isFolder (t.place p) = false) (h : t.target? p = some l) : t'.target? p = some l := by
  obtain ⟨rfl, _⟩ := place_of_target? h
  generalize t.place p = l at *
  unfold target? at h ⊢
  split at h
  · split at h
    · cases h
    · rw [if_neg ‹_›, start_congr current]
      obtain ⟨folder, walked, named⟩ := Option.bind_eq_some_iff.mp h
      dsimp only at named
      split at named
      · rename_i there
        cases named
        have folder_kept := kept _ (Bool.and_eq_true_iff.mp there).1
        have still := walk_keeps (fun x _ => kept x) (.inl (walk_eq_follow walked ▸ folder_kept)) walked
        rw [still, Option.bind_some]
        simp [folder_kept, free]
      · cases named
  · cases h

theorem writeNow?_eq_some {content : Bytes} (h : t.writeNow? p content = some t') :
    t.target? p = some (t.place p) ∧ t'.current = t.current ∧ t'.folders = t.folders ∧
      ∃ modified, ∀ x,
        t'.fileAt? x = if x = t.place p then some ⟨content, modified⟩ else t.fileAt? x := by
  simp only [writeNow?, write?, Option.map_map, Option.map_eq_some_iff] at h
  obtain ⟨l, target, rfl⟩ := h
  obtain ⟨rfl, _⟩ := place_of_target? target
  exact ⟨target, rfl, rfl, some ⟨t.clock, 0⟩, fun x => fileAt?_put t _ x _⟩

theorem writeNow?_isSome (h : t.target? p = some l) (content : Bytes) :
    ∃ t', t.writeNow? p content = some t' := by
  simp only [writeNow?, write?, h, Option.map_some]
  exact ⟨_, rfl⟩

theorem isFolder_congr (current : t'.current = t.current) (folders : t'.folders = t.folders)
    (x : Location) : t'.isFolder x = t.isFolder x := by
  rw [isFolder, isFolder, current, folders]

end FileTree

end RuleRegistry
