import Mathlib.Data.List.Basic
import Mathlib.Data.List.Induction
import RuleRegistry.Proofs.Places

namespace RuleRegistry

namespace Path

variable {p : Path} {s : List Char}

theorem piecesOf_ne_nil (cs : List Char) : piecesOf cs ≠ [] := by
  obtain ⟨front, last, extended⟩ := piecesOf_append cs
  have parted := extended [] List.not_mem_nil
  rw [List.append_nil] at parted
  rw [parted]
  exact List.append_ne_nil_of_right_ne_nil _ (List.cons_ne_nil _ _)

theorem piecesOf_slash (front back : List Char) :
    piecesOf (front ++ '/' :: back) = piecesOf front ++ piecesOf back := by
  induction front with
  | nil =>
    rw [List.nil_append, piecesOf]
    rfl
  | cons c rest ih =>
    rw [List.cons_append, piecesOf, piecesOf, ih]
    split
    · rfl
    · cases parted : piecesOf rest with
      | nil => exact absurd parted (piecesOf_ne_nil rest)
      | cons first others => rfl

/-- What follows the last dot of a name, unless the name has its only dot in front. -/
def extensionOf? (name : List Char) : Option String :=
  let tail := (name.reverse.takeWhile (· ≠ '.')).reverse
  if tail.length + 1 < name.length then some (String.ofList tail) else none

theorem extension?_eq (p : Path) : p.extension? = p.fileName?.bind extensionOf? := rfl

theorem fileName?_eq_some : p.fileName? = some s ↔ p.components.getLast? = some (.name s) := by
  unfold fileName?
  split
  · rename_i found
    rw [found]
    simp
  · rename_i other
    exact ⟨nofun, fun found => absurd found (other s)⟩

/-- The last component comes from the pieces, whatever the path begins with. -/
theorem getLast?_components :
    p.components.getLast? = some (.name s) ↔
      (p.pieces.filterMap component?).getLast? = some (.name s) := by
  have behind (first : Component) (other : first ≠ .name s) (inner : List Component) :
      (first :: inner).getLast? = some (.name s) ↔ inner.getLast? = some (.name s) := by
    cases inner with
    | nil => simp [other]
    | cons second rest => rw [List.getLast?_cons_cons]
  unfold components
  dsimp only
  split
  · exact behind .root nofun _
  · split
    · exact behind .here nofun _
    · exact Iff.rfl

theorem fileName?_join (dir : Path) (named : p.fileName? = some s) :
    (dir.join p).fileName? = some s := by
  rw [fileName?_eq_some, getLast?_components] at named ⊢
  have below (front : List Char) (q : Path) (text : q.text.toList = front ++ '/' :: p.text.toList) :
      (q.pieces.filterMap component?).getLast? = some (.name s) := by
    rw [pieces, text, piecesOf_slash, List.filterMap_append, List.getLast?_append]
    rw [pieces] at named
    rw [named]
    rfl
  unfold join
  split
  · exact named
  · split
    · rename_i slash
      obtain ⟨front, ends⟩ := List.getLast?_eq_some_iff.mp (eq_of_beq slash)
      exact below front _ (by simp [ends])
    · exact below dir.text.toList _ (by simp)

end Path

theorem FileTree.getLast?_place {p : Path} {s : List Char} (named : p.fileName? = some s)
    (t : FileTree) : (t.place p).getLast? = some s := by
  obtain ⟨front, ends⟩ := List.getLast?_eq_some_iff.mp (Path.fileName?_eq_some.mp named)
  rw [place_eq, ends, List.foldl_append]
  exact List.getLast?_concat

namespace Path

variable {p dir : Path} {n : List Char}

theorem slash_not_mem_piece {cs piece : List Char} (mem : piece ∈ piecesOf cs) : '/' ∉ piece := by
  induction cs generalizing piece with
  | nil =>
    obtain rfl := List.mem_singleton.mp mem
    exact List.not_mem_nil
  | cons c rest ih =>
    rw [piecesOf] at mem
    split at mem
    · rcases List.mem_cons.mp mem with rfl | mem
      · exact List.not_mem_nil
      · exact ih mem
    · rename_i plain
      split at mem
      · rw [List.mem_singleton.mp mem]
        simpa using Ne.symm plain
      · rename_i first others parted
        rcases List.mem_cons.mp mem with rfl | mem
        · have whole := ih (parted ▸ List.mem_cons_self)
          simpa [whole] using Ne.symm plain
        · exact ih (parted ▸ List.mem_cons_of_mem _ mem)

theorem piecesOf_of_not_mem {cs : List Char} (whole : '/' ∉ cs) : piecesOf cs = [cs] := by
  induction cs with
  | nil => rfl
  | cons c rest ih =>
    rw [List.mem_cons, not_or] at whole
    rw [piecesOf, if_neg (Ne.symm whole.1), ih whole.2]

theorem piecesOf_joinPieces {ps : List (List Char)} (some_piece : ps ≠ [])
    (whole : ∀ piece ∈ ps, '/' ∉ piece) : piecesOf (joinPieces ps) = ps := by
  induction ps with
  | nil => exact absurd rfl some_piece
  | cons piece rest ih =>
    obtain ⟨first, others⟩ := List.forall_mem_cons.mp whole
    cases rest with
    | nil => exact piecesOf_of_not_mem first
    | cons second more =>
      rw [joinPieces, piecesOf_slash, piecesOf_of_not_mem first, ih (List.cons_ne_nil _ _) others]
      · rfl
      · exact List.cons_ne_nil _ _

theorem isAbsolute_iff : p.isAbsolute = true ↔ ∃ rest, rest ≠ [] ∧ p.pieces = [] :: rest := by
  unfold isAbsolute pieces
  cases p.text.toList with
  | nil => simp [piecesOf]
  | cons c rest =>
    by_cases slash : c = '/'
    · simp [slash, piecesOf, piecesOf_ne_nil]
    · rw [piecesOf, if_neg slash]
      cases piecesOf rest <;> simp [slash]

theorem name_of_component? {piece : List Char} (named : component? piece = some (.name n)) : piece = n := by
  unfold component? at named
  split at named
  · cases named
  · split at named
    · cases named
    · cases named
      rfl

/-- Pieces without the idle ones at their end. -/
theorem exists_trim (ps : List (List Char)) : ∃ kept between, ps = kept ++ between ∧
    (∀ piece ∈ between, component? piece = none) ∧ dropIdle ps.reverse = kept.reverse ∧
      (kept = [] ∨ ∃ front last, kept = front ++ [last] ∧ component? last ≠ none) := by
  induction ps using List.reverseRecOn with
  | nil => exact ⟨[], [], rfl, nofun, rfl, .inl rfl⟩
  | append_singleton ps piece ih =>
    rw [List.reverse_concat, dropIdle, List.dropWhile_cons]
    cases idle : component? piece with
    | none =>
      obtain ⟨kept, between, rfl, idles, trimmed, last⟩ := ih
      refine ⟨kept, between ++ [piece], List.append_assoc _ _ _, ?_, trimmed, last⟩
      intro other mem
      rcases List.mem_append.mp mem with mem | mem
      · exact idles other mem
      · rwa [List.mem_singleton.mp mem]
    | some c =>
      refine ⟨ps ++ [piece], [], (List.append_nil _).symm, nofun, List.reverse_concat.symm, .inr ?_⟩
      exact ⟨ps, piece, rfl, by simp [idle]⟩

/-- Pieces that end with a name: what is in front of it, and idle pieces around it. -/
structure Ending (ps : List (List Char)) (n : List Char) (kept between after : List (List Char)) : Prop where
  parted : ps = kept ++ between ++ n :: after
  between_idle : ∀ piece ∈ between, component? piece = none
  after_idle : ∀ piece ∈ after, component? piece = none
  name : component? n = some (.name n)
  trimmed : dropIdle ps.reverse = n :: (kept ++ between).reverse
  front : dropIdle (kept ++ between).reverse = kept.reverse
  proper : kept = [] ∨ kept.filterMap component? ≠ []

theorem exists_ending {ps : List (List Char)}
    (named : (ps.filterMap component?).getLast? = some (.name n)) :
    ∃ kept between after, Ending ps n kept between after := by
  obtain ⟨whole, after, rfl, idles, trimmed, last⟩ := exists_trim ps
  have gone : after.filterMap component? = [] := List.filterMap_eq_nil_iff.mpr idles
  rw [List.filterMap_append, gone, List.append_nil] at named
  rcases last with rfl | ⟨init, last, rfl, proper⟩
  · cases named
  · obtain ⟨c, found⟩ := Option.ne_none_iff_exists'.mp proper
    rw [List.filterMap_append, List.filterMap_cons_some found, List.filterMap_nil,
      List.getLast?_concat, Option.some.injEq] at named
    subst named
    obtain rfl := name_of_component? found
    obtain ⟨kept, between, rfl, idles', front, last'⟩ := exists_trim init
    refine ⟨kept, between, after, ?_, idles', idles, found, ?_, front, ?_⟩
    · rw [List.append_assoc, List.singleton_append]
    · rw [trimmed, List.reverse_concat]
    · rcases last' with rfl | ⟨front', piece, rfl, proper'⟩
      · exact .inl rfl
      · right
        intro empty
        rw [List.filterMap_eq_nil_iff] at empty
        exact proper' (empty piece (by simp))

theorem Ending.components {ps kept between after : List (List Char)} (h : Ending ps n kept between after) :
    ps.filterMap component? = kept.filterMap component? ++ [.name n] := by
  rw [h.parted, List.filterMap_append, List.filterMap_append, List.filterMap_cons_some h.name,
    List.filterMap_eq_nil_iff.mpr h.between_idle, List.filterMap_eq_nil_iff.mpr h.after_idle,
    List.append_nil]

/-- What a path begins with: the root, a single dot, or neither. -/
def mark (p : Path) : List Char :=
  if p.isAbsolute then ['/'] else if p.pieces.head? == some ['.'] then ['.'] else []

def body (p : Path) : List (List Char) :=
  if p.isAbsolute || p.mark == ['.'] then p.pieces.drop 1 else p.pieces

def folderText (mark : List Char) : List (List Char) → Path
  | [] => ⟨String.ofList mark⟩
  | kept => ⟨String.ofList (if mark == ['.'] then '.' :: '/' :: joinPieces kept
      else mark ++ joinPieces kept)⟩

theorem slash_not_mem_body {piece : List Char} (mem : piece ∈ p.body) : '/' ∉ piece := by
  unfold body at mem
  split at mem
  · exact slash_not_mem_piece (List.mem_of_mem_drop mem)
  · exact slash_not_mem_piece mem

theorem parent?_eq {kept between after : List (List Char)} (h : Ending p.body n kept between after) :
    p.parent? = some (folderText p.mark kept) := by
  have trimmed := h.trimmed
  unfold body mark at trimmed
  unfold parent?
  dsimp only
  rw [trimmed]
  dsimp only
  rw [h.front, List.reverse_reverse]
  cases kept <;> rfl

/-- A path with the folder that it is in, as they are written. -/
inductive Beginning (p : Path) : Prop
  | absolute (h : p.isAbsolute = true) (mark : p.mark = ['/']) (pieces : p.pieces = [] :: p.body)
      (components : p.components = .root :: p.body.filterMap component?)
  | dot (h : p.isAbsolute = false) (mark : p.mark = ['.']) (pieces : p.pieces = ['.'] :: p.body)
      (components : p.components = .here :: p.body.filterMap component?)
  | plain (h : p.isAbsolute = false) (mark : p.mark = []) (pieces : p.pieces = p.body)
      (components : p.components = p.body.filterMap component?)

theorem beginning (p : Path) : Beginning p := by
  cases absolute : p.isAbsolute with
  | true =>
    obtain ⟨rest, _, parted⟩ := isAbsolute_iff.mp absolute
    have body_eq : p.body = rest := by simp [body, absolute, parted]
    refine .absolute absolute (by simp [mark, absolute]) (by rw [parted, body_eq]) ?_
    simp [components, absolute, parted, body_eq, component?]
  | false =>
    by_cases dot : p.pieces.head? = some ['.']
    · obtain ⟨rest, parted⟩ := List.head?_eq_some_iff.mp dot
      have mark_eq : p.mark = ['.'] := by simp [mark, absolute, dot]
      have body_eq : p.body = rest := by simp [body, mark_eq, parted]
      refine .dot absolute mark_eq (by rw [parted, body_eq]) ?_
      simp [components, absolute, parted, body_eq, component?]
    · have mark_eq : p.mark = [] := by simp [mark, absolute, dot]
      have body_eq : p.body = p.pieces := by simp [body, mark_eq, absolute]
      refine .plain absolute mark_eq body_eq.symm ?_
      simp [components, absolute, dot, body_eq]

/-- A path with the folder that it is in: the pieces of the folder, then the name between idle ones. -/
structure Within (p dir : Path) (front : List (List Char)) (n : List Char) : Prop where
  parent : p.parent? = some dir
  absolute : dir.isAbsolute = p.isAbsolute
  parted : ∃ between after, p.pieces = front ++ between ++ n :: after ∧
    ∀ piece ∈ between ++ after, component? piece = none
  name : component? n = some (.name n)
  folder : dir.isEmpty = true ∧ p.components.length = 1 ∨
    dir.isEmpty = false ∧ p.components.length ≠ 1 ∧ (dir.pieces = front ∨ dir.pieces = front ++ [[]])

section

variable {kept between after : List (List Char)} (h : Ending p.body n kept between after)

include h

theorem Ending.slash_not_mem : ∀ piece ∈ kept, '/' ∉ piece := by
  intro piece mem
  have listed : piece ∈ p.body := by simp [h.parted, mem]
  exact slash_not_mem_body listed

theorem Ending.parted_behind (front : List (List Char)) (pieces : p.pieces = front ++ p.body) :
    ∃ between after, p.pieces = front ++ kept ++ between ++ n :: after ∧
      ∀ piece ∈ between ++ after, component? piece = none := by
  refine ⟨between, after, ?_, ?_⟩
  · rw [pieces, h.parted]
    simp only [List.append_assoc]
  · intro piece mem
    rcases List.mem_append.mp mem with mem | mem
    · exact h.between_idle piece mem
    · exact h.after_idle piece mem

theorem Ending.several {first : Component}
    (components : p.components = first :: p.body.filterMap component?) : p.components.length ≠ 1 := by
  rw [components, h.components]
  simp

theorem Ending.within_absolute (absolute : p.isAbsolute = true) (mark : p.mark = ['/'])
    (pieces : p.pieces = [] :: p.body)
    (components : p.components = .root :: p.body.filterMap component?) :
    ∃ dir front, Within p dir front n := by
  have parent := parent?_eq h
  rw [mark] at parent
  have parted := h.parted_behind [[]] pieces
  refine ⟨_, _, parent, ?_, parted, h.name, .inr ⟨?_, h.several components, ?_⟩⟩
  · rw [absolute]
    cases kept <;> simp [folderText, isAbsolute]
  · cases kept <;> simp [folderText, isEmpty]
  · cases kept with
    | nil => exact .inr rfl
    | cons first rest =>
      left
      have kept_pieces := piecesOf_joinPieces (List.cons_ne_nil first rest) h.slash_not_mem
      simp [folderText, Path.pieces, piecesOf, kept_pieces]

theorem Ending.within_dot (absolute : p.isAbsolute = false) (mark : p.mark = ['.'])
    (pieces : p.pieces = ['.'] :: p.body)
    (components : p.components = .here :: p.body.filterMap component?) :
    ∃ dir front, Within p dir front n := by
  have parent := parent?_eq h
  rw [mark] at parent
  have parted := h.parted_behind [['.']] pieces
  refine ⟨_, _, parent, ?_, parted, h.name, .inr ⟨?_, h.several components, .inl ?_⟩⟩
  · rw [absolute]
    cases kept <;> simp [folderText, isAbsolute]
  · cases kept <;> simp [folderText, isEmpty]
  · cases kept with
    | nil => rfl
    | cons first rest =>
      have kept_pieces := piecesOf_joinPieces (List.cons_ne_nil first rest) h.slash_not_mem
      simp [folderText, Path.pieces, piecesOf, kept_pieces]

theorem Ending.within_plain (absolute : p.isAbsolute = false) (mark : p.mark = [])
    (pieces : p.pieces = p.body) (components : p.components = p.body.filterMap component?) :
    ∃ dir front, Within p dir front n := by
  have parent := parent?_eq h
  rw [mark] at parent
  have parted := h.parted_behind [] pieces
  cases kept with
  | nil =>
    refine ⟨_, _, parent, absolute.symm, parted, h.name, .inl ⟨rfl, ?_⟩⟩
    rw [components, h.components]
    rfl
  | cons first rest =>
    have kept_pieces : (folderText [] (first :: rest)).pieces = first :: rest := by
      have joined := piecesOf_joinPieces (List.cons_ne_nil first rest) h.slash_not_mem
      simp [folderText, Path.pieces, joined]
    have proper : (first :: rest).filterMap component? ≠ [] := by
      rcases h.proper with none | proper
      · cases none
      · exact proper
    refine ⟨_, _, parent, ?_, parted, h.name, .inr ⟨?_, ?_, .inl kept_pieces⟩⟩
    · rw [absolute, Bool.eq_false_iff]
      intro rooted
      obtain ⟨more, _, begins⟩ := isAbsolute_iff.mp rooted
      rw [kept_pieces, List.cons.injEq] at begins
      have also : p.isAbsolute = true :=
        isAbsolute_iff.mpr ⟨rest ++ between ++ n :: after, by simp, by rw [pieces, h.parted, begins.1]; simp⟩
      rw [absolute] at also
      cases also
    · rw [isEmpty, beq_eq_false_iff_ne]
      intro empty
      rw [Path.pieces, empty] at kept_pieces
      rw [← kept_pieces] at proper
      exact proper rfl
    · rw [components, h.components]
      intro single
      rw [List.length_append, List.length_singleton] at single
      exact proper (List.eq_nil_of_length_eq_zero (by omega))

end

theorem within_of_fileName? (named : p.fileName? = some n) : ∃ dir front, Within p dir front n := by
  have last := getLast?_components.mp (fileName?_eq_some.mp named)
  cases beginning p with
  | absolute absolute mark pieces components =>
    rw [pieces, List.filterMap_cons_none rfl] at last
    obtain ⟨kept, between, after, ending⟩ := exists_ending last
    exact ending.within_absolute absolute mark pieces components
  | dot absolute mark pieces components =>
    rw [pieces, List.filterMap_cons_none rfl] at last
    obtain ⟨kept, between, after, ending⟩ := exists_ending last
    exact ending.within_dot absolute mark pieces components
  | plain absolute mark pieces components =>
    rw [pieces] at last
    obtain ⟨kept, between, after, ending⟩ := exists_ending last
    exact ending.within_plain absolute mark pieces components

section

variable {q : Path} (filled : dir.isEmpty = false) (relative : q.isAbsolute = false)

include filled relative

theorem pieces_join : ∃ front, (dir.join q).pieces = front ++ q.pieces ∧
    (dir.pieces = front ∨ dir.pieces = front ++ [[]]) := by
  unfold join
  rw [relative, filled, Bool.false_or, if_neg Bool.false_ne_true]
  split
  · rename_i slash
    obtain ⟨front, ends⟩ := List.getLast?_eq_some_iff.mp (eq_of_beq slash)
    refine ⟨piecesOf front, ?_, .inr ?_⟩
    · rw [pieces, String.toList_append, ends, List.append_assoc, List.singleton_append, piecesOf_slash]
      rfl
    · rw [pieces, ends, piecesOf_slash]
      rfl
  · refine ⟨dir.pieces, ?_, .inl rfl⟩
    rw [pieces, String.toList_append, String.toList_append, List.append_assoc]
    exact piecesOf_slash _ _

theorem isAbsolute_join : (dir.join q).isAbsolute = dir.isAbsolute := by
  have begun : dir.text.toList ≠ [] := by simpa [isEmpty] using filled
  unfold join
  rw [relative, filled, Bool.false_or, if_neg Bool.false_ne_true]
  split
  · simp [isAbsolute, List.head?_append_of_ne_nil _ begun]
  · simp [isAbsolute, List.head?_append_of_ne_nil _ begun]

end

end Path

namespace FileTree

variable {t : FileTree} {here place : Location} {p q dir : Path} {front : List (List Char)}
  {n : List Char}

theorem walk_idle {ps : List (List Char)} (idle : ∀ piece ∈ ps, Path.component? piece = none)
    (walked : t.walk here ps = some place) : place = here := by
  rw [walk_eq_follow walked, follow_eq, List.filterMap_eq_nil_iff.mpr idle]
  rfl

/-- The folder of a path leads to the folder that its file is in. -/
theorem walk_folder (within : Path.Within p dir front n) (filled : dir.isEmpty = false)
    (walked : t.walk (t.start p) p.pieces = some place) :
    t.walk (t.start dir) dir.pieces = some place.dropLast := by
  have start_eq : t.start dir = t.start p := by rw [start, start, within.absolute]
  obtain ⟨between, after, parted, idle⟩ := within.parted
  obtain ⟨between_idle, after_idle⟩ := List.forall_mem_append.mp idle
  rw [parted, walk_append, walk_append, Option.bind_assoc] at walked
  obtain ⟨folder, reached, behind⟩ := Option.bind_eq_some_iff.mp walked
  obtain ⟨same, idles, named⟩ := Option.bind_eq_some_iff.mp behind
  obtain rfl := walk_idle between_idle idles
  have there : t.isFolder same = true := isFolder_of_walk named
  have place_eq : place = same ++ [n] := by
    rw [walk_eq_follow named, follow_eq, List.filterMap_cons_some within.name,
      List.filterMap_eq_nil_iff.mpr after_idle]
    rfl
  rw [start_eq, place_eq, List.dropLast_concat]
  rcases within.folder with ⟨empty, _⟩ | ⟨_, _, written | written⟩
  · rw [filled] at empty
    cases empty
  · rw [written, reached]
  · rw [written, walk_append, reached, Option.bind_some, walk_cons, if_pos ⟨there, .inl rfl⟩]
    rfl

theorem walk_join (filled : dir.isEmpty = false) (relative : q.isAbsolute = false)
    (walked : t.walk (t.start dir) dir.pieces = some here) :
    t.walk (t.start (dir.join q)) (dir.join q).pieces = t.walk here q.pieces := by
  have start_eq : t.start (dir.join q) = t.start dir := by
    rw [start, start, Path.isAbsolute_join filled relative]
  obtain ⟨front, joined, written⟩ := Path.pieces_join filled relative
  have reached : t.walk (t.start dir) front = some here := by
    rcases written with written | written
    · rwa [← written]
    · rw [written, walk_append] at walked
      obtain ⟨folder, reached, walked⟩ := Option.bind_eq_some_iff.mp walked
      rwa [walk_idle (by simp [Path.component?]) walked]
  rw [start_eq, joined, walk_append, reached, Option.bind_some]

theorem isUsable_of_isFile (present : t.isFile p = true) : isUsable p = true := by
  by_contra unusable
  rw [isFile, file?, find?, if_neg unusable] at present
  cases present

/-- The place of a file that a name leads to from the folder in which another file is. -/
def beside? (t : FileTree) (file name : Path) : Option Location :=
  (t.find? file).bind fun place =>
    (t.walk place.dropLast name.pieces).filter fun l => (t.fileAt? l).isSome

theorem find?_join_of_beside (within : Path.Within p dir front n) (filled : dir.isEmpty = false)
    (relative : q.isAbsolute = false) (usable : isUsable (dir.join q) = true)
    (beside : t.beside? p q = some place) :
    t.find? (dir.join q) = some place ∧ t.isFile (dir.join q) = true := by
  obtain ⟨own, found, beside⟩ := Option.bind_eq_some_iff.mp beside
  obtain ⟨walked, there⟩ := Option.filter_eq_some_iff.mp beside
  have own_walked : t.walk (t.start p) p.pieces = some own := by
    unfold find? at found
    split at found
    · exact found
    · cases found
  have joined := walk_join filled relative (walk_folder within filled own_walked)
  have leads : t.find? (dir.join q) = some place := by rw [find?, if_pos usable, joined, walked]
  refine ⟨leads, ?_⟩
  rw [isFile, file?, leads]
  exact there

end FileTree

end RuleRegistry
