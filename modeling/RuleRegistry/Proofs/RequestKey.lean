import Mathlib.Data.Finset.Dedup
import Mathlib.Data.List.Chain
import Mathlib.Data.String.Basic
import RuleRegistry.Expr.Language
import RuleRegistry.Proofs.Readable

namespace RuleRegistry

section Runs

variable {α : Type} [BEq α]

theorem eraseReps_loop (a : α) (rest kept : List α) :
    List.eraseRepsBy.loop (· == ·) a rest kept =
      kept.reverse ++ List.eraseRepsBy.loop (· == ·) a rest [] := by
  induction rest generalizing a kept with
  | nil => simp [List.eraseRepsBy.loop]
  | cons b rest ih =>
    simp only [List.eraseRepsBy.loop]
    cases a == b with
    | true => exact ih a kept
    | false => rw [ih b (a :: kept), ih b [a], List.reverse_cons, List.append_assoc]; rfl

theorem eraseReps_cons_cons (a b : α) (rest : List α) :
    (a :: b :: rest).eraseReps =
      if a == b then (a :: rest).eraseReps else a :: (b :: rest).eraseReps := by
  simp only [List.eraseReps, List.eraseRepsBy, List.eraseRepsBy.loop]
  cases a == b with
  | true => rfl
  | false => exact eraseReps_loop b rest [a]

theorem mem_eraseReps [LawfulBEq α] {x : α} (l : List α) : x ∈ l.eraseReps ↔ x ∈ l := by
  induction l with
  | nil => rfl
  | cons a rest ih =>
    cases rest with
    | nil => simp [List.eraseReps, List.eraseRepsBy, List.eraseRepsBy.loop]
    | cons b rest =>
      rw [eraseReps_cons_cons]
      split
      · rename_i same
        obtain rfl := eq_of_beq same
        rw [ih]
        simp
      · rw [List.mem_cons, ih, ← List.mem_cons]

end Runs

def sortedNames (names : List String) : List String :=
  (names.mergeSort fun a b => decide (a ≤ b)).eraseReps

theorem requestKey_eq (source : String) (names : List String) :
    requestKey source names = source ++ "//" ++ ",".intercalate (sortedNames names) := rfl

theorem mem_sortedNames {name : String} {names : List String} :
    name ∈ sortedNames names ↔ name ∈ names := by
  rw [sortedNames, mem_eraseReps, List.mem_mergeSort]

theorem pairwise_eraseReps {names : List String} (sorted : names.Pairwise (· ≤ ·)) :
    names.eraseReps.Pairwise (· < ·) := by
  induction names with
  | nil => exact .nil
  | cons a rest ih =>
    obtain ⟨least, others⟩ := List.pairwise_cons.mp sorted
    cases rest with
    | nil => exact List.pairwise_singleton _ a
    | cons b rest =>
      rw [eraseReps_cons_cons]
      split
      · rename_i same
        obtain rfl := eq_of_beq same
        exact ih others
      · rename_i other
        have below : a < b := lt_of_le_of_ne (least b List.mem_cons_self) (by simpa using other)
        refine List.pairwise_cons.mpr ⟨fun x hx => ?_, ih others⟩
        rcases List.mem_cons.mp ((mem_eraseReps _).mp hx) with rfl | hx
        · exact below
        · exact lt_of_lt_of_le below ((List.pairwise_cons.mp others).1 x hx)

theorem pairwise_sortedNames (names : List String) : (sortedNames names).Pairwise (· < ·) := by
  refine pairwise_eraseReps ?_
  have sorted : (names.mergeSort fun a b => decide (a ≤ b)).Pairwise fun a b => decide (a ≤ b) = true :=
    List.pairwise_mergeSort (fun a b c => by simpa using le_trans)
      (fun a b => by simpa using le_total a b) names
  simpa using sorted

/-- Sorted names without repeats are determined by what is among them. -/
theorem eq_of_pairwise_of_mem {names names' : List String} (sorted : names.Pairwise (· < ·))
    (sorted' : names'.Pairwise (· < ·)) (same : ∀ n, n ∈ names ↔ n ∈ names') : names = names' := by
  have perm : names.Perm names' :=
    (List.perm_ext_iff_of_nodup (sorted.imp ne_of_lt) (sorted'.imp ne_of_lt)).mpr same
  exact perm.eq_of_pairwise (fun a b _ _ less more => absurd more (lt_asymm less)) sorted sorted'

theorem sortedNames_eq_self {names : List String} (sorted : names.Pairwise (· < ·)) :
    sortedNames names = names :=
  eq_of_pairwise_of_mem (pairwise_sortedNames names) sorted fun _ => mem_sortedNames

/-- Two lists of names are sorted alike exactly when they have the same names. -/
theorem sortedNames_eq_iff {names names' : List String} :
    sortedNames names = sortedNames names' ↔ names.toFinset = names'.toFinset := by
  constructor
  · intro same
    ext name
    rw [List.mem_toFinset, List.mem_toFinset, ← mem_sortedNames, same, mem_sortedNames]
  · intro same
    apply eq_of_pairwise_of_mem (pairwise_sortedNames names) (pairwise_sortedNames names')
    intro name
    rw [mem_sortedNames, mem_sortedNames, ← List.mem_toFinset, same, List.mem_toFinset]

theorem requestKey_congr {source : String} {names names' : List String}
    (same : names.toFinset = names'.toFinset) : requestKey source names = requestKey source names' := by
  rw [requestKey_eq, requestKey_eq, sortedNames_eq_iff.mpr same]

/-- The names of a key as one text. -/
def joinedNames (names : List String) : List Char :=
  [','].intercalate ((sortedNames names).map String.toList)

theorem toList_requestKey (source : String) (names : List String) :
    (requestKey source names).toList = source.toList ++ '/' :: '/' :: joinedNames names := by
  simp [requestKey_eq, String.toList_intercalate, joinedNames]

/-- What stands between commas in the names of a key: one empty part when there are no names. -/
def nameParts (names : List String) : List (List Char) :=
  if names = [] then [[]] else (sortedNames names).flatMap fun n => n.toList.splitOn ','

theorem splitOn_intercalate_parts {parts : List (List Char)} (some_part : parts ≠ []) :
    ([','].intercalate parts).splitOn ',' = parts.flatMap fun p => p.splitOn ',' := by
  induction parts with
  | nil => exact absurd rfl some_part
  | cons part rest ih =>
    cases rest with
    | nil => simp [List.intercalate]
    | cons next rest =>
      have others := ih (List.cons_ne_nil _ _)
      rw [List.intercalate_cons_cons, List.append_assoc, List.singleton_append,
        List.splitOn_append_cons_self, others]
      rfl

theorem sortedNames_eq_nil {names : List String} : sortedNames names = [] ↔ names = [] := by
  simp only [List.eq_nil_iff_forall_not_mem, mem_sortedNames]

theorem splitOn_joinedNames (names : List String) :
    (joinedNames names).splitOn ',' = nameParts names := by
  unfold nameParts joinedNames
  split
  · rename_i empty
    rw [sortedNames_eq_nil.mpr empty]
    rfl
  · rename_i some_name
    have some_part : (sortedNames names).map String.toList ≠ [] := by
      simpa [sortedNames_eq_nil] using some_name
    rw [splitOn_intercalate_parts some_part, List.flatMap_map]

theorem joinedNames_eq_iff {names names' : List String} :
    joinedNames names = joinedNames names' ↔ nameParts names = nameParts names' := by
  rw [← splitOn_joinedNames, ← splitOn_joinedNames]
  constructor
  · exact congrArg _
  · intro same
    have joined := congrArg ([','].intercalate) same
    rwa [List.intercalate_splitOn, List.intercalate_splitOn] at joined

/-- A text and what follows it behind two slashes that read also as a longer text and less behind it:
the longer text takes a slash or all up to the next two. -/
inductive RunsOn (front : List Char) : List Char → List Char → List Char → Prop
  | slash (back : List Char) : RunsOn front ('/' :: back) (front ++ ['/']) back
  | slashes (taken back : List Char) :
      RunsOn front (taken ++ '/' :: '/' :: back) (front ++ '/' :: '/' :: taken) back

theorem slashes_append {between back back' : List Char} (front : List Char)
    (same : '/' :: '/' :: back = between ++ '/' :: '/' :: back') :
    between = [] ∧ back = back' ∨ RunsOn front back (front ++ between) back' := by
  cases between with
  | nil =>
    cases same
    exact .inl ⟨rfl, rfl⟩
  | cons c between =>
    cases between with
    | nil =>
      cases same
      exact .inr (.slash back')
    | cons d taken =>
      cases same
      exact .inr (.slashes taken back')

theorem slashes_eq_iff {front back front' back' : List Char} :
    front ++ '/' :: '/' :: back = front' ++ '/' :: '/' :: back' ↔
      front = front' ∧ back = back' ∨ RunsOn front back front' back' ∨
        RunsOn front' back' front back := by
  constructor
  · intro same
    rcases List.append_eq_append_iff.mp same with ⟨between, rfl, more⟩ | ⟨between, rfl, more⟩
    · rcases slashes_append front more with ⟨rfl, backs⟩ | longer
      · exact .inl ⟨(List.append_nil _).symm, backs⟩
      · exact .inr (.inl longer)
    · rcases slashes_append front' more with ⟨rfl, backs⟩ | longer
      · exact .inl ⟨List.append_nil _, backs.symm⟩
      · exact .inr (.inr longer)
  · rintro (⟨rfl, rfl⟩ | longer | longer)
    · rfl
    · cases longer <;> simp
    · cases longer <;> simp

/-- No slash stands behind a slash. -/
def SingleSlashes (cs : List Char) : Prop := cs.IsChain fun c d => c ≠ '/' ∨ d ≠ '/'

/-- A name that a key tells from the names beside it and from the slashes in front of it. -/
structure PlainName (n : String) : Prop where
  some_char : n ≠ ""
  no_comma : ',' ∉ n.toList
  single : SingleSlashes ('/' :: n.toList)

theorem singleSlashes_intercalate {parts : List (List Char)}
    (each : ∀ p ∈ parts, SingleSlashes ('/' :: p)) : SingleSlashes ('/' :: [','].intercalate parts) := by
  induction parts with
  | nil => exact .singleton _
  | cons part rest ih =>
    obtain ⟨first, others⟩ := List.forall_mem_cons.mp each
    cases rest with
    | nil => simpa [List.intercalate] using first
    | cons next rest =>
      have behind : SingleSlashes (',' :: [','].intercalate (next :: rest)) := by
        have joined := ih others
        unfold SingleSlashes at joined ⊢
        apply List.isChain_cons.mpr
        exact ⟨fun d _ => .inl (by decide), (List.isChain_cons.mp joined).2⟩
      rw [List.intercalate_cons_cons, List.append_assoc, List.singleton_append, ← List.cons_append]
      apply List.isChain_append.mpr
      refine ⟨first, behind, fun c _ d head => .inr ?_⟩
      cases head
      decide

theorem singleSlashes_of_not_mem {cs : List Char} (no_slash : '/' ∉ cs) (c : Char) :
    SingleSlashes (c :: cs) := by
  induction cs generalizing c with
  | nil => exact .singleton c
  | cons d rest ih =>
    obtain ⟨other, others⟩ := not_or.mp fun here => no_slash (List.mem_cons.mpr here)
    exact List.isChain_cons_cons.mpr ⟨.inr (Ne.symm other), ih others d⟩

theorem not_runsOn_of_single {front back front' back' : List Char}
    (single : SingleSlashes ('/' :: back)) : ¬ RunsOn front back front' back' := by
  have apart (before behind : List Char) : ¬ SingleSlashes (before ++ '/' :: '/' :: behind) := by
    intro chain
    have pair := (List.isChain_append.mp chain).2.1
    simp at pair
  rintro (_ | ⟨taken⟩)
  · exact apart [] _ single
  · rw [← List.cons_append] at single
    exact apart _ _ single

theorem single_joinedNames {names : List String} (plain : ∀ n ∈ names, PlainName n) :
    SingleSlashes ('/' :: joinedNames names) := by
  apply singleSlashes_intercalate
  intro part listed
  obtain ⟨n, mem, rfl⟩ := List.mem_map.mp listed
  exact (plain n (mem_sortedNames.mp mem)).single

theorem nameParts_of_plain {names : List String} (plain : ∀ n ∈ names, PlainName n)
    (some_name : names ≠ []) : nameParts names = (sortedNames names).map String.toList := by
  rw [nameParts, if_neg some_name, List.map_eq_flatMap]
  apply List.flatMap_congr
  intro n mem
  exact List.splitOn_eq_singleton (plain n (mem_sortedNames.mp mem)).no_comma

theorem sortedNames_of_nameParts {names names' : List String} (plain : ∀ n ∈ names, PlainName n)
    (plain' : ∀ n ∈ names', PlainName n) (same : nameParts names = nameParts names') :
    sortedNames names = sortedNames names' := by
  -- One empty part stands for no names, since no name is empty.
  have other {names : List String} (plain : ∀ n ∈ names, PlainName n) (some_name : names ≠ []) :
      nameParts names ≠ [[]] := by
    intro empty
    rw [nameParts_of_plain plain some_name] at empty
    obtain ⟨n, _, one, bare, _⟩ := List.map_eq_cons_iff.mp empty
    have mem : n ∈ names := mem_sortedNames.mp (one ▸ List.mem_cons_self)
    exact (plain n mem).some_char (String.toList_eq_nil_iff.mp bare)
  have no_names : nameParts [] = [[]] := rfl
  by_cases empty : names = []
  · by_cases empty' : names' = []
    · rw [empty, empty']
    · subst empty
      exact absurd (same.symm.trans no_names) (other plain' empty')
  · by_cases empty' : names' = []
    · subst empty'
      exact absurd (same.trans no_names) (other plain empty)
    · rw [nameParts_of_plain plain empty, nameParts_of_plain plain' empty'] at same
      exact List.map_injective_iff.mpr (fun _ _ => String.toList_injective) same

/-- Requests have the same key when they have the same text and the same parts of names, or when one
of the texts runs on into the names of the other. -/
theorem requestKey_eq_iff_parts {source source' : String} {names names' : List String} :
    requestKey source names = requestKey source' names' ↔
      source = source' ∧ nameParts names = nameParts names' ∨
        RunsOn source.toList (joinedNames names) source'.toList (joinedNames names') ∨
        RunsOn source'.toList (joinedNames names') source.toList (joinedNames names) := by
  rw [← String.toList_inj, toList_requestKey, toList_requestKey, slashes_eq_iff, String.toList_inj,
    joinedNames_eq_iff]

/-- On plain names, requests have the same key exactly when they have the same text and the same set
of names. -/
theorem requestKey_eq_iff_of_plain {source source' : String} {names names' : List String}
    (plain : ∀ n ∈ names, PlainName n) (plain' : ∀ n ∈ names', PlainName n) :
    requestKey source names = requestKey source' names' ↔
      source = source' ∧ names.toFinset = names'.toFinset := by
  constructor
  · intro same
    rcases requestKey_eq_iff_parts.mp same with ⟨sources, parts⟩ | longer | longer
    · exact ⟨sources, sortedNames_eq_iff.mp (sortedNames_of_nameParts plain plain' parts)⟩
    · exact absurd longer (not_runsOn_of_single (single_joinedNames plain))
    · exact absurd longer (not_runsOn_of_single (single_joinedNames plain'))
  · rintro ⟨rfl, same⟩
    exact requestKey_congr same

theorem Expr.IsWord.not_mem {w : List Char} (word : Expr.IsWord w) {c : Char}
    (other : Expr.Parser.isWordChar c = false) : c ∉ w := by
  obtain ⟨first, rest, rfl, start, all⟩ := word
  have whole : ∀ d ∈ first :: rest, Expr.Parser.isWordChar d = true :=
    List.forall_mem_cons.mpr ⟨by rw [Expr.Parser.isWordChar, start, Bool.true_or], all⟩
  intro mem
  rw [whole c mem] at other
  cases other

theorem Expr.IsWord.plainName {n : String} (word : Expr.IsWord n.toList) : PlainName n where
  some_char := by
    rintro rfl
    obtain ⟨_, _, empty, _⟩ := word
    cases empty
  no_comma := word.not_mem (by decide)
  single := singleSlashes_of_not_mem (word.not_mem (by decide)) '/'

theorem requestKey_eq_iff {source source' : String} {names names' : List String}
    (words : ∀ n ∈ names, Expr.IsWord n.toList) (words' : ∀ n ∈ names', Expr.IsWord n.toList) :
    requestKey source names = requestKey source' names' ↔
      source = source' ∧ names.toFinset = names'.toFinset :=
  requestKey_eq_iff_of_plain (fun n mem => (words n mem).plainName)
    fun n mem => (words' n mem).plainName

end RuleRegistry
