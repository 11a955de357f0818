import Mathlib.Data.List.Induction
import RuleRegistry.Proofs.Flattening

namespace RuleRegistry

namespace Path

theorem same_refl (p : Path) : p.same p = true := beq_self_eq_true _

theorem same_trans {p q r : Path} (one : p.same q = true) (other : q.same r = true) :
    p.same r = true :=
  beq_iff_eq.mpr ((eq_of_beq one).trans (eq_of_beq other))

end Path

namespace Collection

section

variable (seen files others : List Path)

/-- The files seen so far, with those of further files that are not the same as one of them. -/
def seeing : List Path :=
  files.foldl (fun seen p => if seen.any (Path.same p) then seen else seen ++ [p]) seen

theorem seeing_append : seeing seen (files ++ others) = seeing (seeing seen files) others :=
  List.foldl_append

theorem seeing_concat (p : Path) :
    seeing seen (files ++ [p]) = if (seeing seen files).any (Path.same p) then seeing seen files
      else seeing seen files ++ [p] :=
  seeing_append seen files [p]

theorem any_seeing (p : Path) :
    (seeing seen files).any (Path.same p) = (seen.any (Path.same p) || files.any (Path.same p)) := by
  induction files using List.reverseRecOn with
  | nil => simp [seeing]
  | append_singleton files q ih =>
    rw [seeing_concat, List.any_append, ← Bool.or_assoc, ← ih]
    split
    · rename_i known
      -- What is the same as a file that is known is known by the same entry.
      obtain ⟨r, there, alike⟩ := List.any_eq_true.mp known
      cases same : p.same q with
      | false => simp [same]
      | true =>
        have found := List.any_eq_true.mpr ⟨r, there, Path.same_trans same alike⟩
        rw [found, Bool.true_or]
    · rw [List.any_append]

theorem seeing_of_known {seen files : List Path}
    (known : ∀ p ∈ files, seen.any (Path.same p) = true) : seeing seen files = seen := by
  induction files with
  | nil => rfl
  | cons p rest ih =>
    obtain ⟨first, others⟩ := List.forall_mem_cons.mp known
    rw [seeing, List.foldl_cons, if_pos first]
    exact ih others

/-- Files that are made distinct first add the same as they are. -/
theorem seeing_distinct : seeing seen (distinct files) = seeing seen files := by
  induction files using List.reverseRecOn with
  | nil => rfl
  | append_singleton files p ih =>
    have known_iff : (distinct files).any (Path.same p) = files.any (Path.same p) :=
      any_seeing [] files p
    have step : distinct (files ++ [p]) =
        if (distinct files).any (Path.same p) then distinct files else distinct files ++ [p] :=
      seeing_concat [] files p
    rw [step, seeing_concat, known_iff, any_seeing]
    by_cases known : files.any (Path.same p) = true
    · rw [if_pos known, if_pos (by rw [known, Bool.or_true])]
      exact ih
    · rw [if_neg known, seeing_concat, ih, any_seeing]

theorem distinct_append_distinct : distinct (files ++ distinct others) = distinct (files ++ others) :=
  calc distinct (files ++ distinct others)
    _ = seeing (distinct files) (distinct others) := seeing_append [] files _
    _ = seeing (distinct files) others := seeing_distinct _ others
    _ = distinct (files ++ others) := (seeing_append [] files others).symm

theorem distinct_distinct_append : distinct (distinct files ++ others) = distinct (files ++ others) := by
  have again : distinct (distinct files) = distinct files := seeing_distinct [] files
  calc distinct (distinct files ++ others)
    _ = seeing (distinct (distinct files)) others := seeing_append [] _ _
    _ = seeing (distinct files) others := by rw [again]
    _ = distinct (files ++ others) := (seeing_append [] files others).symm

theorem distinct_append_self : distinct (files ++ files) = distinct files := by
  have known : ∀ p ∈ files, (distinct files).any (Path.same p) = true := by
    intro p mem
    have listed : files.any (Path.same p) = true := List.any_eq_true.mpr ⟨p, mem, p.same_refl⟩
    exact (any_seeing [] files p).trans listed
  exact (seeing_append [] files files).trans (seeing_of_known known)

end

variable {a b : Collection}

theorem filter_not_mem_self (es : Entries Rule) :
    es.filter (fun e => !(Entries.keys es).contains e.1) = [] := by
  rw [List.filter_eq_nil_iff]
  intro e mem
  have named : e.1 ∈ Entries.keys es := List.mem_map_of_mem mem
  simpa using named

theorem moveAll_nil_of_nodup {es : Entries Rule} (h : (Entries.keys es).Nodup) :
    Entries.moveAll [] es = es :=
  Entries.moveAll_of_nodup (by simpa using h)

theorem rules_merge_of_nodup (a : Collection) (hb : b.names.Nodup) :
    (a.merge b).rules = a.rules.filter (fun e => !b.names.contains e.1) ++ b.rules := by
  rw [rules_merge, Entries.moveAll_eq, moveAll_nil_of_nodup hb]
  rfl

theorem rules_merge_assoc (a : Collection) (hb : b.names.Nodup) (c : Collection) :
    ((a.merge b).merge c).rules = (a.merge (b.merge c)).rules := by
  have inner : (b.merge c).rules = Entries.moveAll [] (b.rules ++ c.rules) := by
    rw [rules_merge, Entries.moveAll_append, moveAll_nil_of_nodup hb]
  calc ((a.merge b).merge c).rules
    _ = Entries.moveAll (Entries.moveAll a.rules b.rules) c.rules := by rw [rules_merge, rules_merge]
    _ = Entries.moveAll a.rules (b.rules ++ c.rules) := (Entries.moveAll_append _ _ _).symm
    _ = Entries.moveAll a.rules (Entries.moveAll [] (b.rules ++ c.rules)) :=
      (Entries.moveAll_moveAll _ _).symm
    _ = (a.merge (b.merge c)).rules := by rw [rules_merge, inner]

/-- The same rules in the same order, and the same distinct files. -/
structure Alike (c d : Collection) : Prop where
  rules : c.rules = d.rules
  resources : c.resources = d.resources

theorem resources_merge (a b : Collection) :
    (a.merge b).resources = distinct (a.resources ++ b.resources) := by
  rw [resources, files_merge, resources, resources, distinct_append_distinct,
    distinct_distinct_append]

theorem alike_merge_assoc (a : Collection) (hb : b.names.Nodup) (c : Collection) :
    Alike ((a.merge b).merge c) (a.merge (b.merge c)) := by
  constructor
  · exact rules_merge_assoc a hb c
  · rw [resources, resources, files_merge, files_merge, files_merge, files_merge, List.append_assoc]

theorem alike_empty_merge (hb : b.names.Nodup) : Alike (empty.merge b) b := by
  constructor
  · exact (rules_merge _ _).trans (moveAll_nil_of_nodup hb)
  · rw [resources, files_merge]
    rfl

theorem alike_merge_empty (a : Collection) : Alike (a.merge empty) a := by
  constructor
  · rfl
  · rw [resources, files_merge, empty, List.append_nil]
    rfl

theorem alike_merge_self (ha : a.names.Nodup) : Alike (a.merge a) a := by
  constructor
  · rw [rules_merge_of_nodup a ha, names, filter_not_mem_self, List.nil_append]
  · rw [resources, files_merge, distinct_append_self]
    rfl

theorem rules_foldl_addFile (files : List Path) (c : Collection) :
    (files.foldl addFile c).rules = c.rules := by
  induction files generalizing c with
  | nil => rfl
  | cons file rest ih => exact ih (c.addFile file)

theorem files_foldl_addFile (files : List Path) (c : Collection) :
    (files.foldl addFile c).files = c.files ++ files := by
  induction files generalizing c with
  | nil => exact (List.append_nil _).symm
  | cons file rest ih => exact (ih (c.addFile file)).trans (List.append_assoc _ [file] rest)

theorem alike_merge_each (a b : Collection) : Alike (a.merge b)
    (b.resources.foldl addFile (b.rules.foldl (fun acc e => acc.add e.1 e.2) a)) := by
  constructor
  · rw [rules_foldl_addFile, rules_merge, rules_foldl_add]
  · rw [resources, resources, files_foldl_addFile, files_merge, files_foldl_add, resources,
      distinct_append_distinct]

/-- Names are not repeated in a collection, so the laws hold of every one that there is. -/
theorem merge_algebra (ha : a.names.Nodup) (hb : b.names.Nodup) (c : Collection) :
    (a.merge b).rules = a.rules.filter (fun e => e.1 ∉ b.names) ++ b.rules ∧
    (a.merge b).resources = (a.resources ++ b.resources).eraseDupsBy Path.same ∧
    Alike ((a.merge b).merge c) (a.merge (b.merge c)) ∧
    Alike (empty.merge b) b ∧ Alike (a.merge empty) a ∧
    Alike (a.merge a) a ∧
    Alike (a.merge b)
      (b.resources.foldl addFile (b.rules.foldl (fun acc e => acc.add e.1 e.2) a)) := by
  refine ⟨?_, ?_, alike_merge_assoc a hb c, alike_empty_merge hb, alike_merge_empty a,
    alike_merge_self ha, alike_merge_each a b⟩
  · rw [rules_merge_of_nodup a hb]
    congr 1
    refine List.filter_congr ?_
    intro e _
    rw [Bool.eq_iff_iff]
    simp
  · rw [resources_merge, distinct_eq]

def leftSample : Collection :=
  ⟨[("x", ⟨"1", []⟩), ("y", ⟨"2", []⟩), ("z", ⟨"3", []⟩)], [⟨"a//b"⟩, ⟨"./c"⟩]⟩

def rightSample : Collection := ⟨[("w", ⟨"4", []⟩), ("y", ⟨"5", []⟩)], [⟨"c"⟩, ⟨"a/b/"⟩]⟩

def thirdSample : Collection := ⟨[("y", ⟨"6", []⟩), ("x", ⟨"7", []⟩)], [⟨"a/./b"⟩]⟩

theorem merge_algebra_overlapping : leftSample.names.Nodup ∧ rightSample.names.Nodup ∧
    (leftSample.merge rightSample).names = ["x", "z", "w", "y"] ∧
    (leftSample.merge rightSample).resources = [⟨"a//b"⟩, ⟨"./c"⟩, ⟨"c"⟩] ∧
    Alike ((leftSample.merge rightSample).merge thirdSample)
      (leftSample.merge (rightSample.merge thirdSample)) ∧
    Alike (leftSample.merge leftSample) leftSample := by
  have left_once : leftSample.names.Nodup := by decide
  have right_once : rightSample.names.Nodup := by decide
  obtain ⟨rules, resources, assoc, _, _, self, _⟩ := merge_algebra left_once right_once thirdSample
  refine ⟨left_once, right_once, ?_, ?_, assoc, self⟩
  · rw [names, rules]
    decide
  · rw [resources]
    decide

end Collection

end RuleRegistry
