import RuleRegistry.Collection

namespace RuleRegistry

namespace Value

/-- Induction on a value: what holds of the values in a list or a map holds of it. -/
theorem nested {P : Value → Prop} (null : P .null) (bool : ∀ b, P (.bool b)) (int : ∀ n, P (.int n))
    (float : ∀ x, P (.float x)) (string : ∀ s, P (.string s))
    (list : ∀ items, (∀ v ∈ items, P v) → P (.list items))
    (map : ∀ entries, (∀ e ∈ entries, P e.2) → P (.map entries)) (v : Value) : P v :=
  @Value.rec P (fun items => ∀ v ∈ items, P v) (fun entries => ∀ e ∈ entries, P e.2) (fun e => P e.2)
    null bool int float string list map (by simp)
    (fun _ _ first others => List.forall_mem_cons.mpr ⟨first, others⟩) (by simp)
    (fun _ _ first others => List.forall_mem_cons.mpr ⟨first, others⟩) (fun _ _ h => h) v

mutual

/-- No map inside of the value repeats a key. -/
def Regular : Value → Prop
  | list items => RegularItems items
  | map entries => (Entries.keys entries).Nodup ∧ RegularFields entries
  | _ => True

def RegularItems : List Value → Prop
  | [] => True
  | v :: rest => Regular v ∧ RegularItems rest

def RegularFields : List (String × Value) → Prop
  | [] => True
  | (_, v) :: rest => Regular v ∧ RegularFields rest

end

theorem regularItems_iff (items : List Value) : RegularItems items ↔ ∀ v ∈ items, v.Regular := by
  induction items with
  | nil => simp [RegularItems]
  | cons v rest ih => simp [RegularItems, ih]

theorem regularFields_iff (entries : List (String × Value)) :
    RegularFields entries ↔ ∀ e ∈ entries, e.2.Regular := by
  induction entries with
  | nil => simp [RegularFields]
  | cons e rest ih => simp [RegularFields, ih]

end Value

structure Attributes.Regular (as : Attributes) : Prop where
  nodup : (Entries.keys as).Nodup
  values : ∀ e ∈ as, e.2.Regular

namespace Attributes

theorem Regular.nil : Regular [] := ⟨by simp [Entries.keys], by simp⟩

theorem Regular.put {as : Attributes} (h : Regular as) (key : String) {v : Value}
    (hv : v.Regular) : Regular (Entries.put as key v) :=
  ⟨Entries.nodup_put h.nodup key v, Entries.forall_put h.values key hv⟩

theorem Regular.ofPairs {pairs : List (String × Value)} (h : ∀ e ∈ pairs, e.2.Regular) :
    Regular (Entries.ofPairs pairs) := by
  refine ⟨Entries.nodup_ofPairs pairs, fun e he => ?_⟩
  rcases Entries.mem_putAll he with he | he
  · cases he
  · exact h e he

theorem Regular.map {as : Attributes} (h : Regular as) : (Value.map as).Regular :=
  ⟨h.nodup, (Value.regularFields_iff as).mpr h.values⟩

end Attributes

structure Tags.Regular (tags : Tags) : Prop where
  nodup : (Entries.keys tags).Nodup
  used : ∀ e ∈ tags, e.2 ≠ []
  attributes : ∀ e ∈ tags, ∀ as ∈ e.2, Attributes.Regular as

namespace Tags

theorem Regular.nil : Regular [] := ⟨by simp [Entries.keys], by simp, by simp⟩

theorem Regular.add {tags : Tags} (h : Regular tags) (tag : String) {as : Attributes}
    (ha : as.Regular) : Regular (Tags.add tags tag as) := by
  have instances : ∀ bs ∈ (Entries.find? tags tag).getD [] ++ [as], Attributes.Regular bs := by
    intro bs hb
    rcases List.mem_append.mp hb with hb | hb
    · cases found : Entries.find? tags tag with
      | none => simp [found] at hb
      | some instances =>
        rw [found] at hb
        exact h.attributes _ (Entries.mem_of_find? found) bs hb
    · rw [List.mem_singleton.mp hb]
      exact ha
  have used : (Entries.find? tags tag).getD [] ++ [as] ≠ [] := by simp
  exact ⟨Entries.nodup_put h.nodup tag _, Entries.forall_put (P := (· ≠ [])) h.used tag used,
    Entries.forall_put (P := (∀ bs ∈ ·, Attributes.Regular bs)) h.attributes tag instances⟩

theorem Regular.erase {tags : Tags} (h : Regular tags) (tag : String) :
    Regular (Entries.erase tags tag) :=
  ⟨Entries.nodup_filter h.nodup _, fun e he => h.used e (List.mem_filter.mp he).1,
    fun e he => h.attributes e (List.mem_filter.mp he).1⟩

end Tags

structure Rule.Regular (r : Rule) : Prop where
  stated : Text.isBlank r.expression = false
  tags : Tags.Regular r.tags

namespace Rule

theorem new_eq_ok_iff {expression : String} {r : Rule} :
    Rule.new expression = .ok r ↔ Text.isBlank expression = false ∧ r = ⟨expression, []⟩ := by
  unfold Rule.new
  cases Text.isBlank expression <;> simp [eq_comm]

theorem Regular.new {expression : String} {r : Rule} (h : Rule.new expression = .ok r) :
    r.Regular := by
  obtain ⟨stated, rfl⟩ := new_eq_ok_iff.mp h
  exact ⟨stated, .nil⟩

theorem Regular.setExpression {r s : Rule} (h : r.Regular) {expression : String}
    (hs : r.setExpression expression = .ok s) : s.Regular := by
  unfold Rule.setExpression at hs
  split at hs
  · cases hs
  · rename_i stated
    cases hs
    exact ⟨by simpa using stated, h.tags⟩

theorem Regular.addTag {r : Rule} (h : r.Regular) (tag : String) {as : Attributes}
    (ha : as.Regular) : (r.addTag tag as).Regular :=
  ⟨h.stated, h.tags.add tag ha⟩

theorem Regular.addTags {tags : List (String × Attributes)} {r : Rule} (h : r.Regular)
    (ht : ∀ t ∈ tags, t.2.Regular) :
    (tags.foldl (fun r t => r.addTag t.1 t.2) r).Regular :=
  List.foldlRecOn tags _ h fun _ hr t mem => hr.addTag t.1 (ht t mem)

theorem Regular.clearTag {r : Rule} (h : r.Regular) (tag : String) : (r.clearTag tag).Regular :=
  ⟨h.stated, h.tags.erase tag⟩

theorem Regular.clearTags {r : Rule} (h : r.Regular) : r.clearTags.Regular := ⟨h.stated, .nil⟩

end Rule

/-- A collection without repeated names and with regular rules. -/
structure Collection.Regular (c : Collection) : Prop where
  nodup : c.names.Nodup
  rules : ∀ e ∈ c.rules, e.2.Regular

namespace Collection

theorem Regular.empty : Regular .empty :=
  ⟨by simp [names, Collection.empty, Entries.keys], by simp [Collection.empty]⟩

theorem nodup_add {c : Collection} (h : c.names.Nodup) (name : String) (r : Rule) :
    (c.add name r).names.Nodup := by
  simp only [names, add, Entries.keys, List.map_append, List.map_cons, List.map_nil]
  rw [List.nodup_append]
  refine ⟨Entries.nodup_filter h _, by simp, fun a ha b hb eq => ?_⟩
  rw [List.mem_singleton.mp hb] at eq
  exact Entries.not_mem_keys_erase c.rules name (eq ▸ ha)

theorem Regular.add {c : Collection} (h : c.Regular) (name : String) {r : Rule} (hr : r.Regular) :
    (c.add name r).Regular := by
  refine ⟨nodup_add h.nodup name r, fun e he => ?_⟩
  rcases List.mem_append.mp he with he | he
  · exact h.rules e (List.mem_filter.mp he).1
  · rw [List.mem_singleton.mp he]
    exact hr

theorem Regular.filter {c : Collection} (h : c.Regular) (p : String × Rule → Bool)
    (files : List Path) : Regular ⟨c.rules.filter p, files⟩ :=
  ⟨Entries.nodup_filter h.nodup p, fun e he => h.rules e (List.mem_filter.mp he).1⟩

theorem Regular.remove {c : Collection} (h : c.Regular) (name : String) :
    (c.remove name).Regular :=
  h.filter _ c.files

theorem Regular.removeAll {c : Collection} (h : c.Regular) (names : List String) :
    (c.removeAll names).Regular :=
  List.foldlRecOn names _ h fun _ hc name _ => hc.remove name

theorem Regular.modify {c : Collection} (h : c.Regular) (name : String) {f : Rule → Rule}
    (hf : ∀ r, r.Regular → (f r).Regular) : (c.modify name f).Regular := by
  refine ⟨?_, fun e he => ?_⟩
  · have same : (c.modify name f).names = c.names := by
      simp only [names, Collection.modify, Entries.keys, List.map_map]
      exact List.map_congr_left fun e _ => by simp only [Function.comp]; split <;> rfl
    rw [same]
    exact h.nodup
  · obtain ⟨d, hd, rfl⟩ := List.mem_map.mp he
    split
    · exact hf d.2 (h.rules d hd)
    · exact h.rules d hd

theorem Regular.mapRules {c : Collection} (h : c.Regular) {f : Rule → Rule}
    (hf : ∀ r, r.Regular → (f r).Regular) : (c.mapRules f).Regular := by
  refine ⟨?_, fun e he => ?_⟩
  · rw [Collection.names, Collection.mapRules, Entries.keys_mapValues]
    exact h.nodup
  · obtain ⟨d, hd, rfl⟩ := List.mem_map.mp he
    exact hf d.2 (h.rules d hd)

theorem Regular.addTag {c : Collection} (h : c.Regular) (tag : String) {as : Attributes}
    (ha : as.Regular) : (c.addTag tag as).Regular :=
  h.mapRules fun _ hr => hr.addTag tag ha

theorem Regular.addTags {tags : List (String × Attributes)} {c : Collection} (h : c.Regular)
    (ht : ∀ t ∈ tags, t.2.Regular) : (c.addTags tags).Regular :=
  List.foldlRecOn tags _ h fun _ hc t mem => hc.addTag t.1 (ht t mem)

theorem Regular.addFile {c : Collection} (h : c.Regular) (file : Path) : (c.addFile file).Regular :=
  ⟨h.nodup, h.rules⟩

theorem Regular.merge {c d : Collection} (hc : c.Regular) (hd : d.Regular) : (c.merge d).Regular := by
  have all : (d.rules.foldl (fun acc e => acc.add e.1 e.2) c).Regular :=
    List.foldlRecOn d.rules _ hc fun _ hacc e he => hacc.add e.1 (hd.rules e he)
  exact ⟨all.nodup, all.rules⟩

theorem Regular.tagged {c : Collection} (h : c.Regular) (tag : String) : (c.tagged tag).Regular := by
  refine List.foldlRecOn c.rules _ Regular.empty fun d hd e he => ?_
  split
  · exact hd.add e.1 (h.rules e he)
  · exact hd

end Collection

end RuleRegistry
