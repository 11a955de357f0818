import RuleRegistry.Proofs.Outcome
import RuleRegistry.Proofs.Regular
import RuleRegistry.Source.Loader

namespace RuleRegistry

theorem Yaml.Reading.ofAtom_regular (a : Yaml.Atom) : (ofAtom a).Regular := by
  cases a with
  | int n =>
    simp only [ofAtom]
    split <;> trivial
  | _ => trivial

namespace Source

open Outcome

def Definition.Regular : Definition → Prop
  | .rule _ r => r.Regular
  | .reference _ _ tags => ∀ t ∈ tags, t.2.Regular

theorem makeRule_regular {path : Path} {name expression : String} {tags : TagList} {d : Definition}
    (ht : ∀ t ∈ tags, t.2.Regular) (h : Definition.makeRule path name expression tags = .ok d) :
    d.Regular := by
  unfold Definition.makeRule at h
  split at h
  · rename_i r hr
    cases h
    exact (Rule.Regular.new hr).addTags ht
  · cases h

theorem cons_regular {d : Definition} {ds : Definitions} (hd : d.Regular)
    (hds : ∀ c ∈ ds.found, c.Regular) : ∀ c ∈ d :: ds.found, c.Regular := by
  intro c hc
  rcases List.mem_cons.mp hc with rfl | hc
  · exact hd
  · exact hds c hc

theorem ofEach_regular {α : Type} {read : α → Except Error Definition}
    (hread : ∀ x d, read x = .ok d → d.Regular) (xs : List α) :
    ∀ d ∈ (Definitions.ofEach read xs).found, d.Regular := by
  induction xs with
  | nil => simp [Definitions.ofEach]
  | cons x rest ih =>
    simp only [Definitions.ofEach]
    cases hx : read x with
    | error e => simp [Definitions.failed]
    | ok d => exact cons_regular (hread x d hx) ih

namespace YamlRules

mutual

theorem value_regular (rule : String) : ∀ (t : Yaml.Tree) (v : Value),
    value rule t = .ok v → v.Regular
  | .atom a, v, h => by
    cases h
    exact Yaml.Reading.ofAtom_regular a
  | .sequence items, v, h => by
    simp only [value, map_ok_iff] at h
    obtain ⟨vs, hs, rfl⟩ := h
    exact (Value.regularItems_iff vs).mpr (values_regular rule items vs hs)
  | .mapping pairs, v, h => by
    simp only [value, map_ok_iff] at h
    obtain ⟨es, hs, rfl⟩ := h
    exact (Attributes.Regular.ofPairs (entries_regular rule pairs es hs)).map
  | .tagged _ tree, v, h => value_regular rule tree v (by simpa only [value] using h)

theorem values_regular (rule : String) : ∀ (ts : List Yaml.Tree) (vs : List Value),
    values rule ts = .ok vs → ∀ v ∈ vs, v.Regular
  | [], vs, h => by
    cases h
    simp
  | t :: rest, vs, h => by
    simp only [values, bind_ok_iff, map_ok_iff] at h
    obtain ⟨v, hv, ws, hs, rfl⟩ := h
    intro w hw
    rcases List.mem_cons.mp hw with rfl | hw
    · exact value_regular rule t _ hv
    · exact values_regular rule rest ws hs w hw

theorem entries_regular (rule : String) : ∀ (ps : List (Yaml.Tree × Yaml.Tree))
    (es : List (String × Value)), entries rule ps = .ok es → ∀ e ∈ es, e.2.Regular
  | [], es, h => by
    cases h
    simp
  | (k, t) :: rest, es, h => by
    simp only [entries] at h
    split at h
    · cases h
    · simp only [bind_ok_iff, map_ok_iff] at h
      obtain ⟨v, hv, fs, hs, rfl⟩ := h
      intro e he
      rcases List.mem_cons.mp he with rfl | he
      · exact value_regular rule t _ hv
      · exact entries_regular rule rest fs hs e he

end

theorem addField_regular {rule : String} {tag tag' : String × Attributes}
    {field : Yaml.Tree × Yaml.Tree} (h : tag.2.Regular) (hf : addField rule tag field = .ok tag') :
    tag'.2.Regular := by
  unfold addField at hf
  split at hf
  · cases hf
  · cases hf
    exact h
  · obtain ⟨v, hv, rfl⟩ := map_ok_iff.mp hf
    exact h.put _ (value_regular rule field.2 v hv)

theorem tagList_regular {rule : String} {items : List Yaml.Tree} {tags : TagList}
    (h : tagList rule items = .ok tags) : ∀ t ∈ tags, t.2.Regular := by
  refine foldlM_keeps (P := fun tags : TagList => ∀ t ∈ tags, t.2.Regular) ?_ items (by simp) h
  intro tags item tags' ht hi
  split at hi
  · rename_i fields
    obtain ⟨tag, hfold, htags⟩ := do_ok_iff.mp hi
    cases htags
    have htag : tag.2.Regular :=
      foldlM_keeps (P := fun tag : String × Attributes => tag.2.Regular)
        (fun _ _ _ hb hs => addField_regular hb hs) fields Attributes.Regular.nil hfold
    intro t hmem
    rcases List.mem_append.mp hmem with hmem | hmem
    · exact ht t hmem
    · rw [List.mem_singleton.mp hmem]
      exact htag
  · cases hi
    exact ht

theorem tagsOf_regular {fields : Fields} {rule : String} {tags : TagList}
    (h : tagsOf fields rule = .ok tags) : ∀ t ∈ tags, t.2.Regular := by
  unfold tagsOf at h
  split at h
  · exact tagList_regular h
  · cases h
    simp

theorem readReference_regular {rule : String} {fields : Fields} {d : Definition}
    (h : readReference rule fields = .ok d) : d.Regular := by
  unfold readReference at h
  obtain ⟨resource, _, h⟩ := do_ok_iff.mp h
  obtain ⟨kind, _, h⟩ := do_ok_iff.mp h
  obtain ⟨tags, htags, h⟩ := do_ok_iff.mp h
  cases h
  exact tagsOf_regular htags

theorem readRule_regular {path : Path} {rule : String} {fields : Fields} {d : Definition}
    (h : readRule path rule fields = .ok d) : d.Regular := by
  unfold readRule at h
  obtain ⟨expression, _, h⟩ := do_ok_iff.mp h
  obtain ⟨_, _, h⟩ := do_ok_iff.mp h
  obtain ⟨tags, htags, h⟩ := do_ok_iff.mp h
  exact makeRule_regular (tagsOf_regular (mapError_ok_iff.mp htags)) h

theorem readEntry_regular {path : Path} {entry : Yaml.Tree × Yaml.Tree} {d : Definition}
    (h : readEntry path entry = .ok d) : d.Regular := by
  unfold readEntry at h
  split at h
  · cases h
  · split at h
    · cases h
    · split at h
      · exact readReference_regular (mapError_ok_iff.mp h)
      · exact readRule_regular h

theorem read_regular (path : Path) (text : String) : ∀ d ∈ (read path text).found, d.Regular := by
  unfold read
  split
  · simp
  · split
    · simp [Definitions.failed]
    · simp
    · exact ofEach_regular (fun _ _ => readEntry_regular) _
    · simp [Definitions.failed]

end YamlRules

namespace XmlRules

theorem ofSpelling_regular (s : String) : (Value.ofSpelling s).Regular := by
  unfold Value.ofSpelling
  dsimp only
  repeat' split
  all_goals trivial

theorem addAttribute_regular {tag : String × Attributes} (h : tag.2.Regular)
    (entry : String × String) : (addAttribute tag entry).2.Regular := by
  obtain ⟨key, text⟩ := entry
  simp only [addAttribute]
  split
  · exact h
  · refine Attributes.Regular.put ?_ key (ofSpelling_regular text)
    split
    · rename_i other _
      unfold Entries.putNew
      split
      · exact h
      · exact h.put other (ofSpelling_regular text)
    · exact h

theorem readTag_regular {path : Path} {t : Xml.Tag} {tag : String × Attributes}
    (h : readTag path t = .ok tag) : tag.2.Regular := by
  unfold readTag at h
  obtain ⟨attributes, _, h⟩ := do_ok_iff.mp h
  have folded : (attributes.foldl addAttribute ("", [])).2.Regular :=
    List.foldlRecOn (motive := fun tag : String × Attributes => tag.2.Regular) attributes
      addAttribute Attributes.Regular.nil fun _ ht e _ => addAttribute_regular ht e
  dsimp only at h
  split at h
  · cases h
  · cases h
    exact folded

theorem addTag_regular {path : Path} {p q : Pending} {t : Xml.Tag}
    (hp : ∀ tag ∈ p.tags, tag.2.Regular) (h : p.addTag path t = .ok q) :
    ∀ tag ∈ q.tags, tag.2.Regular := by
  unfold Pending.addTag at h
  split at h
  · cases h
  · obtain ⟨tag, htag, rfl⟩ := map_ok_iff.mp h
    intro u hu
    rcases List.mem_append.mp hu with hu | hu
    · exact hp u hu
    · rw [List.mem_singleton.mp hu]
      exact readTag_regular htag

theorem finish_regular {path : Path} {p : Pending} {d : Definition}
    (hp : ∀ tag ∈ p.tags, tag.2.Regular) (h : p.finish path = .ok d) : d.Regular := by
  unfold Pending.finish at h
  split at h
  · exact makeRule_regular hp h
  · cases h
    exact hp

theorem openElement_tags {path : Path} {t : Xml.Tag} {p : Pending}
    (h : openElement path t = .ok p) : p.tags = [] := by
  unfold openElement at h
  obtain ⟨attributes, _, h⟩ := do_ok_iff.mp h
  split at h
  · obtain ⟨id, _, h⟩ := do_ok_iff.mp h
    obtain ⟨expression, _, h⟩ := do_ok_iff.mp h
    cases h
    rfl
  · obtain ⟨resource, _, h⟩ := do_ok_iff.mp h
    cases h
    rfl
  · cases h

def Place.tags : Place → TagList
  | .between => []
  | .within p _ => p.tags

theorem readBody_regular (path : Path) (place : Place) (events : List Xml.Event)
    (hp : ∀ tag ∈ place.tags, tag.2.Regular) :
    ∀ d ∈ (readBody path place events).found, d.Regular := by
  fun_induction readBody path place events with
  | case7 p rest d hd ds ih =>
    exact cons_regular (finish_regular hp hd) (ih (by simp [Place.tags]))
  | case8 p depth rest ih => exact ih hp
  | case11 t rest p ht d hd ds ih =>
    have bare : ∀ tag ∈ p.tags, tag.2.Regular := by simp [openElement_tags ht]
    exact cons_regular (finish_regular bare hd) (ih hp)
  | case12 t empty rest p ht _ ih => exact ih (by simp [Place.tags, openElement_tags ht])
  | case14 p t empty rest q hq ih => exact ih (addTag_regular hp hq)
  | case15 p depth t empty rest ih => exact ih hp
  | _ => simp [Definitions.failed]

theorem read_regular (path : Path) (text : String) : ∀ d ∈ (read path text).found, d.Regular := by
  unfold read
  split
  · simp
  · exact readBody_regular path .between _ (by simp [Place.tags])
  · simp [Definitions.failed]
  · simp [Definitions.failed]

end XmlRules

theorem Format.read_regular (f : Format) (path : Path) (text : String) :
    ∀ d ∈ (f.read path text).found, d.Regular := by
  cases f with
  | yaml => exact YamlRules.read_regular path text
  | xml => exact XmlRules.read_regular path text

end Source

end RuleRegistry
