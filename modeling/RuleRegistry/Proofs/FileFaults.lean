import RuleRegistry.Proofs.Outcome
import RuleRegistry.Source.Loader

namespace RuleRegistry.Source

open Outcome

/-- An error about what one file holds. -/
def Error.OfFile (path : Path) : Error → Prop
  | .malformed file _ | .invalid file _ => file = path
  | _ => False

theorem invalid_fails {α : Type} (path : Path) (x : Except Fault α) :
    FailsWith (Error.OfFile path) (x.mapError (.invalid path)) := by
  cases x with
  | error fault => exact .error rfl
  | ok a => exact .ok a

theorem makeRule_fails (path : Path) (name expression : String) (tags : TagList) :
    FailsWith (Error.OfFile path) (Definition.makeRule path name expression tags) := by
  unfold Definition.makeRule
  split
  · exact .ok _
  · exact .error rfl

theorem ofEach_fails {α : Type} {path : Path} {read : α → Except Error Definition}
    (each : ∀ x, FailsWith (Error.OfFile path) (read x)) (xs : List α) :
    ∀ e ∈ (Definitions.ofEach read xs).error, e.OfFile path := by
  induction xs with
  | nil => exact nofun
  | cons x rest ih =>
    rw [Definitions.ofEach]
    split
    · rename_i e failed
      rintro _ ⟨⟩
      exact each x e failed
    · exact ih

namespace YamlRules

theorem readRule_fails (path : Path) (rule : String) (fields : Fields) :
    FailsWith (Error.OfFile path) (readRule path rule fields) := by
  unfold readRule
  refine .bind (invalid_fails path _) fun expression => ?_
  refine .bind (makeRule_fails path rule _ []) fun _ => ?_
  exact .bind (invalid_fails path _) fun tags => makeRule_fails path rule _ tags

theorem readEntry_fails (path : Path) (entry : Yaml.Tree × Yaml.Tree) :
    FailsWith (Error.OfFile path) (readEntry path entry) := by
  unfold readEntry
  split
  · exact .error rfl
  · split
    · exact .error rfl
    · split
      · exact invalid_fails path _
      · exact readRule_fails path _ _

theorem read_fails (path : Path) (text : String) : ∀ e ∈ (read path text).error, e.OfFile path := by
  unfold read
  split
  · exact nofun
  · split
    · rintro _ ⟨⟩
      rfl
    · exact nofun
    · exact ofEach_fails (readEntry_fails path) _
    · rintro _ ⟨⟩
      rfl

end YamlRules

namespace XmlRules

theorem attributesOf_fails (path : Path) (t : Xml.Tag) :
    FailsWith (Error.OfFile path) (attributesOf path t) := by
  unfold attributesOf
  split
  · exact .ok _
  · exact .error rfl

theorem required_fails (path : Path) (element : String) (attributes : List (String × String))
    (key : String) : FailsWith (Error.OfFile path) (required path element attributes key) := by
  unfold required
  split
  · exact .ok _
  · exact .error rfl

theorem openElement_fails (path : Path) (t : Xml.Tag) :
    FailsWith (Error.OfFile path) (openElement path t) := by
  unfold openElement
  refine .bind (attributesOf_fails path t) fun attributes => ?_
  split
  · refine .bind (required_fails path _ _ _) fun id => ?_
    exact .bind (required_fails path _ _ _) fun expression => .ok _
  · exact .bind (required_fails path _ _ _) fun resource => .ok _
  · exact .error rfl

theorem addTag_fails (path : Path) (p : Pending) (t : Xml.Tag) :
    FailsWith (Error.OfFile path) (p.addTag path t) := by
  unfold Pending.addTag readTag
  split
  · exact .error rfl
  · refine .map (.bind (attributesOf_fails path t) fun attributes => ?_) _
    dsimp only
    split
    · exact .error rfl
    · exact .ok _

theorem finish_fails (path : Path) (p : Pending) : FailsWith (Error.OfFile path) (p.finish path) := by
  unfold Pending.finish
  split
  · exact makeRule_fails path _ _ _
  · exact .ok _

theorem readBody_fails (path : Path) (place : Place) (events : List Xml.Event) :
    ∀ e ∈ (readBody path place events).error, e.OfFile path := by
  fun_induction readBody path place events with
  | case6 p rest e failed | case10 t rest p _ e failed =>
    rintro _ ⟨⟩
    exact finish_fails path p e failed
  | case9 t empty rest e failed =>
    rintro _ ⟨⟩
    exact openElement_fails path t e failed
  | case13 p t empty rest e failed =>
    rintro _ ⟨⟩
    exact addTag_fails path p t e failed
  | case7 _ _ _ _ _ ih | case8 _ _ _ ih | case11 _ _ _ _ _ _ _ ih | case12 _ _ _ _ _ _ ih
  | case14 _ _ _ _ _ _ ih | case15 _ _ _ _ _ ih => exact ih
  | _ => simp [Definitions.failed, Error.OfFile]

theorem read_fails (path : Path) (text : String) : ∀ e ∈ (read path text).error, e.OfFile path := by
  unfold read
  split
  · exact nofun
  · exact readBody_fails path .between _
  · rintro _ ⟨⟩
    rfl
  · rintro _ ⟨⟩
    rfl

end XmlRules

theorem Format.read_fails (f : Format) (path : Path) (text : String) :
    ∀ e ∈ (f.read path text).error, e.OfFile path := by
  cases f with
  | yaml => exact YamlRules.read_fails path text
  | xml => exact XmlRules.read_fails path text

end RuleRegistry.Source
