import RuleRegistry.Artifact.Format
import RuleRegistry.Proofs.Loading

namespace RuleRegistry

open Outcome

/-- Whatever else an archive declares, its tags have regular attributes. -/
def Archive.Regular (a : Archive) : Prop :=
  ∀ e ∈ a.declared, ∀ t ∈ e.2.tags, ∀ as ∈ t.2, Attributes.Regular as

namespace Archive

theorem checked_ok_iff {a b : Archive} : a.checked = .ok b ↔
    b = a ∧ ∀ e ∈ a.declared, Text.isBlank e.2.expression = false := by
  rw [checked]
  split
  · rename_i e found
    refine iff_of_false nofun fun h => ?_
    have blank := List.find?_some found
    rw [h.2 e (List.mem_of_find?_eq_some found)] at blank
    cases blank
  · rename_i none_blank
    rw [Except.ok.injEq, eq_comm, iff_self_and]
    intro _ e he
    simpa using List.find?_eq_none.mp none_blank e he

theorem Regular.ofCollection {c : Collection} (h : c.Regular) (names : ArtifactNames) :
    (ofCollection c names).Regular := by
  intro e he t ht as has
  obtain ⟨entry, hentry, rfl⟩ := List.mem_map.mp he
  exact (h.rules entry hentry).tags.attributes t ht as has

theorem buildRule_regular {d : Declaration} {r : Rule}
    (h : ∀ t ∈ d.tags, ∀ as ∈ t.2, Attributes.Regular as) (built : buildRule d = .ok r) :
    r.Regular := by
  obtain ⟨bare, new, rfl⟩ := map_ok_iff.mp built
  refine List.foldlRecOn d.tags _ (Rule.Regular.new new) fun r hr t ht => ?_
  exact List.foldlRecOn t.2 _ hr fun r hr as has => hr.addTag t.1 (h t ht as has)

theorem Regular.build {a : Archive} (h : a.Regular) {c : Collection} (built : a.build = .ok c) :
    c.Regular := by
  have from_regular : ∀ (declared : Entries Declaration) (c c' : Collection), c.Regular →
      (∀ e ∈ declared, ∀ t ∈ e.2.tags, ∀ as ∈ t.2, Attributes.Regular as) →
      buildFrom c declared = .ok c' → c'.Regular := by
    intro declared
    induction declared with
    | nil =>
      intro c c' hc _ hb
      cases hb
      exact hc
    | cons e rest ih =>
      intro c c' hc he hb
      obtain ⟨r, hr, hrest⟩ := bind_ok_iff.mp hb
      exact ih _ _ (hc.add e.1 (buildRule_regular (he e List.mem_cons_self) hr))
        (fun d hd => he d (List.mem_cons_of_mem _ hd)) hrest
  exact from_regular a.declared _ _ .empty h built

end Archive

namespace Wire

/-- Whatever bytes it reads, a decoder gives only things with a property. -/
def Ensures {α : Type} (decode : Bytes → Option (α × Bytes)) (P : α → Prop) : Prop :=
  ∀ bytes x rest, decode bytes = some (x, rest) → P x

namespace Ensures

variable {α β : Type} {decode : Bytes → Option (α × Bytes)} {decode' : Bytes → Option (β × Bytes)}

theorem pair {P : α → Prop} {Q : β → Prop} (first : Ensures decode P) (second : Ensures decode' Q) :
    Ensures (decodePair decode decode') fun p => P p.1 ∧ Q p.2 := by
  intro bytes x rest h
  simp only [decodePair, Option.bind_eq_some_iff, Option.map_eq_some_iff] at h
  obtain ⟨⟨a, left⟩, ha, ⟨b, left'⟩, hb, eq⟩ := h
  cases eq
  exact ⟨first _ _ _ ha, second _ _ _ hb⟩

theorem many {P : α → Prop} (item : Ensures decode P) (n : Nat) :
    Ensures (decodeMany decode n) fun xs => ∀ x ∈ xs, P x := by
  induction n with
  | zero =>
    intro bytes xs rest h
    cases h
    simp
  | succ n ih =>
    intro bytes xs rest h
    simp only [decodeMany, Option.bind_eq_some_iff, Option.map_eq_some_iff] at h
    obtain ⟨⟨a, left⟩, ha, ⟨others, left'⟩, hothers, eq⟩ := h
    cases eq
    exact List.forall_mem_cons.mpr ⟨item _ _ _ ha, ih _ _ _ hothers⟩

theorem run {P : α → Prop} (item : Ensures decode P) :
    Ensures (decodeRun decode) fun xs => ∀ x ∈ xs, P x := by
  intro bytes xs rest h
  simp only [decodeRun, Option.bind_eq_some_iff] at h
  obtain ⟨⟨n, left⟩, _, hmany⟩ := h
  exact many item n _ _ _ hmany

theorem any (decode : Bytes → Option (α × Bytes)) : Ensures decode fun _ => True :=
  fun _ _ _ _ => trivial

end Ensures

theorem decodeValue_regular (depth : Nat) : Ensures (decodeValue depth) Value.Regular := by
  induction depth with
  | zero =>
    intro bytes v rest h
    cases h
  | succ depth ih =>
    intro bytes v rest h
    rw [decodeValue, Option.bind_eq_some_iff] at h
    obtain ⟨⟨kind, left⟩, _, h⟩ := h
    dsimp only at h
    split at h
    · cases h
      trivial
    · obtain ⟨p, _, eq⟩ := Option.map_eq_some_iff.mp h
      cases eq
      trivial
    · obtain ⟨p, _, eq⟩ := Option.map_eq_some_iff.mp h
      cases eq
      trivial
    · obtain ⟨p, _, eq⟩ := Option.map_eq_some_iff.mp h
      cases eq
      trivial
    · obtain ⟨p, _, eq⟩ := Option.map_eq_some_iff.mp h
      cases eq
      trivial
    · obtain ⟨p, read, eq⟩ := Option.map_eq_some_iff.mp h
      cases eq
      exact (Value.regularItems_iff _).mpr (ih.run _ _ _ read)
    · obtain ⟨p, read, eq⟩ := Option.map_eq_some_iff.mp h
      cases eq
      have fields := (Ensures.pair (.any decodeText) ih).run _ _ _ read
      exact (Attributes.Regular.ofPairs fun e he => (fields e he).2).map
    · cases h

end Wire

namespace Artifact

open Wire

theorem decodeAttributes_regular :
    Ensures decodeAttributes fun fields => ∀ e ∈ fields, e.2.Regular := by
  have value : Ensures (fun rest => decodeValue rest.length rest) Value.Regular :=
    fun bytes v rest h => decodeValue_regular bytes.length bytes v rest h
  intro bytes fields rest h e he
  exact ((Ensures.pair (.any decodeText) value).run _ _ _ h e he).2

def WrittenRule.Regular (r : WrittenRule) : Prop :=
  ∀ t ∈ r.tags, ∀ fields ∈ t.2, ∀ e ∈ fields, e.2.Regular

theorem decodeRule_regular : Ensures decodeRule WrittenRule.Regular := by
  intro bytes r rest h
  obtain ⟨p, read, eq⟩ := Option.map_eq_some_iff.mp h
  cases eq
  have tag := Ensures.pair (.any decodeText) decodeAttributes_regular.run
  have rule := Ensures.pair (.any decodeText) (Ensures.pair (.any decodeText) tag.run)
  exact fun t ht => ((rule _ _ _ read).2.2 t ht).2

theorem archive_regular {p : Payload} (h : ∀ r ∈ p.rules, r.Regular) : p.archive.Regular := by
  intro e he t ht as has
  rcases Entries.mem_putAll he with he | he
  · cases he
  · obtain ⟨r, hr, rfl⟩ := List.mem_map.mp he
    rcases Entries.mem_putAll ht with ht | ht
    · cases ht
    · obtain ⟨written, hwritten, rfl⟩ := List.mem_map.mp ht
      obtain ⟨fields, hfields, rfl⟩ := List.mem_map.mp has
      exact Attributes.Regular.ofPairs (h r hr written hwritten fields hfields)

theorem readBinary_regular {bytes : Bytes} {a : Archive} (h : readBinary bytes = .ok a) :
    a.Regular := by
  unfold readBinary at h
  obtain ⟨payload, _, h⟩ := bind_ok_iff.mp h
  split at h
  · cases h
  · rename_i p rest hp
    obtain ⟨_, _, h⟩ := bind_ok_iff.mp h
    obtain ⟨rfl, _⟩ := Archive.checked_ok_iff.mp h
    refine archive_regular ?_
    obtain ⟨read, hread, eq⟩ := Option.map_eq_some_iff.mp hp
    cases eq
    have rules := Ensures.pair (.any (decodeCount 8)) decodeRule_regular.run
    exact ((Ensures.pair (.any (decodePair decodeText decodeText)) rules) _ _ _ hread).2.2

end Artifact

namespace Yaml.Reading

def Ensures {α : Type} (read : Reading α) (P : α → Prop) : Prop :=
  ∀ left x left', read left = some (x, left') → P x

namespace Ensures

variable {α β : Type}

theorem any (read : Reading α) : Ensures read fun _ => True := fun _ _ _ _ => trivial

theorem pure {P : α → Prop} {x : α} (h : P x) : Ensures (Pure.pure x) P := by
  intro left y left' hy
  cases hy
  exact h

theorem bind {P : α → Prop} {Q : β → Prop} {read : Reading α} {next : α → Reading β}
    (first : Ensures read P) (second : ∀ x, P x → Ensures (next x) Q) :
    Ensures (read >>= next) Q := by
  intro left y left' h
  obtain ⟨⟨x, mid⟩, hx, hy⟩ := Option.bind_eq_some_iff.mp h
  exact second x (first _ _ _ hx) _ _ _ hy

theorem foldlM {P : β → Prop} {f : β → α → Reading β} (step : ∀ b x, P b → Ensures (f b x) P)
    (xs : List α) {b : β} (hb : P b) : Ensures (xs.foldlM f b) P := by
  induction xs generalizing b with
  | nil => exact pure hb
  | cons x rest ih => exact bind (step b x hb) fun _ hc => ih hc

theorem mapM {P : β → Prop} {f : α → Reading β} (each : ∀ x, Ensures (f x) P) (xs : List α) :
    Ensures (xs.mapM f) fun ys => ∀ y ∈ ys, P y := by
  induction xs with
  | nil => exact pure (by simp)
  | cons x rest ih =>
    rw [List.mapM_cons]
    refine bind (each x) fun y hy => bind ih fun ys hys => pure ?_
    exact List.forall_mem_cons.mpr ⟨hy, hys⟩

theorem table {P : α → Prop} {a : Anchors} {entry : Node Nat → Reading α} {n : Node Nat}
    (each : ∀ m, Ensures (entry m) P) :
    Ensures (table a entry n) fun es => (Entries.keys es).Nodup ∧ ∀ e ∈ es, P e.2 := by
  refine bind (any _) fun pairs _ => foldlM ?_ pairs (by simp [Entries.keys])
  intro es p hes
  refine bind (any _) fun key _ => bind (each p.2) fun v hv => pure ?_
  exact ⟨Entries.nodup_put hes.1 key v, Entries.forall_put hes.2 key hv⟩

theorem part {P : α → Prop} {parts : Entries (Node Nat)} {name : String} {read : Node Nat → Reading α}
    {missing : Reading α} (there : ∀ n, Ensures (read n) P) (absent : Ensures missing P) :
    Ensures (part parts name read missing) P := by
  unfold Reading.part
  split
  · exact there _
  · exact absent

end Ensures

mutual

theorem ofNode?_regular : ∀ (n : WholeNode) (v : Value), ofNode? n = some v → v.Regular
  | .alias target, _, _ => nomatch target
  | .scalar props style text, v, h => by
    simp only [ofNode?, Option.ite_none_left_eq_some, Option.map_eq_some_iff] at h
    obtain ⟨_, a, _, rfl⟩ := h
    exact ofAtom_regular a
  | .sequence props items, v, h => by
    simp only [ofNode?, Option.ite_none_left_eq_some, Option.map_eq_some_iff] at h
    obtain ⟨_, vs, hs, rfl⟩ := h
    exact (Value.regularItems_iff vs).mpr (ofItems?_regular items vs hs)
  | .mapping props pairs, v, h => by
    simp only [ofNode?, Option.ite_none_left_eq_some, Option.map_eq_some_iff] at h
    obtain ⟨_, es, hs, rfl⟩ := h
    exact (Attributes.Regular.ofPairs (ofPairs?_regular pairs es hs)).map

theorem ofItems?_regular : ∀ (ns : List WholeNode) (vs : List Value), ofItems? ns = some vs →
    ∀ v ∈ vs, v.Regular
  | [], vs, h => by
    cases h
    simp
  | n :: rest, vs, h => by
    simp only [ofItems?, Option.bind_eq_some_iff, Option.map_eq_some_iff] at h
    obtain ⟨v, hv, ws, hs, rfl⟩ := h
    exact List.forall_mem_cons.mpr ⟨ofNode?_regular n v hv, ofItems?_regular rest ws hs⟩

theorem ofPairs?_regular : ∀ (ps : List (WholeNode × WholeNode)) (es : List (String × Value)),
    ofPairs? ps = some es → ∀ e ∈ es, e.2.Regular
  | [], es, h => by
    cases h
    simp
  | (k, n) :: rest, es, h => by
    simp only [ofPairs?] at h
    split at h
    · simp only [Option.bind_eq_some_iff, Option.map_eq_some_iff] at h
      obtain ⟨v, hv, fs, hs, rfl⟩ := h
      exact List.forall_mem_cons.mpr ⟨ofNode?_regular n v hv, ofPairs?_regular rest fs hs⟩
    · cases h

end

theorem value_regular (a : Anchors) (outer : Nat) (n : Node Nat) :
    Ensures (value a outer n) Value.Regular := by
  refine Ensures.bind (.any _) fun whole _ left v left' h => ?_
  obtain ⟨w, hw, eq⟩ := Option.bind_eq_some_iff.mp h
  cases eq
  exact ofNode?_regular whole _ hw

end Yaml.Reading

namespace Artifact

open Yaml Reading

theorem readAttributes_regular (a : Anchors) (n : Node Nat) :
    Ensures (readAttributes a n) Attributes.Regular :=
  fun left as left' h =>
    have read := Ensures.table (fun m => value_regular a attributeDepth m) left as left' h
    ⟨read.1, read.2⟩

theorem readTags_regular (a : Anchors) (n : Node Nat) :
    Ensures (readTags a n) fun tags => ∀ t ∈ tags, ∀ as ∈ t.2, Attributes.Regular as := by
  have read := Ensures.table (a := a) (n := n) fun m => Ensures.bind (.any (items a m))
    fun ns _ => Ensures.mapM (readAttributes_regular a) ns
  exact fun left tags left' h => (read left tags left' h).2

theorem readDeclaration_regular (a : Anchors) (n : Node Nat) :
    Ensures (readDeclaration a n) fun d => ∀ t ∈ d.tags, ∀ as ∈ t.2, Attributes.Regular as := by
  refine Ensures.bind (.any _) fun parts _ => Ensures.bind (.any _) fun expression _ => ?_
  refine Ensures.bind (Ensures.part (readTags_regular a) (Ensures.pure (by simp))) fun tags ht => ?_
  exact Ensures.pure ht

theorem readArchive_regular (a : Anchors) (n : Node Nat) : Ensures (readArchive a n) Archive.Regular := by
  have rules : ∀ m, Ensures (table a (readDeclaration a) m) fun declared =>
      ∀ e ∈ declared, ∀ t ∈ e.2.tags, ∀ as ∈ t.2, Attributes.Regular as :=
    fun m left declared left' h => (Ensures.table (readDeclaration_regular a) left declared left' h).2
  refine Ensures.bind (.any _) fun parts _ => Ensures.bind (.any _) fun className _ => ?_
  refine Ensures.bind (.any _) fun baseName _ => ?_
  refine Ensures.bind (Ensures.part rules (Ensures.pure (by simp))) fun declared hd => ?_
  exact Ensures.pure hd

/-- The contents of a document are read off its root, and no expression is blank. -/
theorem readDocument_eq_ok {bytes : Bytes} {a : Archive} (h : readDocument bytes = .ok a) :
    ∃ (d : Document) (left left' : Nat), readArchive d.anchors d.root left = some (a, left') ∧
      ∀ e ∈ a.declared, Text.isBlank e.2.expression = false := by
  unfold readDocument at h
  split at h
  · cases h
  · rename_i b hb
    split at h
    · cases h
    · obtain ⟨rfl, stated⟩ := Archive.checked_ok_iff.mp h
      obtain ⟨text, _, hb⟩ := Option.bind_eq_some_iff.mp hb
      obtain ⟨d, _, hb⟩ := Option.bind_eq_some_iff.mp hb
      obtain ⟨⟨c, left⟩, hread, rfl⟩ := Option.map_eq_some_iff.mp hb
      exact ⟨d, _, left, hread, stated⟩

theorem readDocument_regular {bytes : Bytes} {a : Archive} (h : readDocument bytes = .ok a) :
    a.Regular := by
  obtain ⟨d, left, left', read, _⟩ := readDocument_eq_ok h
  exact readArchive_regular d.anchors d.root _ _ _ read

end Artifact

theorem ArtifactKind.read_regular {kind : ArtifactKind} {bytes : Bytes} {a : Archive}
    (h : kind.read bytes = .ok a) : a.Regular := by
  cases kind with
  | binary => exact Artifact.readBinary_regular h
  | yaml => exact Artifact.readDocument_regular h

namespace Source.Loader

variable {l : Loader} {t : FileTree}

theorem Opens.regular {resource : String} {kind : Option String} {folder : Option Path}
    {file canonical : Path} {found : List Definition}
    (h : l.Opens t resource kind folder file canonical found) : ∀ d ∈ found, d.Regular := by
  obtain ⟨format, text, _, _, read⟩ := h.readable
  have regular := format.read_regular file text
  rwa [read] at regular

theorem Reads.regular {stack : List Path} {folder : Option Path} {ds : List Definition}
    {contents : Contents} (reads : Reads l t stack folder ds contents) (hds : ∀ d ∈ ds, d.Regular)
    {c : Collection} (hc : c.Regular) : (contents.collect c).Regular := by
  induction reads generalizing c with
  | nil => exact hc
  | rule _ ih =>
    obtain ⟨first, others⟩ := List.forall_mem_cons.mp hds
    exact ih others (hc.add _ first)
  | @imported _ _ _ _ _ file _ _ _ _ _ opens _ _ _ within_ih others_ih =>
    obtain ⟨first, others⟩ := List.forall_mem_cons.mp hds
    have inside := within_ih opens.regular (Collection.Regular.empty.addFile file)
    exact others_ih others (hc.merge (inside.addTags first))

theorem load_regular {resource : String} {kind : Option String} {c : Collection}
    (h : l.load t resource kind = .ok c) : c.Regular := by
  obtain ⟨file, canonical, found, contents, opens, _, reads, rfl⟩ := load_ok_iff.mp h
  exact reads.regular opens.regular (Collection.Regular.empty.addFile file)

end Source.Loader

mutual

/-- A rule made by the operations on rules, or taken from a collection. -/
inductive Rule.Reachable : Rule → Prop
  | new {expression : String} {r : Rule} (h : Rule.new expression = .ok r) : Rule.Reachable r
  | setExpression {r s : Rule} {expression : String} (hr : Rule.Reachable r)
      (h : r.setExpression expression = .ok s) : Rule.Reachable s
  | addTag {r : Rule} (hr : Rule.Reachable r) (tag : String) {as : Attributes} (ha : as.Regular) :
      Rule.Reachable (r.addTag tag as)
  | clearTag {r : Rule} (hr : Rule.Reachable r) (tag : String) : Rule.Reachable (r.clearTag tag)
  | clearTags {r : Rule} (hr : Rule.Reachable r) : Rule.Reachable r.clearTags
  | taken {c : Collection} {name : String} {r : Rule} (hc : Collection.Reachable c)
      (h : c.get? name = some r) : Rule.Reachable r

/-- A collection made by the operations on collections, loaded, or built from an artifact. -/
inductive Collection.Reachable : Collection → Prop
  | empty : Collection.Reachable .empty
  | add {c : Collection} (hc : Collection.Reachable c) (name : String) {r : Rule}
      (hr : Rule.Reachable r) : Collection.Reachable (c.add name r)
  | replace {c : Collection} (hc : Collection.Reachable c) (name : String) {r : Rule}
      (hr : Rule.Reachable r) : Collection.Reachable (c.modify name fun _ => r)
  | remove {c : Collection} (hc : Collection.Reachable c) (name : String) :
      Collection.Reachable (c.remove name)
  | removeAll {c : Collection} (hc : Collection.Reachable c) (names : List String) :
      Collection.Reachable (c.removeAll names)
  | addTag {c : Collection} (hc : Collection.Reachable c) (tag : String) {as : Attributes}
      (ha : as.Regular) : Collection.Reachable (c.addTag tag as)
  | clearTag {c : Collection} (hc : Collection.Reachable c) (tag : String) :
      Collection.Reachable (c.clearTag tag)
  | clearTags {c : Collection} (hc : Collection.Reachable c) : Collection.Reachable c.clearTags
  | merge {c d : Collection} (hc : Collection.Reachable c) (hd : Collection.Reachable d) :
      Collection.Reachable (c.merge d)
  | addFile {c : Collection} (hc : Collection.Reachable c) (file : Path) :
      Collection.Reachable (c.addFile file)
  | tagged {c : Collection} (hc : Collection.Reachable c) (tag : String) :
      Collection.Reachable (c.tagged tag)
  | loaded {l : Source.Loader} {t : FileTree} {resource : String} {kind : Option String}
      {c : Collection} (h : l.load t resource kind = .ok c) : Collection.Reachable c
  | built {c d : Collection} {names : ArtifactNames} (hc : Collection.Reachable c)
      (h : (Archive.ofCollection c names).build = .ok d) : Collection.Reachable d
  | restored {kind : ArtifactKind} {bytes : Bytes} {a : Archive} {c : Collection}
      (read : kind.read bytes = .ok a) (h : a.build = .ok c) : Collection.Reachable c

end

theorem Collection.Regular.get {c : Collection} (h : c.Regular) {name : String} {r : Rule}
    (found : c.get? name = some r) : r.Regular :=
  h.rules _ (Entries.mem_of_find? found)

mutual

theorem Rule.Reachable.regular : ∀ {r : Rule}, r.Reachable → r.Regular
  | _, .new h => .new h
  | _, .setExpression hr h => hr.regular.setExpression h
  | _, .addTag hr tag ha => hr.regular.addTag tag ha
  | _, .clearTag hr tag => hr.regular.clearTag tag
  | _, .clearTags hr => hr.regular.clearTags
  | _, .taken hc h => hc.regular.get h

theorem Collection.Reachable.regular : ∀ {c : Collection}, c.Reachable → c.Regular
  | _, .empty => .empty
  | _, .add hc name hr => hc.regular.add name hr.regular
  | _, .replace hc name hr => hc.regular.modify name fun _ _ => hr.regular
  | _, .remove hc name => hc.regular.remove name
  | _, .removeAll hc names => hc.regular.removeAll names
  | _, .addTag hc tag ha => hc.regular.addTag tag ha
  | _, .clearTag hc tag => hc.regular.mapRules fun _ hr => hr.clearTag tag
  | _, .clearTags hc => hc.regular.mapRules fun _ hr => hr.clearTags
  | _, .merge hc hd => hc.regular.merge hd.regular
  | _, .addFile hc file => hc.regular.addFile file
  | _, .tagged hc tag => hc.regular.tagged tag
  | _, .loaded h => Source.Loader.load_regular h
  | _, .built hc h => (Archive.Regular.ofCollection hc.regular _).build h
  | _, .restored read h => (ArtifactKind.read_regular read).build h

end

end RuleRegistry
