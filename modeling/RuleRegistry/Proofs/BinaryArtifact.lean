import RuleRegistry.Proofs.Reachable
import RuleRegistry.Proofs.WireCodec

namespace RuleRegistry

open Outcome

namespace Entries

variable {α : Type}

theorem find?_append_of_not_mem {front : Entries α} {key : String} (h : key ∉ keys front)
    (back : Entries α) : find? (front ++ back) key = find? back key := by
  induction front with
  | nil => rfl
  | cons e rest ih =>
    obtain ⟨other, there⟩ := not_or.mp (fun mem => h (List.mem_cons.mpr mem))
    rw [List.cons_append, find?, if_neg (Ne.symm other)]
    exact ih there

theorem put_append_of_not_mem {front : Entries α} {key : String} (h : key ∉ keys front)
    (back : Entries α) (value : α) : put (front ++ back) key value = front ++ put back key value := by
  induction front with
  | nil => rfl
  | cons e rest ih =>
    obtain ⟨other, there⟩ := not_or.mp (fun mem => h (List.mem_cons.mpr mem))
    rw [List.cons_append, put, if_neg (Ne.symm other), ih there]
    rfl

end Entries

namespace Rule

theorem addTag_new {front : Tags} {tag : String} (h : tag ∉ Entries.keys front) (expression : String)
    (as : Attributes) :
    Rule.addTag ⟨expression, front⟩ tag as = ⟨expression, front ++ [(tag, [as])]⟩ := by
  rw [addTag, Tags.add, (Entries.find?_eq_none_iff front tag).mpr h, Entries.put_of_not_mem h]
  rfl

theorem addTag_last {front : Tags} {tag : String} (h : tag ∉ Entries.keys front) (expression : String)
    (given : List Attributes) (as : Attributes) :
    Rule.addTag ⟨expression, front ++ [(tag, given)]⟩ tag as =
      ⟨expression, front ++ [(tag, given ++ [as])]⟩ := by
  rw [addTag, Tags.add, Entries.find?_append_of_not_mem h, Entries.put_append_of_not_mem h]
  simp [Entries.find?, Entries.put]

theorem addTag_instances {front : Tags} {tag : String} (h : tag ∉ Entries.keys front)
    (expression : String) (given items : List Attributes) :
    items.foldl (fun (r : Rule) as => r.addTag tag as) ⟨expression, front ++ [(tag, given)]⟩ =
      ⟨expression, front ++ [(tag, given ++ items)]⟩ := by
  induction items generalizing given with
  | nil => simp
  | cons as rest ih =>
    rw [List.foldl_cons, addTag_last h, ih]
    simp

end Rule

/-- The rule that a declaration stands for. A tag without an instance is none of it. -/
def Declaration.rule (d : Declaration) : Rule :=
  ⟨d.expression, d.tags.filter fun t => !t.2.isEmpty⟩

namespace Archive

theorem addTag_tags (front : Tags) {tags : Tags} (nodup : (Entries.keys (front ++ tags)).Nodup)
    (expression : String) :
    tags.foldl (fun (r : Rule) t => t.2.foldl (fun r attributes => r.addTag t.1 attributes) r)
      ⟨expression, front⟩ = ⟨expression, front ++ tags.filter fun t => !t.2.isEmpty⟩ := by
  induction tags generalizing front with
  | nil => simp
  | cons t rest ih =>
    obtain ⟨tag, items⟩ := t
    have fresh : tag ∉ Entries.keys front := Entries.not_mem_of_nodup_append nodup
    rw [List.foldl_cons]
    cases items with
    | nil =>
      have fewer : (front ++ rest).Sublist (front ++ (tag, []) :: rest) :=
        (List.sublist_cons_self _ rest).append_left front
      rw [List.foldl_nil, ih front (nodup.sublist (fewer.map Prod.fst))]
      rfl
    | cons as more =>
      rw [List.foldl_cons, Rule.addTag_new fresh, Rule.addTag_instances fresh,
        List.singleton_append, ih _ (by simpa using nodup)]
      simp

theorem buildRule_of_nodup {d : Declaration} (stated : Text.isBlank d.expression = false)
    (nodup : (Entries.keys d.tags).Nodup) : buildRule d = .ok d.rule := by
  have bare : Rule.new d.expression = .ok ⟨d.expression, []⟩ :=
    Rule.new_eq_ok_iff.mpr ⟨stated, rfl⟩
  rw [buildRule, bare]
  exact congrArg Except.ok (addTag_tags [] nodup d.expression)

theorem buildFrom_of_nodup {declared : Entries Declaration} {c : Collection}
    (nodup : (Entries.keys c.rules ++ Entries.keys declared).Nodup)
    (each : ∀ e ∈ declared, Text.isBlank e.2.expression = false ∧ (Entries.keys e.2.tags).Nodup) :
    buildFrom c declared = .ok ⟨c.rules ++ Entries.mapValues Declaration.rule declared, c.files⟩ := by
  induction declared generalizing c with
  | nil => simp [Entries.mapValues, buildFrom]
  | cons e rest ih =>
    obtain ⟨⟨stated, distinct⟩, others⟩ := List.forall_mem_cons.mp each
    have fresh : e.1 ∉ Entries.keys c.rules := fun there =>
      (List.nodup_append.mp nodup).2.2 e.1 there e.1 List.mem_cons_self rfl
    have added : c.add e.1 e.2.rule = ⟨c.rules ++ [(e.1, e.2.rule)], c.files⟩ := by
      rw [Collection.add, Entries.erase_of_not_mem fresh]
    have next : (Entries.keys (c.rules ++ [(e.1, e.2.rule)]) ++ Entries.keys rest).Nodup := by
      simpa [Entries.keys] using nodup
    rw [buildFrom, buildRule_of_nodup stated distinct, Except.bind, added, ih next others]
    simp [Entries.mapValues]

/-- What is declared is built where no name of a rule or of a tag of it comes twice. -/
theorem build_of_nodup {a : Archive} (nodup : (Entries.keys a.declared).Nodup)
    (each : ∀ e ∈ a.declared, Text.isBlank e.2.expression = false ∧ (Entries.keys e.2.tags).Nodup) :
    a.build = .ok ⟨Entries.mapValues Declaration.rule a.declared, []⟩ :=
  buildFrom_of_nodup (c := .empty) nodup each

theorem rule_of_regular {r : Rule} (h : r.Regular) : Declaration.rule ⟨r.expression, r.tags⟩ = r := by
  have all : r.tags.filter (fun t => !t.2.isEmpty) = r.tags :=
    List.filter_eq_self.mpr fun t ht => by simp [h.tags.used t ht]
  rw [Declaration.rule, all]

theorem build_ofCollection {c : Collection} (h : c.Regular) (names : ArtifactNames) :
    (ofCollection c names).build = .ok ⟨c.rules, []⟩ := by
  have same : Entries.mapValues Declaration.rule (ofCollection c names).declared = c.rules := by
    simp only [ofCollection, Entries.mapValues, List.map_map]
    refine (List.map_congr_left fun e he => ?_).trans (List.map_id c.rules)
    exact congrArg (Prod.mk e.1) (rule_of_regular (h.rules e he))
  rw [build_of_nodup, same]
  · rw [ofCollection, Entries.keys_mapValues]
    exact h.nodup
  · intro e he
    obtain ⟨rule, mem, rfl⟩ := List.mem_map.mp he
    exact ⟨(h.rules rule mem).stated, (h.rules rule mem).tags.nodup⟩

theorem checked_ofCollection {c : Collection} (h : c.Regular) (names : ArtifactNames) :
    (ofCollection c names).checked = .ok (ofCollection c names) := by
  refine checked_ok_iff.mpr ⟨rfl, fun e he => ?_⟩
  obtain ⟨d, hd, rfl⟩ := List.mem_map.mp he
  exact (h.rules d hd).stated

end Archive

namespace Artifact

open Wire

theorem encodeRun_ne_nil {α : Type} (encode : α → Bytes) (items : List α) :
    encodeRun encode items ≠ [] := by
  simp [encodeRun, encodeCount_ne_nil]

theorem encodeTag_ne_nil (tag : String × List Attributes) : encodeTag tag ≠ [] := by
  simp [encodeTag, encodeText_ne_nil]

theorem encodeRule_ne_nil (r : WrittenRule) : encodeRule r ≠ [] := by
  simp [encodeRule, encodeText_ne_nil]

theorem gives_attributes {as : Attributes} (regular : as.Regular)
    (short : (encodeAttributes as).length < 0x10000000000000000) :
    Gives decodeAttributes (encodeAttributes as) as := by
  have whole : (encodeRun encodeField as).length < 0x10000000000000000 := short
  change Gives decodeAttributes (encodeRun encodeField as) as
  refine gives_run (fun e _ => encodeField_ne_nil e) whole fun e he bound => ?_
  rw [encodeRun, List.length_append] at whole
  rw [encodeField, List.length_append] at bound
  refine (gives_text (by omega)).pair fun rest => ?_
  exact gives_value (regular.values e he) (by simp) (by omega) rest

theorem gives_tag {t : String × List Attributes} (regular : ∀ as ∈ t.2, Attributes.Regular as)
    (short : (encodeTag t).length < 0x10000000000000000) : Gives decodeTag (encodeTag t) t := by
  rw [encodeTag, List.length_append] at short
  have runs : (encodeRun encodeAttributes t.2).length < 0x10000000000000000 := by omega
  have instances : Gives (decodeRun decodeAttributes) (encodeRun encodeAttributes t.2) t.2 := by
    refine gives_run (fun as _ => encodeRun_ne_nil _ as) runs fun as has bound => ?_
    rw [encodeRun, List.length_append] at runs
    exact gives_attributes (regular as has) (by omega)
  exact (gives_text (by omega)).pair instances

theorem gives_rule {r : WrittenRule} (regular : ∀ t ∈ r.tags, ∀ as ∈ t.2, Attributes.Regular as)
    (short : (encodeRule r).length < 0x10000000000000000) : Gives decodeRule (encodeRule r) r := by
  rw [encodeRule, List.length_append, List.length_append] at short
  have runs : (encodeRun encodeTag r.tags).length < 0x10000000000000000 := by omega
  have tags : Gives (decodeRun decodeTag) (encodeRun encodeTag r.tags) r.tags := by
    refine gives_run (fun t _ => encodeTag_ne_nil t) runs fun t ht bound => ?_
    rw [encodeRun, List.length_append] at runs
    exact gives_tag (regular t ht) (by omega)
  have parts := (gives_text (s := r.name) (by omega)).pair
    ((gives_text (s := r.expression) (by omega)).pair tags)
  have given := parts.map fun p => WrittenRule.mk p.1 p.2.1 p.2.2
  rwa [← List.append_assoc] at given

/-- A collection keeps everything of the payload: every tag has an instance, and no key of an instance
or of a map comes twice. -/
structure Payload.Lossless (p : Payload) : Prop where
  counted : p.count = p.rules.length
  used : ∀ r ∈ p.rules, ∀ t ∈ r.tags, t.2 ≠ []
  attributes : ∀ r ∈ p.rules, ∀ t ∈ r.tags, ∀ as ∈ t.2, Attributes.Regular as

theorem gives_payload {p : Payload} (lossless : p.Lossless)
    (short : (encodePayload p).length < 0x10000000000000000) :
    Gives decodePayload (encodePayload p) p := by
  rw [encodePayload, List.length_append, List.length_append, List.length_append] at short
  have runs : (encodeRun encodeRule p.rules).length < 0x10000000000000000 := by omega
  have few : p.rules.length < 0x10000000000000000 := by
    rw [encodeRun, List.length_append] at runs
    have bound := length_le_flatMap fun r (_ : r ∈ p.rules) => encodeRule_ne_nil r
    omega
  have rules : Gives (decodeRun decodeRule) (encodeRun encodeRule p.rules) p.rules := by
    refine gives_run (fun r _ => encodeRule_ne_nil r) runs fun r hr bound => ?_
    rw [encodeRun, List.length_append] at runs
    exact gives_rule (lossless.attributes r hr) (by omega)
  have names := (gives_text (s := p.names.className) (by omega)).pair
    (gives_text (s := p.names.baseName) (by omega))
  have count : Gives (decodeCount 8) (encodeCount p.count) p.count :=
    gives_count (.inr ⟨rfl, lossless.counted ▸ few⟩)
  have given := (names.pair (count.pair rules)).map fun q => Payload.mk ⟨q.1.1, q.1.2⟩ q.2.1 q.2.2
  rwa [← List.append_assoc] at given

namespace Payload

theorem firstRepeat_of_nodup {seen xs : List String} (h : (seen ++ xs).Nodup) :
    firstRepeat seen xs = none := by
  induction xs generalizing seen with
  | nil => rfl
  | cons x rest ih =>
    have fresh : x ∉ seen := fun there =>
      (List.nodup_append.mp h).2.2 x there x List.mem_cons_self rfl
    rw [firstRepeat, if_neg fresh]
    exact ih (by simpa using h)

theorem checkRules_of_nodup {seen : List String} {rules : List WrittenRule}
    (names : (seen ++ rules.map WrittenRule.name).Nodup)
    (tags : ∀ r ∈ rules, (Entries.keys r.tags).Nodup) : checkRules seen rules = .ok () := by
  induction rules generalizing seen with
  | nil => rfl
  | cons r rest ih =>
    obtain ⟨first, others⟩ := List.forall_mem_cons.mp tags
    have fresh : r.name ∉ seen := fun there =>
      (List.nodup_append.mp names).2.2 r.name there r.name List.mem_cons_self rfl
    have distinct : firstRepeat [] (r.tags.map Prod.fst) = none := firstRepeat_of_nodup first
    rw [checkRules, if_neg fresh, distinct]
    exact ih (by simpa using names) others

variable {c : Collection} {names : ArtifactNames}

theorem names_ofArchive :
    (ofArchive (.ofCollection c names)).rules.map WrittenRule.name = c.names := by
  simp [ofArchive, Archive.ofCollection, Entries.mapValues, Collection.names, Entries.keys]

theorem mem_ofArchive {r : WrittenRule} (h : r ∈ (ofArchive (.ofCollection c names)).rules) :
    ∃ e ∈ c.rules, r = ⟨e.1, e.2.expression, e.2.tags⟩ := by
  simp only [ofArchive, Archive.ofCollection, Entries.mapValues, List.map_map, List.mem_map] at h
  obtain ⟨e, he, rfl⟩ := h
  exact ⟨e, he, rfl⟩

theorem counted_ofArchive (a : Archive) : (ofArchive a).count = (ofArchive a).rules.length := by
  simp [ofArchive]

theorem lossless_ofArchive (regular : c.Regular) :
    (ofArchive (.ofCollection c names)).Lossless where
  counted := counted_ofArchive _
  used := by
    intro r hr
    obtain ⟨e, he, rfl⟩ := mem_ofArchive hr
    exact (regular.rules e he).tags.used
  attributes := by
    intro r hr
    obtain ⟨e, he, rfl⟩ := mem_ofArchive hr
    exact (regular.rules e he).tags.attributes

theorem check_ofArchive (h : c.Regular) (named : names.className ≠ "") :
    (ofArchive (.ofCollection c names)).check = .ok () := by
  have class_named : ¬ (ofArchive (.ofCollection c names)).names.className = "" := named
  rw [check, if_neg (fun mismatch => mismatch (counted_ofArchive _)), if_neg class_named]
  refine checkRules_of_nodup ?_ fun r hr => ?_
  · rw [List.nil_append, names_ofArchive]
    exact h.nodup
  · obtain ⟨e, he, rfl⟩ := mem_ofArchive hr
    exact (h.rules e he).tags.nodup

theorem check_of_unnamed (unnamed : names.className = "") :
    (ofArchive (.ofCollection c names)).check = .error .emptyClassName := by
  have class_unnamed : (ofArchive (.ofCollection c names)).names.className = "" := unnamed
  rw [check, if_neg (fun mismatch => mismatch (counted_ofArchive _)), if_pos class_unnamed]

theorem map_ofPairs_of_regular {items : List Attributes} (h : ∀ as ∈ items, Attributes.Regular as) :
    items.map Entries.ofPairs = items := by
  refine (List.map_congr_left fun as has => ?_).trans (List.map_id items)
  exact Entries.ofPairs_of_nodup (h as has).nodup

theorem declaration_of_regular {name : String} {r : Rule} (h : r.Regular) :
    declaration ⟨name, r.expression, r.tags⟩ = ⟨r.expression, r.tags⟩ := by
  have tags : r.tags.map (fun t => (t.1, t.2.map Entries.ofPairs)) = r.tags := by
    refine (List.map_congr_left fun t ht => ?_).trans (List.map_id r.tags)
    exact congrArg (Prod.mk t.1) (map_ofPairs_of_regular (h.tags.attributes t ht))
  rw [declaration, tags, Entries.ofPairs_of_nodup h.tags.nodup]

theorem archive_ofArchive (h : c.Regular) :
    (ofArchive (.ofCollection c names)).archive = .ofCollection c names := by
  have declared : (ofArchive (.ofCollection c names)).rules.map (fun r => (r.name, declaration r)) =
      Entries.mapValues (fun r => ⟨r.expression, r.tags⟩) c.rules := by
    simp only [ofArchive, Archive.ofCollection, Entries.mapValues, List.map_map]
    exact List.map_congr_left fun e he => congrArg (Prod.mk e.1) (declaration_of_regular (h.rules e he))
  rw [archive, declared, Entries.ofPairs_of_nodup]
  · rfl
  · rw [Entries.keys_mapValues]
    exact h.nodup

end Payload

theorem length_checksum (payload : Bytes) : (checksum payload).length = 16 := by
  rw [checksum, List.length_take, Blake3.length_digest]
  rfl

theorem length_header (payload : Bytes) : (header payload).length = headerSize := by
  simp [header, length_leBytes, length_checksum, magic, headerSize]

theorem slice_append (start length : Nat) (front field back : Bytes)
    (place : front.length = start) (width : field.length = length) :
    slice (front ++ (field ++ back)) start length = field := by
  subst place width
  simp [slice]

theorem payload?_header {payload : Bytes} (short : payload.length < 0x100000000) :
    payload? (header payload ++ payload) = .ok payload := by
  have behind : (header payload ++ payload).drop headerSize = payload := by
    rw [← length_header payload, List.drop_left]
  have long : ¬ (header payload ++ payload).length < headerSize := by
    rw [List.length_append, length_header]
    omega
  have start : slice (header payload ++ payload) 0 4 = magic := by
    simp only [header, List.append_assoc]
    exact slice_append 0 4 [] magic _ rfl rfl
  have version : slice (header payload ++ payload) 4 2 = leBytes 2 formatVersion := by
    simp only [header, List.append_assoc]
    exact slice_append 4 2 magic (leBytes 2 formatVersion) _ rfl rfl
  have size : slice (header payload ++ payload) 12 4 = leBytes 4 payload.length := by
    have front := slice_append 12 4
      (magic ++ leBytes 2 formatVersion ++ leBytes 2 engineVersion ++ leBytes 4 0)
      (leBytes 4 payload.length) (checksum payload ++ payload) rfl (length_leBytes _ _)
    simpa [header] using front
  have sum : slice (header payload ++ payload) 16 16 = checksum payload := by
    have front := slice_append 16 16
      (magic ++ leBytes 2 formatVersion ++ leBytes 2 engineVersion ++ leBytes 4 0 ++
        leBytes 4 payload.length)
      (checksum payload) payload (by simp [length_leBytes, magic]) (length_checksum payload)
    simpa [header] using front
  have stated : leValue (leBytes 4 payload.length) = payload.length := by
    rw [leValue_leBytes]
    exact Nat.mod_eq_of_lt short
  have known : leValue (leBytes 2 formatVersion) = formatVersion := rfl
  unfold payload?
  dsimp only
  rw [if_neg long]
  simp [behind, start, version, size, sum, stated, known]

theorem writeBinary_ok_iff {c : Collection} {names : ArtifactNames} {bytes : Bytes} :
    writeBinary c names = .ok bytes ↔
      (encodePayload (.ofArchive (.ofCollection c names))).length < 0x100000000 ∧
        bytes = header (encodePayload (.ofArchive (.ofCollection c names))) ++
          encodePayload (.ofArchive (.ofCollection c names)) := by
  unfold writeBinary
  dsimp only
  split
  · rename_i short
    simp [short, eq_comm]
  · rename_i long
    simp [long]

theorem readBinary_of_written {c : Collection} {names : ArtifactNames} {bytes : Bytes}
    (regular : c.Regular) (written : writeBinary c names = .ok bytes) :
    readBinary bytes = (Payload.ofArchive (.ofCollection c names)).check.bind fun _ =>
      (Payload.ofArchive (.ofCollection c names)).archive.checked := by
  obtain ⟨short, rfl⟩ := writeBinary_ok_iff.mp written
  have wide : (encodePayload (.ofArchive (.ofCollection c names))).length < 0x10000000000000000 := by
    omega
  have decoded := gives_payload (Payload.lossless_ofArchive regular) wide []
  rw [List.append_nil] at decoded
  rw [readBinary, payload?_header short]
  simp only [Except.bind, decoded]

theorem readBinary_of_regular {c : Collection} {names : ArtifactNames} {bytes : Bytes}
    (regular : c.Regular) (named : names.className ≠ "") (written : writeBinary c names = .ok bytes) :
    readBinary bytes = .ok (.ofCollection c names) := by
  rw [readBinary_of_written regular written, Payload.check_ofArchive regular named,
    Payload.archive_ofArchive regular]
  exact Archive.checked_ofCollection regular names

theorem readBinary_of_unnamed {c : Collection} {names : ArtifactNames} {bytes : Bytes}
    (regular : c.Regular) (unnamed : names.className = "") (written : writeBinary c names = .ok bytes) :
    readBinary bytes = .error .emptyClassName := by
  rw [readBinary_of_written regular written, Payload.check_of_unnamed unnamed]
  rfl

/-- Whatever collection is written, reading gives what was captured of it, and that builds the rules
of the collection. -/
theorem readBinary_writeBinary {c : Collection} {names : ArtifactNames} {bytes : Bytes}
    (reachable : c.Reachable) (named : names.className ≠ "")
    (written : writeBinary c names = .ok bytes) :
    readBinary bytes = .ok (.ofCollection c names) ∧
      ∃ built, (Archive.ofCollection c names).build = .ok built ∧ built.rules = c.rules :=
  ⟨readBinary_of_regular reachable.regular named written, _,
    Archive.build_ofCollection reachable.regular names, rfl⟩

/-- A rule whose tag holds a list with a negative number and a negative zero. -/
def signedSample : Collection :=
  Collection.empty.add "a" (Rule.addTag ⟨"x", []⟩ "t"
    [("k", .list [.int (-1), .float ⟨0x8000000000000000⟩])])

theorem signedSample_reachable : signedSample.Reachable := by
  have bare : Rule.Reachable ⟨"x", []⟩ := .new (Rule.new_eq_ok_iff.mpr ⟨by decide, rfl⟩)
  refine .add .empty "a" (bare.addTag "t" ⟨by decide, fun e he => ?_⟩)
  rw [List.mem_singleton.mp he]
  exact ⟨trivial, trivial, trivial⟩

theorem readBinary_writeBinary_signed : ∃ bytes, writeBinary signedSample {} = .ok bytes ∧
    readBinary bytes = .ok (.ofCollection signedSample {}) ∧
      ∃ built, (Archive.ofCollection signedSample {}).build = .ok built ∧
        built.rules = signedSample.rules := by
  have short : (encodePayload (.ofArchive (.ofCollection signedSample {}))).length < 0x100000000 := by
    decide +kernel
  have written := writeBinary_ok_iff.mpr ⟨short, rfl⟩
  exact ⟨_, written, readBinary_writeBinary signedSample_reachable (by decide) written⟩

end Artifact

end RuleRegistry
