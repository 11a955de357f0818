import RuleRegistry.Proofs.DamagedArtifact
import RuleRegistry.Proofs.ShortestWire

/-!
Binary artifacts written again. What is read from one is written in as many bytes or fewer: a payload
comes back as it was where it holds nothing that reading loses, and gets shorter where it has bytes
behind its data, a number in more bytes than it needs, or a key that comes twice.
-/

namespace RuleRegistry.Artifact

open Outcome Wire

theorem shortest_attributes : Shortest decodeAttributes encodeAttributes :=
  (shortest_text.pair fun bytes v rest read => shortest_value bytes.length bytes v rest read).run

theorem shortest_tag : Shortest decodeTag encodeTag := shortest_text.pair shortest_attributes.run

theorem shortest_rule : Shortest decodeRule encodeRule :=
  (shortest_text.pair (shortest_text.pair shortest_tag.run)).map
    (f := fun p => WrittenRule.mk p.1 p.2.1 p.2.2) fun _ => .inl (List.append_assoc ..)

theorem shortest_payload : Shortest decodePayload encodePayload :=
  ((shortest_text.pair shortest_text).pair ((shortest_count 8).pair shortest_rule.run)).map
    (f := fun p => Payload.mk ⟨p.1.1, p.1.2⟩ p.2.1 p.2.2) fun _ => .inl (List.append_assoc ..)

/-- The payload is one as it is written: there is nothing behind its data, every number is in as few
bytes as it can be, and nothing in it gets lost. -/
def Canonical (payload : Bytes) : Prop := ∃ p : Payload, p.Lossless ∧ payload = encodePayload p

namespace Payload

variable {p : Payload}

theorem nodup_concat {xs : List String} {x : String} (distinct : xs.Nodup) (fresh : x ∉ xs) :
    (xs ++ [x]).Nodup := by
  refine List.nodup_append.mpr ⟨distinct, by simp, fun y there z same eq => fresh ?_⟩
  rwa [← List.mem_singleton.mp same, ← eq]

theorem nodup_of_firstRepeat {seen xs : List String} (distinct : seen.Nodup)
    (h : firstRepeat seen xs = none) : (seen ++ xs).Nodup := by
  induction xs generalizing seen with
  | nil => rwa [List.append_nil]
  | cons x rest ih =>
    rw [firstRepeat] at h
    split at h
    · cases h
    · rename_i fresh
      simpa using ih (nodup_concat distinct fresh) h

theorem nodup_of_checkRules {seen : List String} {rules : List WrittenRule} (distinct : seen.Nodup)
    (h : checkRules seen rules = .ok ()) :
    (seen ++ rules.map WrittenRule.name).Nodup ∧ ∀ r ∈ rules, (Entries.keys r.tags).Nodup := by
  induction rules generalizing seen with
  | nil => exact ⟨by simpa using distinct, nofun⟩
  | cons r rest ih =>
    rw [checkRules] at h
    split at h
    · cases h
    · rename_i fresh
      split at h
      · cases h
      · rename_i tags
        obtain ⟨names, others⟩ := ih (nodup_concat distinct fresh) h
        exact ⟨by simpa using names,
          List.forall_mem_cons.mpr ⟨nodup_of_firstRepeat .nil tags, others⟩⟩

/-- The checks of a payload are passed. -/
structure Valid (p : Payload) : Prop where
  counted : p.count = p.rules.length
  named : p.names.className ≠ ""
  names : (p.rules.map WrittenRule.name).Nodup
  tags : ∀ r ∈ p.rules, (Entries.keys r.tags).Nodup

theorem valid_of_check (h : p.check = .ok ()) : p.Valid := by
  rw [check] at h
  split at h
  · cases h
  · rename_i counted
    split at h
    · cases h
    · rename_i named
      obtain ⟨names, tags⟩ := nodup_of_checkRules .nil h
      exact ⟨Decidable.not_not.mp counted, named, names, tags⟩

/-- A tag with the attributes that are left of its own. -/
def keptTag (t : String × List Attributes) : String × List Attributes := (t.1, t.2.map Entries.ofPairs)

/-- A rule with the tags that are left of its own: those with an instance. -/
def keptRule (r : WrittenRule) : WrittenRule :=
  ⟨r.name, r.expression, (r.tags.map keptTag).filter fun t => !t.2.isEmpty⟩

def kept (p : Payload) : Payload := ⟨p.names, p.rules.length, p.rules.map keptRule⟩

/-- The collection that is built of a payload. -/
def collection (p : Payload) : Collection :=
  ⟨p.rules.map fun r => (r.name, ⟨r.expression, (keptRule r).tags⟩), []⟩

theorem ofArchive_collection (p : Payload) :
    ofArchive (.ofCollection p.collection p.names) = p.kept := by
  simp [ofArchive, Archive.ofCollection, collection, kept, keptRule, Entries.mapValues,
    Function.comp_def]

theorem keys_keptTag (tags : WrittenTags) : Entries.keys (tags.map keptTag) = Entries.keys tags := by
  simp [Entries.keys, keptTag]

theorem Valid.archive (h : p.Valid) : p.archive =
    ⟨p.names, p.rules.map fun r => (r.name, ⟨r.expression, r.tags.map keptTag⟩)⟩ := by
  have rules : p.rules.map (fun r => (r.name, declaration r)) =
      p.rules.map fun r => (r.name, (⟨r.expression, r.tags.map keptTag⟩ : Declaration)) := by
    refine List.map_congr_left fun r hr => ?_
    rw [declaration]
    change (r.name, (⟨r.expression, Entries.ofPairs (r.tags.map keptTag)⟩ : Declaration)) = _
    rw [Entries.ofPairs_of_nodup (by rw [keys_keptTag]; exact h.tags r hr)]
  rw [Payload.archive, rules, Entries.ofPairs_of_nodup]
  have names := h.names
  simpa [Entries.keys, Function.comp_def] using names

theorem Valid.build (h : p.Valid)
    (stated : ∀ e ∈ p.archive.declared, Text.isBlank e.2.expression = false) :
    p.archive.build = .ok p.collection := by
  have names := h.names
  rw [h.archive] at stated ⊢
  rw [Archive.build_of_nodup]
  · simp [Entries.mapValues, Declaration.rule, collection, keptRule, Function.comp_def]
  · simpa [Entries.keys, Function.comp_def] using names
  · intro e he
    refine ⟨stated e he, ?_⟩
    obtain ⟨r, hr, rfl⟩ := List.mem_map.mp he
    rw [keys_keptTag]
    exact h.tags r hr

theorem noLonger_keptTag (t : String × List Attributes) :
    NoLonger (encodeTag (keptTag t)) (encodeTag t) :=
  (NoLonger.refl _).append (noLonger_run fun as _ => noLonger_ofPairs encodeField_ne_nil as)

theorem noLonger_keptRule (r : WrittenRule) : NoLonger (encodeRule (keptRule r)) (encodeRule r) :=
  (NoLonger.refl _).append <|
    (fewer_of_sublist encodeTag_ne_nil List.filter_sublist).run.trans
      (noLonger_run fun t _ => noLonger_keptTag t)

theorem Valid.noLonger (h : p.Valid) : NoLonger (encodePayload p.kept) (encodePayload p) := by
  rw [encodePayload, encodePayload, h.counted]
  exact (NoLonger.refl _).append (noLonger_run fun r _ => noLonger_keptRule r)

theorem Lossless.kept (h : p.Lossless) : p.kept = p := by
  have tag : ∀ r ∈ p.rules, ∀ t ∈ r.tags, keptTag t = t := fun r hr t ht =>
    congrArg (Prod.mk t.1) (map_ofPairs_of_regular (h.attributes r hr t ht))
  have rule : ∀ r ∈ p.rules, keptRule r = r := by
    intro r hr
    have tags : r.tags.map keptTag = r.tags :=
      (List.map_congr_left (tag r hr)).trans (List.map_id' r.tags)
    have all : r.tags.filter (fun t => !t.2.isEmpty) = r.tags :=
      List.filter_eq_self.mpr fun t ht => by simp [h.used r hr t ht]
    rw [keptRule, tags, all]
  have rules : p.rules.map keptRule = p.rules :=
    (List.map_congr_left rule).trans (List.map_id' p.rules)
  rw [Payload.kept, rules, ← h.counted]

end Payload

/-- The contents of an artifact come from its payload, read up to some place. -/
theorem readBinary_eq_ok {b : Bytes} {a : Archive} (h : readBinary b = .ok a) :
    ∃ p rest, Intact b ∧ decodePayload (b.drop headerSize) = some (p, rest) ∧ p.Valid ∧
      a = p.archive ∧ ∀ e ∈ a.declared, Text.isBlank e.2.expression = false := by
  rw [readBinary] at h
  obtain ⟨payload, found, h⟩ := bind_ok_iff.mp h
  obtain ⟨intact, rfl⟩ := payload?_ok_iff.mp found
  split at h
  · cases h
  · rename_i p rest decoded
    obtain ⟨_, checked, h⟩ := bind_ok_iff.mp h
    obtain ⟨rfl, stated⟩ := Archive.checked_ok_iff.mp h
    exact ⟨p, rest, intact, decoded, Payload.valid_of_check checked, rfl, stated⟩

/-- The same bytes, but for those of a header that are not looked at. -/
structure SameButUnread (a b : Bytes) : Prop where
  length : a.length = b.length
  front : a.take 6 = b.take 6
  back : a.drop 12 = b.drop 12

section

variable {a b : Bytes}

theorem SameButUnread.payload (h : SameButUnread a b) : a.drop headerSize = b.drop headerSize := by
  have behind := congrArg (List.drop 20) h.back
  rwa [List.drop_drop, List.drop_drop] at behind

theorem Intact.size_lt (intact : Intact b) : (b.drop headerSize).length < 0x100000000 := by
  have long := intact.long
  have bound := leValue_lt (slice b 12 4)
  simp only [headerSize] at long
  rw [length_slice (by omega), intact.stated] at bound
  rwa [List.length_drop]

/-- The payload says all that is looked at of an artifact. -/
theorem Intact.sameButUnread (intact : Intact a) (intact' : Intact b)
    (payload : a.drop headerSize = b.drop headerSize) : SameButUnread a b := by
  have long := intact.long
  have long' := intact'.long
  have lengths := congrArg List.length payload
  simp only [headerSize, List.length_drop] at long long' lengths
  have slice_eq {start length : Nat} (there : start + length ≤ 32)
      (same : leValue (slice a start length) = leValue (slice b start length)) :
      slice a start length = slice b start length := by
    refine leValue_inj ?_ same
    rw [length_slice (by omega), length_slice (by omega)]
  have start : slice a 0 4 = slice b 0 4 := intact.magic.trans intact'.magic.symm
  have version : slice a 4 2 = slice b 4 2 :=
    slice_eq (by decide) (intact.version.trans intact'.version.symm)
  have stated : slice a 12 4 = slice b 12 4 := by
    refine slice_eq (by decide) (intact.stated.trans (Eq.trans ?_ intact'.stated.symm))
    simp only [headerSize]
    omega
  have sum : slice a 16 16 = slice b 16 16 := by
    rw [intact.sum, intact'.sum, payload]
  have front (bytes : Bytes) : bytes.take 6 = slice bytes 0 4 ++ slice bytes 4 2 := by
    have parts : bytes.take (4 + 2) = _ := List.take_add
    exact parts
  have back (bytes : Bytes) : bytes.drop 12 =
      slice bytes 12 4 ++ (slice bytes 16 16 ++ bytes.drop headerSize) := by
    have behind : slice bytes 16 16 ++ bytes.drop headerSize = bytes.drop 16 := by
      have parts := List.take_append_drop 16 (bytes.drop 16)
      rwa [List.drop_drop] at parts
    have parts := List.take_append_drop 4 (bytes.drop 12)
    rw [List.drop_drop] at parts
    rw [behind]
    exact parts.symm
  exact ⟨by omega, by rw [front, front, start, version], by rw [back, back, stated, sum, payload]⟩

end

/-- Every tag that is declared has an instance. -/
def Used (a : Archive) : Prop := ∀ e ∈ a.declared, ∀ t ∈ e.2.tags, t.2 ≠ []

theorem Payload.Valid.used {p : Payload} (h : p.Valid) (used : Used p.archive) :
    ∀ r ∈ p.rules, ∀ t ∈ r.tags, t.2 ≠ [] := by
  intro r hr t ht none
  rw [h.archive] at used
  refine used _ (List.mem_map_of_mem hr) (keptTag t) (List.mem_map_of_mem ht) ?_
  rw [keptTag, none]
  rfl

theorem Payload.Valid.ofCollection_of_used {p : Payload} (h : p.Valid) (used : Used p.archive) :
    Archive.ofCollection p.collection p.names = p.archive := by
  have kept : ∀ r ∈ p.rules, (keptRule r).tags = r.tags.map keptTag := by
    intro r hr
    refine List.filter_eq_self.mpr fun t ht => ?_
    obtain ⟨t, there, rfl⟩ := List.mem_map.mp ht
    simp [keptTag, h.used used r hr t there]
  rw [h.archive]
  simp only [Archive.ofCollection, collection, Entries.mapValues, List.map_map, Archive.mk.injEq,
    true_and]
  refine List.map_congr_left fun r hr => ?_
  simp [kept r hr]

/-- What was read from an artifact is built and written again. -/
structure Rewritten (b : Bytes) (a : Archive) (c : Collection) (b' : Bytes) : Prop where
  built : a.build = .ok c
  written : writeBinary c a.names = .ok b'
  read : readBinary b' = .ok (.ofCollection c a.names)
  rebuilt : (Archive.ofCollection c a.names).build = .ok c
  short : b'.length ≤ b.length
  shorter : ¬ Canonical (b.drop headerSize) → b'.length < b.length
  same : SameButUnread b' b ↔ Canonical (b.drop headerSize)
  kept : Used a → Archive.ofCollection c a.names = a

theorem rewritten_of_readBinary {b : Bytes} {a : Archive} (accepted : readBinary b = .ok a) :
    ∃ c b', Rewritten b a c b' := by
  obtain ⟨p, rest, intact, decoded, valid, rfl, stated⟩ := readBinary_eq_ok accepted
  have built := valid.build stated
  have regular := (readBinary_regular accepted).build built
  have lossless : p.kept.Lossless :=
    p.ofArchive_collection ▸ Payload.lossless_ofArchive regular
  have again : NoLonger (encodePayload p.kept) (b.drop headerSize) := by
    obtain ⟨front, parted, short⟩ := shortest_payload _ _ _ decoded
    rw [parted]
    exact valid.noLonger.trans (short.trans (.front front rest))
  have size := Nat.lt_of_le_of_lt again.length_le intact.size_lt
  have canonical_of_eq (same : encodePayload p.kept = b.drop headerSize) :
      Canonical (b.drop headerSize) := ⟨p.kept, lossless, same.symm⟩
  have written : writeBinary p.collection p.names =
      .ok (header (encodePayload p.kept) ++ encodePayload p.kept) := by
    rw [writeBinary_ok_iff, Payload.ofArchive_collection]
    exact ⟨size, rfl⟩
  have behind : (header (encodePayload p.kept) ++ encodePayload p.kept).drop headerSize =
      encodePayload p.kept := by
    rw [← length_header (encodePayload p.kept), List.drop_left]
  have long := intact.long
  have lengths : (b.drop headerSize).length = b.length - headerSize := List.length_drop
  refine ⟨p.collection, _, {
    built := built
    written := written
    read := readBinary_of_regular regular valid.named written
    rebuilt := Archive.build_ofCollection regular p.names
    short := ?_
    shorter := fun odd => ?_
    same := ⟨fun same => ?_, ?_⟩
    kept := valid.ofCollection_of_used }⟩
  · have le := again.length_le
    rw [List.length_append, length_header]
    omega
  · rcases again with same | less
    · exact absurd (canonical_of_eq same) odd
    · rw [List.length_append, length_header]
      omega
  · exact canonical_of_eq (behind.symm.trans same.payload)
  · rintro ⟨q, lossless, whole⟩
    have wide : (encodePayload q).length < 0x10000000000000000 :=
      whole ▸ Nat.lt_trans intact.size_lt (by decide)
    have given := gives_payload lossless wide []
    rw [List.append_nil, ← whole, decoded] at given
    cases given
    exact (intact_of_written written).sameButUnread intact (by rw [behind, lossless.kept, whole])

/-- The payload of no rules, with the length of the first name in three bytes. -/
def longPayload : Bytes := [251, 1, 0, 67, 1, 66, 0, 0]

def longArtifact : Bytes := header longPayload ++ longPayload

theorem readBinary_longArtifact : readBinary longArtifact = .ok ⟨⟨"C", "B"⟩, []⟩ := by
  have decoded : decodePayload longPayload = some (⟨⟨"C", "B"⟩, 0, []⟩, []) := by rfl
  rw [readBinary, longArtifact, payload?_header (by decide)]
  simp only [Except.bind, decoded]
  rfl

/-- An artifact with a number that takes more bytes than it needs, and one with another engine version
in its header. -/
theorem rewritten_of_readBinary_long : (∃ c b', Rewritten longArtifact ⟨⟨"C", "B"⟩, []⟩ c b') ∧
    ∃ c b', Rewritten (signedArtifact.set 7 9) (.ofCollection signedSample {}) c b' := by
  have read : readBinary (signedArtifact.set 7 9) = .ok (.ofCollection signedSample {}) := by
    rw [(intact_of_written written_signedArtifact).detectsDamage.unread _ (by decide +kernel)
      (by decide +kernel) (by decide +kernel)]
    exact read_signedArtifact
  exact ⟨rewritten_of_readBinary readBinary_longArtifact, rewritten_of_readBinary read⟩

theorem longArtifact_not_rewritten : ¬ ∀ (b : Bytes) (a : Archive), readBinary b = .ok a →
    ∃ c b', a.build = .ok c ∧ writeBinary c a.names = .ok b' ∧ SameButUnread b' b := by
  intro canonical
  obtain ⟨c, b', built, written, same⟩ := canonical longArtifact _ readBinary_longArtifact
  cases built
  obtain ⟨_, rfl⟩ := writeBinary_ok_iff.mp written
  have lengths := same.length
  rw [longArtifact, List.length_append, List.length_append, length_header, length_header] at lengths
  revert lengths
  decide +kernel

end RuleRegistry.Artifact
