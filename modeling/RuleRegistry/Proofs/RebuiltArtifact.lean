import RuleRegistry.Proofs.CanonicalArtifact

namespace RuleRegistry

open Outcome

namespace Archive

/-- No name of a rule comes twice, and no tag name of a rule. -/
structure Distinct (a : Archive) : Prop where
  names : (Entries.keys a.declared).Nodup
  tags : ∀ e ∈ a.declared, (Entries.keys e.2.tags).Nodup

/-- The contents without the tags that have no instance. -/
def inUse (a : Archive) : Archive :=
  ⟨a.names, Entries.mapValues (fun d => ⟨d.expression, d.tags.filter fun t => !t.2.isEmpty⟩) a.declared⟩

theorem used_inUse (a : Archive) : Artifact.Used a.inUse := by
  intro e he t ht
  obtain ⟨d, _, rfl⟩ := List.mem_map.mp he
  simpa using (List.mem_filter.mp ht).2

theorem inUse_eq_iff {a : Archive} : a.inUse = a ↔ Artifact.Used a := by
  constructor
  · exact fun same => same ▸ a.used_inUse
  · intro used
    have each : ∀ e ∈ a.declared, (e.2.tags.filter fun t => !t.2.isEmpty) = e.2.tags :=
      fun e he => List.filter_eq_self.mpr fun t ht => by simp [used e he t ht]
    have declared : a.inUse.declared = a.declared := by
      refine (List.map_congr_left fun e he => ?_).trans (List.map_id a.declared)
      exact congrArg (fun tags => (e.1, Declaration.mk e.2.expression tags)) (each e he)
    exact congrArg (Archive.mk a.names) declared

end Archive

namespace Artifact

open Yaml Reading

theorem Payload.distinct_archive (p : Payload) : p.archive.Distinct where
  names := Entries.nodup_ofPairs _
  tags e he := by
    rcases Entries.mem_putAll he with he | he
    · cases he
    · obtain ⟨r, _, rfl⟩ := List.mem_map.mp he
      exact Entries.nodup_ofPairs _

theorem readDeclaration_distinct (a : Anchors) (n : Node Nat) :
    Ensures (readDeclaration a n) fun d => (Entries.keys d.tags).Nodup := by
  have tags (m : Node Nat) : Ensures (readTags a m) fun tags => (Entries.keys tags).Nodup :=
    fun left read left' h => (Ensures.table (fun _ => .any _) left read left' h).1
  refine Ensures.bind (.any _) fun parts _ => Ensures.bind (.any _) fun expression _ => ?_
  refine Ensures.bind (Ensures.part tags (Ensures.pure List.nodup_nil)) fun tags ht => ?_
  exact Ensures.pure ht

theorem readArchive_distinct (a : Anchors) (n : Node Nat) :
    Ensures (readArchive a n) Archive.Distinct := by
  have rules (m : Node Nat) := Ensures.table (a := a) (n := m) (readDeclaration_distinct a)
  refine Ensures.bind (.any _) fun parts _ => Ensures.bind (.any _) fun className _ => ?_
  refine Ensures.bind (.any _) fun baseName _ => ?_
  refine Ensures.bind (Ensures.part rules (Ensures.pure ⟨List.nodup_nil, by simp⟩)) fun declared hd => ?_
  exact Ensures.pure ⟨hd.1, hd.2⟩

end Artifact

theorem ArtifactKind.read_distinct {kind : ArtifactKind} {bytes : Bytes} {a : Archive}
    (h : kind.read bytes = .ok a) :
    a.Distinct ∧ ∀ e ∈ a.declared, Text.isBlank e.2.expression = false := by
  cases kind with
  | binary =>
    obtain ⟨p, _, _, _, _, rfl, stated⟩ := Artifact.readBinary_eq_ok h
    exact ⟨p.distinct_archive, stated⟩
  | yaml =>
    obtain ⟨d, left, left', read, stated⟩ := Artifact.readDocument_eq_ok h
    exact ⟨Artifact.readArchive_distinct d.anchors d.root left a left' read, stated⟩

namespace Artifact

/-- What was read from an artifact is built and captured again. All that gets lost is a tag without an
instance. -/
structure Rebuilt (a : Archive) (c : Collection) : Prop where
  built : a.build = .ok c
  captured : Archive.ofCollection c a.names = a.inUse
  whole : Archive.ofCollection c a.names = a ↔ Used a
  again : (Archive.ofCollection c a.names).build = .ok c

theorem rebuilt_of_read {kind : ArtifactKind} {bytes : Bytes} {a : Archive}
    (accepted : kind.read bytes = .ok a) : ∃ c, Rebuilt a c := by
  obtain ⟨distinct, stated⟩ := ArtifactKind.read_distinct accepted
  have built := Archive.build_of_nodup distinct.names fun e he => ⟨stated e he, distinct.tags e he⟩
  have regular := (ArtifactKind.read_regular accepted).build built
  have captured : Archive.ofCollection ⟨Entries.mapValues Declaration.rule a.declared, []⟩ a.names =
      a.inUse := by
    simp [Archive.ofCollection, Archive.inUse, Entries.mapValues, Declaration.rule]
  refine ⟨_, built, captured, ?_, Archive.build_ofCollection regular a.names⟩
  rw [captured]
  exact Archive.inUse_eq_iff

/-- A document that declares a tag without an instance. -/
def unusedTag : String :=
  "class: A\nbase_class: B\nrules:\n  a:\n    expression: '1'\n    tags:\n      t: []\n"

theorem read_unusedTag : ∃ a, ArtifactKind.yaml.read (Bytes.ofText unusedTag) = .ok a ∧ ¬ Used a := by
  have found : ((readDocument (Bytes.ofText unusedTag)).toOption.map fun a =>
      a.declared.map fun e => e.2.tags.map fun t => t.2.length) = some [[0]] := by decide +kernel
  obtain ⟨a, read, lengths⟩ := exists_of_toOption found
  refine ⟨a, read, fun used => ?_⟩
  obtain ⟨e, he, tags⟩ := List.mem_map.mp (lengths ▸ List.mem_singleton_self [0])
  obtain ⟨t, ht, empty⟩ := List.mem_map.mp (tags ▸ List.mem_singleton_self 0)
  exact used e he t ht (List.eq_nil_of_length_eq_zero empty)

/-- The document, and a binary artifact that comes back as it was. -/
theorem rebuilt_of_read_unusedTag :
    (∃ a c, ArtifactKind.yaml.read (Bytes.ofText unusedTag) = .ok a ∧ Rebuilt a c) ∧
    ∃ c, Rebuilt (.ofCollection signedSample {}) c := by
  have read : ArtifactKind.binary.read signedArtifact = .ok (.ofCollection signedSample {}) :=
    read_signedArtifact
  obtain ⟨a, accepted, _⟩ := read_unusedTag
  obtain ⟨c, rebuilt⟩ := rebuilt_of_read accepted
  exact ⟨⟨a, c, accepted, rebuilt⟩, rebuilt_of_read read⟩

/-- What is built of the document is captured without the tag. -/
theorem not_captured_as_read : ¬ ∀ (kind : ArtifactKind) (bytes : Bytes) (a : Archive),
    kind.read bytes = .ok a →
      ∃ c, a.build = .ok c ∧ Archive.ofCollection c a.names = a := by
  intro whole
  obtain ⟨a, accepted, unused⟩ := read_unusedTag
  obtain ⟨c, built, captured⟩ := whole .yaml _ a accepted
  have regular := (ArtifactKind.read_regular accepted).build built
  refine unused ?_
  rw [← captured]
  intro e he
  obtain ⟨entry, there, rfl⟩ := List.mem_map.mp he
  exact (regular.rules entry there).tags.used

end Artifact

end RuleRegistry
