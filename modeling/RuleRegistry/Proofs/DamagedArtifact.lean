import RuleRegistry.Proofs.BinaryArtifact

namespace RuleRegistry.Artifact

open Wire

variable {a b payload : Bytes}

theorem slice_take {start length width : Nat} (within : start + length ≤ width) (bytes : Bytes) :
    slice (bytes.take width) start length = slice bytes start length := by
  rw [slice, slice, List.drop_take, List.take_take]
  congr 1
  omega

theorem length_slice {start length : Nat} (there : start + length ≤ b.length) :
    (slice b start length).length = length := by
  rw [slice, List.length_take, List.length_drop]
  omega

theorem slice_congr {width : Nat} (same : b.take width = a.take width) (start length : Nat)
    (within : start + length ≤ width) : slice b start length = slice a start length := by
  rw [← slice_take within b, same, slice_take within a]

/-- All checks that come before the payload is decoded are passed. -/
structure Intact (bytes : Bytes) : Prop where
  long : headerSize ≤ bytes.length
  magic : slice bytes 0 4 = magic
  version : leValue (slice bytes 4 2) = formatVersion
  stated : leValue (slice bytes 12 4) = bytes.length - headerSize
  sum : slice bytes 16 16 = checksum (bytes.drop headerSize)

theorem payload?_of_short (short : b.length < headerSize) :
    payload? b = .error (.lengthMismatch headerSize b.length) := if_pos short

section

variable (long : headerSize ≤ b.length)

include long

theorem payload?_of_magic (other : slice b 0 4 ≠ magic) : payload? b = .error .badMagic := by
  simp [payload?, Nat.not_lt.mpr long, other]

variable (start : slice b 0 4 = magic)

include start

theorem payload?_of_version (other : leValue (slice b 4 2) ≠ formatVersion) :
    payload? b = .error (.incompatibleVersion (leValue (slice b 4 2))) := by
  simp [payload?, Nat.not_lt.mpr long, start, other]

variable (version : leValue (slice b 4 2) = formatVersion)

include version

theorem payload?_of_stated (other : leValue (slice b 12 4) ≠ b.length - headerSize) :
    payload? b = .error (.lengthMismatch (leValue (slice b 12 4)) (b.length - headerSize)) := by
  simp [payload?, Nat.not_lt.mpr long, start, version, other.symm]

variable (stated : leValue (slice b 12 4) = b.length - headerSize)

include stated

theorem payload?_of_sum (other : checksum (b.drop headerSize) ≠ slice b 16 16) :
    payload? b = .error .checksumMismatch := by
  simp [payload?, Nat.not_lt.mpr long, start, version, stated, other]

end

theorem payload?_ok_iff : payload? b = .ok payload ↔ Intact b ∧ payload = b.drop headerSize := by
  constructor
  · intro read
    simp only [payload?, ite_not] at read
    split at read
    · cases read
    · rename_i long
      split at read
      · rename_i start
        split at read
        · rename_i version
          split at read
          · rename_i stated
            split at read
            · rename_i sum
              cases read
              rw [List.length_drop] at stated
              exact ⟨⟨Nat.not_lt.mp long, start, version, stated.symm, sum.symm⟩, rfl⟩
            · cases read
          · cases read
        · cases read
      · cases read
  · rintro ⟨intact, rfl⟩
    simp [payload?, Nat.not_lt.mpr intact.long, intact.magic, intact.version, intact.stated, intact.sum]

theorem intact_of_written {c : Collection} {names : ArtifactNames}
    (written : writeBinary c names = .ok a) : Intact a := by
  obtain ⟨short, rfl⟩ := writeBinary_ok_iff.mp written
  exact (payload?_ok_iff.mp (payload?_header short)).1

theorem readBinary_of_error {e : ArtifactError} (h : payload? b = .error e) :
    readBinary b = .error e := by
  rw [readBinary, h]
  rfl

/-- The header of an artifact in front of too few or too many bytes. -/
theorem Intact.readBinary_of_header (intact : Intact a) (same : b.take headerSize = a.take headerSize)
    (other : b.length ≠ a.length) :
    readBinary b = .error (.lengthMismatch (a.length - headerSize) (b.length - headerSize)) := by
  have long : headerSize ≤ b.length := by
    have lengths := congrArg List.length same
    rw [List.length_take, List.length_take] at lengths
    have := intact.long
    omega
  have start := slice_congr same 0 4 (by decide)
  have version := slice_congr same 4 2 (by decide)
  have stated := slice_congr same 12 4 (by decide)
  rw [← intact.stated, ← stated]
  refine readBinary_of_error (payload?_of_stated long (start.trans intact.magic) ?_ ?_)
  · rw [version, intact.version]
  · rw [stated, intact.stated]
    have := intact.long
    omega

theorem Intact.readBinary_of_prefix (intact : Intact a) (front : b <+: a) (cut : b ≠ a) :
    readBinary b = .error (if b.length < headerSize then .lengthMismatch headerSize b.length
      else .lengthMismatch (a.length - headerSize) (b.length - headerSize)) := by
  split
  · exact readBinary_of_error (payload?_of_short ‹_›)
  · rename_i long
    obtain ⟨rest, rfl⟩ := front
    refine intact.readBinary_of_header ?_ fun same => cut ?_
    · rw [List.take_append_of_le_length (Nat.not_lt.mp long)]
    · rw [List.length_append] at same
      rw [List.eq_nil_of_length_eq_zero (by omega : rest.length = 0), List.append_nil]

theorem Intact.readBinary_of_extension (intact : Intact a) (front : a <+: b) (longer : b ≠ a) :
    readBinary b = .error (.lengthMismatch (a.length - headerSize) (b.length - headerSize)) := by
  obtain ⟨rest, rfl⟩ := front
  refine intact.readBinary_of_header (List.take_append_of_le_length intact.long) fun same => longer ?_
  rw [List.length_append] at same
  rw [List.eq_nil_of_length_eq_zero (by omega : rest.length = 0), List.append_nil]

section

variable (intact : Intact a) (lengths : b.length = a.length)

include intact lengths

theorem Intact.long_of_length : headerSize ≤ b.length := lengths ▸ intact.long

theorem Intact.readBinary_of_magic (other : slice b 0 4 ≠ slice a 0 4) :
    readBinary b = .error .badMagic :=
  readBinary_of_error (payload?_of_magic (intact.long_of_length lengths)
    fun start => other (start.trans intact.magic.symm))

variable (start : slice b 0 4 = slice a 0 4)

include start

/-- Slices of the same width that differ stand for different numbers. -/
theorem Intact.readBinary_of_version (other : slice b 4 2 ≠ slice a 4 2) :
    readBinary b = .error (.incompatibleVersion (leValue (slice b 4 2))) := by
  have long := intact.long_of_length lengths
  refine readBinary_of_error (payload?_of_version long (start.trans intact.magic) fun version => ?_)
  have long' := intact.long
  simp only [headerSize] at long long'
  refine other (leValue_inj ?_ (version.trans intact.version.symm))
  rw [length_slice (by omega), length_slice (by omega)]

variable (version : slice b 4 2 = slice a 4 2)

include version

theorem Intact.readBinary_of_stated (other : slice b 12 4 ≠ slice a 12 4) :
    readBinary b =
      .error (.lengthMismatch (leValue (slice b 12 4)) (b.length - headerSize)) := by
  have long := intact.long_of_length lengths
  refine readBinary_of_error (payload?_of_stated long (start.trans intact.magic)
    (version.symm ▸ intact.version) fun stated => ?_)
  rw [lengths, ← intact.stated] at stated
  have long' := intact.long
  simp only [headerSize] at long long'
  refine other (leValue_inj ?_ stated)
  rw [length_slice (by omega), length_slice (by omega)]

theorem Intact.readBinary_of_sum (stated : slice b 12 4 = slice a 12 4)
    (other : checksum (b.drop headerSize) ≠ slice b 16 16) :
    readBinary b = .error .checksumMismatch := by
  refine readBinary_of_error (payload?_of_sum (intact.long_of_length lengths)
    (start.trans intact.magic) (version.symm ▸ intact.version) ?_ other)
  rw [stated, intact.stated, lengths]

end

theorem readBinary_congr (lengths : b.length = a.length) (front : b.take 6 = a.take 6)
    (back : b.drop 12 = a.drop 12) : readBinary b = readBinary a := by
  have start := slice_congr front 0 4 (by decide)
  have version := slice_congr front 4 2 (by decide)
  have stated : slice b 12 4 = slice a 12 4 := congrArg (List.take 4) back
  have sum : slice b 16 16 = slice a 16 16 := by
    have behind := congrArg (List.drop 4) back
    rw [List.drop_drop, List.drop_drop] at behind
    exact congrArg (List.take 16) behind
  have payload : b.drop headerSize = a.drop headerSize := by
    have behind := congrArg (List.drop 20) back
    rwa [List.drop_drop, List.drop_drop] at behind
  have same : payload? b = payload? a := by
    simp only [payload?, lengths, start, version, stated, sum, payload]
  rw [readBinary, readBinary, same]

/-- The bytes from one place up to another, if both places are there. -/
def range? (bytes : Bytes) (start stop : Nat) : Option Bytes :=
  if start ≤ stop ∧ stop ≤ bytes.length then some (slice bytes start (stop - start)) else none

/-- A sum of lengths, if it is one in 64 bits. -/
def plus? (m n : Nat) : Option Nat := if m + n < 0x10000000000000000 then some (m + n) else none

def minus? (m n : Nat) : Option Nat := if n ≤ m then some (m - n) else none

/-- The payload by slices and sums that fail where they are out of bounds. -/
def payloadWithin? (bytes : Bytes) : Option (Except ArtifactError Bytes) :=
  if bytes.length < headerSize then some (.error (.lengthMismatch headerSize bytes.length))
  else do
    let start ← range? bytes 0 4
    if start ≠ magic then return .error .badMagic
    let version ← range? bytes 4 6
    let stated ← range? bytes 12 16
    let sum ← range? bytes 16 headerSize
    if leValue version ≠ formatVersion then return .error (.incompatibleVersion (leValue version))
    let stop ← plus? headerSize (leValue stated)
    if bytes.length ≠ stop then
      let actual ← minus? bytes.length headerSize
      return .error (.lengthMismatch (leValue stated) actual)
    let payload ← range? bytes headerSize stop
    let found ← range? (Blake3.digest payload) 0 16
    if found ≠ sum then return .error .checksumMismatch
    return .ok payload

theorem range?_of_le {start stop : Nat} (ordered : start ≤ stop) (there : stop ≤ b.length) :
    range? b start stop = some (slice b start (stop - start)) := if_pos ⟨ordered, there⟩

theorem payloadWithin?_eq (bytes : Bytes) : payloadWithin? bytes = some (payload? bytes) := by
  by_cases short : bytes.length < headerSize
  · rw [payload?_of_short short, payloadWithin?, if_pos short]
  · have long : 32 ≤ bytes.length := Nat.not_lt.mp short
    have stated_lt : leValue (slice bytes 12 4) < 0x100000000 := by
      have bound := leValue_lt (slice bytes 12 4)
      rwa [length_slice (by omega)] at bound
    have sum_fits : plus? headerSize (leValue (slice bytes 12 4)) =
        some (headerSize + leValue (slice bytes 12 4)) := if_pos (by simp only [headerSize]; omega)
    have left : minus? bytes.length headerSize = some (bytes.length - headerSize) :=
      if_pos (Nat.not_lt.mp short)
    have start : range? bytes 0 4 = some (slice bytes 0 4) := range?_of_le (by decide) (by omega)
    have version : range? bytes 4 6 = some (slice bytes 4 2) := range?_of_le (by decide) (by omega)
    have stated : range? bytes 12 16 = some (slice bytes 12 4) := range?_of_le (by decide) (by omega)
    have sum : range? bytes 16 headerSize = some (slice bytes 16 16) := range?_of_le (by decide) long
    simp only [payloadWithin?, payload?, if_neg short, start, version, stated, sum, sum_fits, left,
      Option.bind_eq_bind, Option.bind_some, Option.pure_def, apply_ite some, List.length_drop]
    by_cases ends : bytes.length = headerSize + leValue (slice bytes 12 4)
    · have payload : range? bytes headerSize bytes.length = some (bytes.drop headerSize) := by
        rw [range?_of_le (Nat.not_lt.mp short) (Nat.le_refl _), slice, List.take_of_length_le (by simp)]
      have found : range? (Blake3.digest (bytes.drop headerSize)) 0 16 =
          some (checksum (bytes.drop headerSize)) :=
        range?_of_le (by decide) (by rw [Blake3.length_digest]; decide)
      have stops : bytes.length - headerSize = leValue (slice bytes 12 4) := by omega
      rw [← ends]
      simp [payload, found, stops]
    · have other : bytes.length - headerSize ≠ leValue (slice bytes 12 4) := by
        simp only [headerSize] at ends ⊢
        omega
      simp [ends, other]

/-- How reading meets what may become of an artifact. The bytes 6 to 12 of it are not looked at. -/
structure DetectsDamage (a : Bytes) : Prop where
  cut : ∀ b, b <+: a → b ≠ a →
    readBinary b = .error (if b.length < headerSize then .lengthMismatch headerSize b.length
      else .lengthMismatch (a.length - headerSize) (b.length - headerSize))
  extended : ∀ b, a <+: b → b ≠ a →
    readBinary b = .error (.lengthMismatch (a.length - headerSize) (b.length - headerSize))
  magic : ∀ b, b.length = a.length → slice b 0 4 ≠ slice a 0 4 → readBinary b = .error .badMagic
  version : ∀ b, b.length = a.length → slice b 0 4 = slice a 0 4 → slice b 4 2 ≠ slice a 4 2 →
    readBinary b = .error (.incompatibleVersion (leValue (slice b 4 2)))
  stated : ∀ b, b.length = a.length → slice b 0 4 = slice a 0 4 → slice b 4 2 = slice a 4 2 →
    slice b 12 4 ≠ slice a 12 4 →
      readBinary b = .error (.lengthMismatch (leValue (slice b 12 4)) (b.length - headerSize))
  sum : ∀ b, b.length = a.length → slice b 0 4 = slice a 0 4 → slice b 4 2 = slice a 4 2 →
    slice b 12 4 = slice a 12 4 → slice b 16 16 ≠ slice a 16 16 →
      b.drop headerSize = a.drop headerSize → readBinary b = .error .checksumMismatch
  payload : ∀ b, b.length = a.length → slice b 0 4 = slice a 0 4 → slice b 4 2 = slice a 4 2 →
    slice b 12 4 = slice a 12 4 → slice b 16 16 = slice a 16 16 →
      checksum (b.drop headerSize) ≠ checksum (a.drop headerSize) →
        readBinary b = .error .checksumMismatch
  unread : ∀ b, b.length = a.length → b.take 6 = a.take 6 → b.drop 12 = a.drop 12 →
    readBinary b = readBinary a

theorem Intact.detectsDamage (intact : Intact a) : DetectsDamage a where
  cut _ front cut := intact.readBinary_of_prefix front cut
  extended _ front longer := intact.readBinary_of_extension front longer
  magic _ lengths other := intact.readBinary_of_magic lengths other
  version _ lengths start other := intact.readBinary_of_version lengths start other
  stated _ lengths start version other := intact.readBinary_of_stated lengths start version other
  sum b lengths start version stated other payload := by
    refine intact.readBinary_of_sum lengths start version stated fun same => other ?_
    rw [← same, payload, intact.sum]
  payload b lengths start version stated sum other := by
    refine intact.readBinary_of_sum lengths start version stated fun same => other ?_
    rw [same, sum, intact.sum]
  unread _ lengths front back := readBinary_congr lengths front back

/-- What a payload declares, once the checks are passed. -/
def readPayload (payload : Bytes) : Except ArtifactError Archive :=
  match decodePayload payload with
  | none => .error .undecodable
  | some (p, _) => p.check.bind fun _ => p.archive.checked

/-- Every kind of damage to an artifact that was written is detected, and reading any bytes at all
stays within their bounds. -/
theorem damage_detected {c : Collection} {names : ArtifactNames}
    (written : writeBinary c names = .ok a) :
    DetectsDamage a ∧ ∀ bytes,
      (payloadWithin? bytes).map (fun read => read.bind readPayload) = some (readBinary bytes) := by
  refine ⟨(intact_of_written written).detectsDamage, fun bytes => ?_⟩
  rw [payloadWithin?_eq]
  rfl

/-- The artifact of a rule with a negative number and a negative zero. -/
def signedArtifact : Bytes :=
  header (encodePayload (.ofArchive (.ofCollection signedSample {}))) ++
    encodePayload (.ofArchive (.ofCollection signedSample {}))

theorem written_signedArtifact : writeBinary signedSample {} = .ok signedArtifact :=
  writeBinary_ok_iff.mpr ⟨by decide +kernel, rfl⟩

theorem read_signedArtifact : readBinary signedArtifact = .ok (.ofCollection signedSample {}) :=
  readBinary_of_regular signedSample_reachable.regular (by decide) written_signedArtifact

theorem damage_detected_signed : writeBinary signedSample {} = .ok signedArtifact ∧
    DetectsDamage signedArtifact ∧
    readBinary (signedArtifact.take 20) = .error (.lengthMismatch 32 20) ∧
    readBinary (signedArtifact.set 3 0) = .error .badMagic ∧
    readBinary (signedArtifact.set 5 1) = .error (.incompatibleVersion 257) ∧
    readBinary ((signedArtifact.set 40 0).set 8 7) = .error .checksumMismatch ∧
    readBinary (signedArtifact.set 11 255) = readBinary signedArtifact := by
  have detects := (damage_detected written_signedArtifact).1
  refine ⟨written_signedArtifact, detects, ?_, detects.magic _ (by decide +kernel) (by decide +kernel),
    (detects.version _ (by decide +kernel) (by decide +kernel) (by decide +kernel)).trans
      (congrArg _ (congrArg _ (by decide +kernel))),
    detects.payload _ ?_ ?_ ?_ ?_ ?_ ?_,
    detects.unread _ (by decide +kernel) (by decide +kernel) (by decide +kernel)⟩
  · exact (detects.cut _ (List.take_prefix _ _) (by decide +kernel)).trans
      (congrArg _ (by decide +kernel))
  all_goals decide +kernel

end RuleRegistry.Artifact
