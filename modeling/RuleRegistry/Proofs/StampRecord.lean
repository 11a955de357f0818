import Mathlib.Data.List.Forall2
import RuleRegistry.Artifact.Cache
import RuleRegistry.Proofs.Outcome
import RuleRegistry.Proofs.Places
import RuleRegistry.Proofs.WireCodec

namespace RuleRegistry

open Outcome Wire

/-- A file with a length and a time that the wire form has room for. -/
structure File.Measured (f : File) : Prop where
  length : f.content.length < 0x10000000000000000
  modified : ∀ m ∈ f.modified, m.seconds < 0x10000000000000000 ∧ m.nanoseconds < 0x100000000

instance (f : File) : Decidable f.Measured :=
  decidable_of_iff (f.content.length < 0x10000000000000000 ∧
    ∀ m ∈ f.modified, m.seconds < 0x10000000000000000 ∧ m.nanoseconds < 0x100000000)
    ⟨fun h => ⟨h.1, h.2⟩, fun h => ⟨h.length, h.modified⟩⟩

namespace Stamp

variable {t t' : FileTree} {p : Path} {f : File} {s : Stamp}

def of (p : Path) (f : File) : Stamp :=
  ⟨p, f.modified, f.content.length, Blake3.digest f.content⟩

theorem take?_eq_some_iff : take? t p = some s ↔ ∃ f, t.file? p = some f ∧ s = of p f := by
  rw [take?, Option.map_eq_some_iff]
  exact exists_congr fun f => and_congr_right fun _ => eq_comm

theorem gives_modified (measured : f.Measured) :
    Gives decodeModified (encodeModified f.modified) f.modified := by
  intro rest
  cases time : f.modified with
  | none => rfl
  | some m =>
    obtain ⟨few, fewer⟩ := measured.modified m time
    have seconds : Gives (decodeCount 8) (encodeCount m.seconds) _ := gives_count (.inr ⟨rfl, few⟩)
    have nanoseconds : Gives (decodeCount 4) (encodeCount m.nanoseconds) _ :=
      gives_count (.inl ⟨rfl, fewer⟩)
    have both := seconds.pair nanoseconds rest
    rw [encodeModified, List.cons_append, List.cons_append, decodeModified, both]
    rfl

/-- A path that leads to a file is not too long for the wire form. -/
theorem length_text_lt (there : t.file? p = some f) :
    (Bytes.ofText p.text).length < 0x10000000000000000 := by
  obtain ⟨found, _⟩ := FileTree.file?_eq_some_iff.mp there
  unfold FileTree.find? at found
  split at found
  · rename_i usable
    have bound := of_decide_eq_true (Bool.and_eq_true_iff.mp usable).2
    have size : (Bytes.ofText p.text).length = p.text.utf8ByteSize := by
      simp [Bytes.ofText]
    rw [size]
    exact Nat.lt_of_le_of_lt bound (by decide)
  · cases found

theorem gives_stamp (there : t.file? p = some f) (measured : f.Measured) :
    Gives decode (encode (of p f)) (of p f) := by
  have text : Gives decodeText (encodeText p.text) p.text := gives_text_of_few (length_text_lt there)
  have count : Gives (decodeCount 8) (encodeCount f.content.length) _ :=
    gives_count (.inr ⟨rfl, measured.length⟩)
  have digest : Gives (Wire.take? 32) (Blake3.digest f.content) (Blake3.digest f.content) :=
    fun rest => take?_append (Blake3.length_digest f.content)
  have whole := (text.pair ((gives_modified measured).pair (count.pair digest))).map fun p =>
    (⟨⟨p.1⟩, p.2.1, p.2.2.1, p.2.2.2⟩ : Stamp)
  have parts : encode (of p f) = encodeText p.text ++ (encodeModified f.modified ++
      (encodeCount f.content.length ++ Blake3.digest f.content)) := by
    simp only [encode, of, List.append_assoc]
  rw [parts]
  exact whole

theorem encode_ne_nil (s : Stamp) : encode s ≠ [] := by
  simp [encode, encodeText_ne_nil]

/-- The file is there with the time and length that it had, and with the same digest where contents
are compared. -/
def Unchanged (verify : Bool) (t t' : FileTree) (p : Path) : Prop :=
  ∃ f f', t.file? p = some f ∧ t'.file? p = some f' ∧ f'.modified = f.modified ∧
    f'.content.length = f.content.length ∧
      (verify = true → Blake3.digest f'.content = Blake3.digest f.content)

theorem isFresh_iff {verify : Bool} (stamped : take? t p = some s) :
    s.isFresh t' verify = true ↔ Unchanged verify t t' p := by
  obtain ⟨f, there, rfl⟩ := take?_eq_some_iff.mp stamped
  have path_eq : (of p f).path = p := rfl
  unfold isFresh
  rw [path_eq]
  constructor
  · intro fresh
    split at fresh
    · cases fresh
    · rename_i now taken
      obtain ⟨f', there', rfl⟩ := take?_eq_some_iff.mp taken
      simp only [of, Bool.and_eq_true, Bool.or_eq_true, Bool.not_eq_true', beq_iff_eq] at fresh
      obtain ⟨⟨modified, length⟩, digest⟩ := fresh
      refine ⟨f, f', there, there', modified, length, fun verified => digest.resolve_left ?_⟩
      simp [verified]
  · rintro ⟨g, f', was, is, modified, length, digest⟩
    obtain rfl := Option.some.inj (was.symm.trans there)
    rw [take?_eq_some_iff.mpr ⟨f', is, rfl⟩]
    cases verify with
    | false => simp [of, modified, length]
    | true => simp [of, modified, length, digest rfl]

end Stamp

namespace ArtifactCache

variable {t t' : FileTree} {c : ArtifactCache} {files : List Path} {stamps : List Stamp}

theorem stampAll_ok_iff :
    stampAll t files = .ok stamps ↔ List.Forall₂ (fun p s => Stamp.take? t p = some s) files stamps := by
  induction files generalizing stamps with
  | nil =>
    rw [List.forall₂_nil_left_iff]
    constructor
    · intro h
      cases h
      rfl
    · rintro rfl
      rfl
  | cons p rest ih =>
    rw [stampAll, List.mapM_cons, do_ok_iff]
    constructor
    · rintro ⟨s, first, h⟩
      obtain ⟨others, more, h⟩ := do_ok_iff.mp h
      cases h
      refine .cons ?_ (ih.mp more)
      split at first
      · cases first
        assumption
      · cases first
    · intro h
      cases h with
      | @cons _ s _ others taken more =>
        refine ⟨s, by rw [taken], do_ok_iff.mpr ⟨others, ih.mpr more, rfl⟩⟩

theorem stampAll_ok (h : stampAll t files = .ok stamps) :
    (∀ p ∈ files, ∃ s ∈ stamps, Stamp.take? t p = some s) ∧
      ∀ s ∈ stamps, ∃ p ∈ files, Stamp.take? t p = some s := by
  have each := stampAll_ok_iff.mp h
  clear h
  induction each with
  | nil => simp
  | @cons p s rest others taken _ ih =>
    obtain ⟨covered, real⟩ := ih
    constructor
    · intro q hq
      rcases List.mem_cons.mp hq with rfl | hq
      · exact ⟨s, List.mem_cons_self, taken⟩
      · obtain ⟨r, mem, eq⟩ := covered q hq
        exact ⟨r, List.mem_cons_of_mem _ mem, eq⟩
    · intro r hr
      rcases List.mem_cons.mp hr with rfl | hr
      · exact ⟨p, List.mem_cons_self, taken⟩
      · obtain ⟨q, mem, eq⟩ := real r hr
        exact ⟨q, List.mem_cons_of_mem _ mem, eq⟩

theorem stamps?_of_few {bytes : Bytes} (there : t'.read? c.recordPath = some bytes)
    (written : bytes = encodeRun Stamp.encode stamps)
    (few : files.length < 0x10000000000000000) (stamped : stampAll t files = .ok stamps)
    (measured : ∀ p ∈ files, ∀ f, t.file? p = some f → f.Measured) : c.stamps? t' = some stamps := by
  have each : ∀ s ∈ stamps, Gives Stamp.decode (Stamp.encode s) s := by
    intro s hs
    obtain ⟨p, hp, taken⟩ := (stampAll_ok stamped).2 s hs
    obtain ⟨f, at_p, rfl⟩ := Stamp.take?_eq_some_iff.mp taken
    exact Stamp.gives_stamp at_p (measured p hp f at_p)
  rw [(stampAll_ok_iff.mp stamped).length_eq] at few
  have read := gives_run_of_few few each []
  rw [List.append_nil] at read
  simp only [stamps?, there, Option.bind_some, written, read, Option.map_some]

theorem stamps?_of_record {f : File} (there : t'.file? c.recordPath = some f)
    (written : f.content = encodeRun Stamp.encode stamps)
    (short : f.content.length < 0x10000000000000000) (stamped : stampAll t files = .ok stamps)
    (measured : ∀ p ∈ files, ∀ f, t.file? p = some f → f.Measured) : c.stamps? t' = some stamps := by
  have read : t'.read? c.recordPath = some f.content := by rw [FileTree.read?, there, Option.map_some]
  rw [written] at short
  have few := length_lt_of_run (fun s _ => Stamp.encode_ne_nil s) short
  rw [← (stampAll_ok_iff.mp stamped).length_eq] at few
  exact stamps?_of_few read written few stamped measured

theorem record_of_isFresh (fresh : c.isFresh t = true) : ∃ f, t.file? c.recordPath = some f := by
  rw [isFresh, Bool.and_eq_true] at fresh
  cases found : t.file? c.recordPath with
  | some f => exact ⟨f, rfl⟩
  | none =>
    have unread : c.stamps? t = none := by simp [stamps?, FileTree.read?, found]
    rw [unread] at fresh
    cases fresh.2

theorem isFresh_iff (read : c.stamps? t' = some stamps) (stamped : stampAll t files = .ok stamps) :
    c.isFresh t' = true ↔
      t'.isFile c.path = true ∧ ∀ p ∈ files, Stamp.Unchanged c.verify t t' p := by
  obtain ⟨covered, real⟩ := stampAll_ok stamped
  rw [isFresh, read, Bool.and_eq_true]
  refine and_congr_right fun _ => List.all_eq_true.trans ?_
  constructor
  · intro fresh p hp
    obtain ⟨s, hs, taken⟩ := covered p hp
    exact (Stamp.isFresh_iff taken).mp (fresh s hs)
  · intro unchanged s hs
    obtain ⟨p, hp, taken⟩ := real s hs
    exact (Stamp.isFresh_iff taken).mpr (unchanged p hp)

theorem same_of_isFresh (read : c.stamps? t' = some stamps) (stamped : stampAll t files = .ok stamps)
    (fresh : c.isFresh t' = true) {p : Path} (mem : p ∈ files) :
    ∃ f f', t.file? p = some f ∧ t'.file? p = some f' ∧ f'.modified = f.modified ∧
      f'.content.length = f.content.length ∧
        (c.verify = true → Blake3.digest f'.content = Blake3.digest f.content) :=
  ((isFresh_iff read stamped).mp fresh).2 p mem

end ArtifactCache

end RuleRegistry
