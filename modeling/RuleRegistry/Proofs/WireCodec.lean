import RuleRegistry.Artifact.Wire
import RuleRegistry.Proofs.Regular

namespace RuleRegistry.Wire

/-- A decoder reads a thing from these bytes and leaves what follows them. -/
def Gives {α : Type} (decode : Bytes → Option (α × Bytes)) (bytes : Bytes) (x : α) : Prop :=
  ∀ rest, decode (bytes ++ rest) = some (x, rest)

namespace Gives

variable {α β : Type} {decode : Bytes → Option (α × Bytes)} {decode' : Bytes → Option (β × Bytes)}

theorem pair {front back : Bytes} {x : α} {y : β} (first : Gives decode front x)
    (second : Gives decode' back y) :
    Gives (decodePair decode decode') (front ++ back) (x, y) := by
  intro rest
  rw [decodePair, List.append_assoc, first]
  simp [second rest]

theorem map {bytes : Bytes} {x : α} (h : Gives decode bytes x) (f : α → β) :
    Gives (fun bytes => (decode bytes).map fun p => (f p.1, p.2)) bytes (f x) := by
  intro rest
  simp [h rest]

theorem many {encode : α → Bytes} {items : List α} (h : ∀ x ∈ items, Gives decode (encode x) x) :
    Gives (decodeMany decode items.length) (items.flatMap encode) items := by
  induction items with
  | nil => exact fun _ => rfl
  | cons x others ih =>
    intro rest
    have first := h x List.mem_cons_self
    have next := ih fun y hy => h y (List.mem_cons_of_mem _ hy)
    rw [List.flatMap_cons, List.length_cons, decodeMany, List.append_assoc, first]
    simp [next rest]

end Gives

theorem leBytes_leValue (bytes : Bytes) : leBytes bytes.length (leValue bytes) = bytes := by
  induction bytes with
  | nil => rfl
  | cons b rest ih =>
    have bound := b.toNat_lt
    have low : UInt8.ofNat (b.toNat + 256 * leValue rest) = b := by
      rw [← UInt8.toNat_inj, UInt8.toNat_ofNat']
      omega
    have high : (b.toNat + 256 * leValue rest) / 256 = leValue rest := by omega
    rw [List.length_cons, leValue, leBytes, low, high, ih]

theorem leValue_inj {xs ys : Bytes} (width : xs.length = ys.length) (same : leValue xs = leValue ys) :
    xs = ys := by
  rw [← leBytes_leValue xs, width, same, leBytes_leValue]

theorem leValue_lt (bytes : Bytes) : leValue bytes < Nat.pow 256 bytes.length := by
  have value := leValue_leBytes bytes.length (leValue bytes)
  rw [leBytes_leValue] at value
  rw [value]
  exact Nat.mod_lt _ (Nat.pow_pos (by decide))

theorem take?_leBytes (width n : Nat) (rest : Bytes) :
    take? width (leBytes width n ++ rest) = some (leBytes width n, rest) :=
  take?_append (length_leBytes width n)

theorem gives_mark (mark : Nat) {widest n : Nat} (mark_ge : 250 < mark) (mark_le : mark ≤ 253)
    (width : widthOf mark ≤ widest) (small : n < Nat.pow 256 (widthOf mark)) :
    Gives (decodeCount widest) (UInt8.ofNat mark :: leBytes (widthOf mark) n) n := by
  intro rest
  have read : (UInt8.ofNat mark).toNat = mark := by
    rw [UInt8.toNat_ofNat']
    exact Nat.mod_eq_of_lt (by omega)
  rw [List.cons_append, decodeCount, read]
  simp only [if_neg (Nat.not_le.mpr mark_ge), if_pos (And.intro mark_le width), take?_leBytes,
    Option.map_some, leValue_leBytes, Nat.mod_eq_of_lt small]

theorem gives_count {widest n : Nat} (wide : widest = 4 ∧ n < 0x100000000 ∨
    widest = 8 ∧ n < 0x10000000000000000) : Gives (decodeCount widest) (encodeCount n) n := by
  unfold encodeCount
  split
  · rename_i small
    intro rest
    have read : (UInt8.ofNat n).toNat = n := by
      rw [UInt8.toNat_ofNat']
      exact Nat.mod_eq_of_lt (by omega)
    rw [List.singleton_append, decodeCount, read]
    simp only [if_pos small]
  · have narrow : 4 ≤ widest := by omega
    split
    · exact gives_mark 251 (by decide) (by decide) (Nat.le_trans (by decide) narrow) ‹_›
    · split
      · exact gives_mark 252 (by decide) (by decide) narrow ‹_›
      · have wide : widest = 8 ∧ n < 0x10000000000000000 := by omega
        exact gives_mark 253 (by decide) (by decide) (Nat.le_of_eq wide.1.symm) wide.2

theorem zigzag_lt (n : Int64) : zigzag n.toInt < 0x10000000000000000 := by
  have low := n.le_toInt
  have high := n.toInt_lt
  unfold zigzag
  split <;> omega

theorem gives_int64 (n : Int64) : Gives decodeInt64 (encodeInt64 n) n := by
  have given := (gives_count (.inr ⟨rfl, zigzag_lt n⟩)).map fun k => Int64.ofInt (unzigzag k)
  rw [unzigzag_zigzag, Int64.ofInt_toInt] at given
  exact given

theorem gives_binary64 (x : Binary64) : Gives decodeBinary64 (encodeBinary64 x) x := by
  intro rest
  have small : x.bits.toNat % Nat.pow 256 8 = x.bits.toNat :=
    Nat.mod_eq_of_lt x.bits.toNat_lt
  rw [decodeBinary64, encodeBinary64, take?_leBytes, Option.map_some, leValue_leBytes, small,
    UInt64.ofNat_toNat]

theorem gives_bool (b : Bool) : Gives decodeBool (encodeBool b) b := by
  cases b <;> exact fun _ => rfl

theorem gives_text_of_few {s : String} (few : (Bytes.ofText s).length < 0x10000000000000000) :
    Gives decodeText (encodeText s) s := by
  intro rest
  rw [decodeText, encodeText, List.append_assoc, gives_count (.inr ⟨rfl, few⟩)]
  simp [take?_append rfl, Bytes.text?_ofText]

theorem gives_text {s : String} (short : (encodeText s).length < 0x10000000000000000) :
    Gives decodeText (encodeText s) s := by
  rw [encodeText, List.length_append] at short
  exact gives_text_of_few (by omega)

theorem length_le_flatMap {α : Type} {encode : α → Bytes} {items : List α}
    (nonempty : ∀ x ∈ items, encode x ≠ []) : items.length ≤ (items.flatMap encode).length := by
  induction items with
  | nil => simp
  | cons x rest ih =>
    have first := List.length_pos_iff.mpr (nonempty x List.mem_cons_self)
    have others := ih fun y hy => nonempty y (List.mem_cons_of_mem _ hy)
    rw [List.flatMap_cons, List.length_append, List.length_cons]
    omega

theorem length_le_of_mem {α : Type} (encode : α → Bytes) {items : List α} {x : α} (h : x ∈ items) :
    (encode x).length ≤ (items.flatMap encode).length := by
  induction items with
  | nil => cases h
  | cons y rest ih =>
    rw [List.flatMap_cons, List.length_append]
    rcases List.mem_cons.mp h with rfl | h
    · omega
    · have := ih h
      omega

theorem encodeCount_ne_nil (n : Nat) : encodeCount n ≠ [] := by
  unfold encodeCount
  repeat' split
  all_goals simp

theorem encodeText_ne_nil (s : String) : encodeText s ≠ [] := by
  simp [encodeText, encodeCount_ne_nil]

/-- A run is read back where its count fits and each of its items is read back. -/
theorem gives_run_of_few {α : Type} {decode : Bytes → Option (α × Bytes)} {encode : α → Bytes}
    {items : List α} (few : items.length < 0x10000000000000000)
    (h : ∀ x ∈ items, Gives decode (encode x) x) :
    Gives (decodeRun decode) (encodeRun encode items) items := by
  intro rest
  have counted := gives_count (.inr ⟨rfl, few⟩)
  rw [decodeRun, encodeRun, List.append_assoc, counted, Option.bind_some]
  exact Gives.many h rest

theorem length_lt_of_run {α : Type} {encode : α → Bytes} {items : List α} {bound : Nat}
    (nonempty : ∀ x ∈ items, encode x ≠ []) (short : (encodeRun encode items).length < bound) :
    items.length < bound := by
  rw [encodeRun, List.length_append] at short
  have few := length_le_flatMap nonempty
  omega

theorem gives_run {α : Type} {decode : Bytes → Option (α × Bytes)} {encode : α → Bytes}
    {items : List α} (nonempty : ∀ x ∈ items, encode x ≠ [])
    (short : (encodeRun encode items).length < 0x10000000000000000)
    (h : ∀ x ∈ items, (encode x).length ≤ (items.flatMap encode).length →
      Gives decode (encode x) x) :
    Gives (decodeRun decode) (encodeRun encode items) items :=
  gives_run_of_few (length_lt_of_run nonempty short) fun x hx => h x hx (length_le_of_mem encode hx)

theorem encodeItems_eq (items : List Value) : encodeItems items = items.flatMap encodeValue := by
  induction items with
  | nil => rfl
  | cons v rest ih => rw [encodeItems, List.flatMap_cons, ih]

def encodeField (e : String × Value) : Bytes := encodeText e.1 ++ encodeValue e.2

theorem encodeFields_eq (entries : List (String × Value)) :
    encodeFields entries = entries.flatMap encodeField := by
  induction entries with
  | nil => rfl
  | cons e rest ih => rw [encodeFields, List.flatMap_cons, ih, encodeField]

theorem encodeValue_ne_nil (v : Value) : encodeValue v ≠ [] := by
  cases v <;> simp [encodeValue, encodeCount_ne_nil]

theorem encodeField_ne_nil (e : String × Value) : encodeField e ≠ [] := by
  simp [encodeField, encodeText_ne_nil]

theorem length_encodeCount_pos (n : Nat) : 0 < (encodeCount n).length :=
  List.length_pos_iff.mpr (encodeCount_ne_nil n)

theorem gives_field {depth : Nat} {e : String × Value}
    (short : (encodeField e).length < 0x10000000000000000)
    (h : Gives (decodeValue depth) (encodeValue e.2) e.2) :
    Gives (decodePair decodeText (decodeValue depth)) (encodeField e) e := by
  rw [encodeField, List.length_append] at short
  exact (gives_text (by omega)).pair h

theorem gives_kind {kind : Nat} (known : kind < 7) :
    Gives (decodeCount 4) (encodeCount kind) kind :=
  gives_count (.inl ⟨rfl, by omega⟩)

theorem gives_list {items : List Value} {depth : Nat}
    (short : (encodeValue (.list items)).length < 0x10000000000000000)
    (each : ∀ v ∈ items, (encodeValue v).length < (encodeValue (.list items)).length →
      Gives (decodeValue depth) (encodeValue v) v) :
    Gives (decodeValue (depth + 1)) (encodeValue (.list items)) (.list items) := by
  intro rest
  have mark := length_encodeCount_pos 5
  rw [encodeValue, encodeItems_eq, List.length_append, List.length_append] at short each
  have read : Gives (decodeRun (decodeValue depth)) (encodeRun encodeValue items) items := by
    refine gives_run (fun v _ => encodeValue_ne_nil v) ?_ fun v listed inside => ?_
    · rw [encodeRun, List.length_append]
      omega
    · exact each v listed (by omega)
  rw [encodeRun] at read
  rw [encodeValue, encodeItems_eq, decodeValue, List.append_assoc, List.append_assoc,
    gives_kind (by decide), Option.bind_some, ← List.append_assoc]
  simp only [read rest, Option.map_some]

theorem gives_map {entries : List (String × Value)} (distinct : (Entries.keys entries).Nodup)
    {depth : Nat} (short : (encodeValue (.map entries)).length < 0x10000000000000000)
    (each : ∀ e ∈ entries, (encodeValue e.2).length < (encodeValue (.map entries)).length →
      Gives (decodeValue depth) (encodeValue e.2) e.2) :
    Gives (decodeValue (depth + 1)) (encodeValue (.map entries)) (.map entries) := by
  intro rest
  have mark := length_encodeCount_pos 6
  rw [encodeValue, encodeFields_eq, List.length_append, List.length_append] at short each
  have read : Gives (decodeRun (decodePair decodeText (decodeValue depth)))
      (encodeRun encodeField entries) entries := by
    refine gives_run (fun e _ => encodeField_ne_nil e) ?_ fun e listed inside => ?_
    · rw [encodeRun, List.length_append]
      omega
    · have parts : (encodeField e).length = (encodeText e.1).length + (encodeValue e.2).length := by
        rw [encodeField, List.length_append]
      exact gives_field (by omega) (each e listed (by omega))
  rw [encodeRun] at read
  rw [encodeValue, encodeFields_eq, decodeValue, List.append_assoc, List.append_assoc,
    gives_kind (by decide), Option.bind_some, ← List.append_assoc]
  simp only [read rest, Option.map_some, Entries.ofPairs_of_nodup distinct]

/-- A value with fewer bytes than one that the depth is enough for has a depth left inside of it. -/
theorem depth_left {v w : Value} {depth : Nat} (deep : (encodeValue v).length ≤ depth + 1)
    (inside : (encodeValue w).length < (encodeValue v).length) :
    ∃ less, depth = less + 1 ∧ (encodeValue w).length ≤ less + 1 := by
  have some_byte := List.length_pos_iff.mpr (encodeValue_ne_nil w)
  exact ⟨depth - 1, by omega, by omega⟩

/-- A value is read back at any depth up to its number of bytes. -/
theorem gives_value_succ {v : Value} (regular : v.Regular) {depth : Nat}
    (deep : (encodeValue v).length ≤ depth + 1)
    (short : (encodeValue v).length < 0x10000000000000000) :
    Gives (decodeValue (depth + 1)) (encodeValue v) v := by
  induction v using Value.nested generalizing depth with
  | null =>
    intro rest
    rw [encodeValue, decodeValue, gives_kind (by decide)]
    rfl
  | bool b =>
    intro rest
    rw [encodeValue, decodeValue, List.append_assoc, gives_kind (by decide), Option.bind_some]
    simp [gives_bool b rest]
  | int n =>
    intro rest
    rw [encodeValue, decodeValue, List.append_assoc, gives_kind (by decide), Option.bind_some]
    simp [gives_int64 n rest]
  | float x =>
    intro rest
    rw [encodeValue, decodeValue, List.append_assoc, gives_kind (by decide), Option.bind_some]
    simp [gives_binary64 x rest]
  | string s =>
    intro rest
    rw [encodeValue, List.length_append] at short
    rw [encodeValue, decodeValue, List.append_assoc, gives_kind (by decide), Option.bind_some]
    have read : Gives decodeText (encodeText s) s := gives_text (by omega)
    simp [read rest]
  | list items ih =>
    have each := (Value.regularItems_iff items).mp regular
    refine gives_list short fun v listed inside => ?_
    obtain ⟨less, rfl, enough⟩ := depth_left deep inside
    exact ih v listed (each v listed) enough (by omega)
  | map entries ih =>
    obtain ⟨distinct, values⟩ := regular
    have each := (Value.regularFields_iff entries).mp values
    refine gives_map distinct short fun e listed inside => ?_
    obtain ⟨less, rfl, enough⟩ := depth_left deep inside
    exact ih e listed (each e listed) enough (by omega)

theorem gives_value {v : Value} (regular : v.Regular) {depth : Nat}
    (deep : (encodeValue v).length ≤ depth)
    (short : (encodeValue v).length < 0x10000000000000000) :
    Gives (decodeValue depth) (encodeValue v) v := by
  have some_byte := List.length_pos_iff.mpr (encodeValue_ne_nil v)
  obtain ⟨less, rfl⟩ : ∃ less, depth = less + 1 := ⟨depth - 1, by omega⟩
  exact gives_value_succ regular deep short

end RuleRegistry.Wire
