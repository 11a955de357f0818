import RuleRegistry.Proofs.WireCodec

/-!
What is read from bytes is encoded in these bytes again, or in fewer. Counts may have been read from
more bytes than they need, and a map loses all but one of the entries with the same key.
-/

namespace RuleRegistry

/-- The bytes are the same, or fewer. -/
def NoLonger (bytes other : Bytes) : Prop := bytes = other ∨ bytes.length < other.length

namespace NoLonger

variable {xs ys zs xs' ys' : Bytes}

theorem refl (xs : Bytes) : NoLonger xs xs := .inl rfl

theorem length_le (h : NoLonger xs ys) : xs.length ≤ ys.length := by
  rcases h with rfl | h
  · exact Nat.le_refl _
  · exact Nat.le_of_lt h

theorem trans (h : NoLonger xs ys) (h' : NoLonger ys zs) : NoLonger xs zs := by
  rcases h with rfl | h
  · exact h'
  · exact .inr (Nat.lt_of_lt_of_le h h'.length_le)

theorem append (h : NoLonger xs ys) (h' : NoLonger xs' ys') :
    NoLonger (xs ++ xs') (ys ++ ys') := by
  have first := h.length_le
  have second := h'.length_le
  rcases h with rfl | h
  · rcases h' with rfl | h'
    · exact .refl _
    · exact .inr (by simp only [List.length_append]; omega)
  · exact .inr (by simp only [List.length_append]; omega)

theorem front (xs ys : Bytes) : NoLonger xs (xs ++ ys) := by
  cases ys with
  | nil => exact .inl (List.append_nil xs).symm
  | cons y ys => exact .inr (by simp)

end NoLonger

namespace Wire

section

variable {α β : Type} {encode : α → Bytes}

theorem length_encodeCount (n : Nat) : (encodeCount n).length =
    if n ≤ 250 then 1 else if n < 0x10000 then 3 else if n < 0x100000000 then 5 else 9 := by
  unfold encodeCount
  repeat' split
  all_goals simp [length_leBytes]

theorem length_encodeCount_mono {m n : Nat} (le : m ≤ n) :
    (encodeCount m).length ≤ (encodeCount n).length := by
  rw [length_encodeCount, length_encodeCount]
  repeat' split
  all_goals omega

theorem noLonger_flatMap {encode' : β → Bytes} {f : α → β} {items : List α}
    (each : ∀ x ∈ items, NoLonger (encode' (f x)) (encode x)) :
    NoLonger ((items.map f).flatMap encode') (items.flatMap encode) := by
  induction items with
  | nil => exact .refl []
  | cons x rest ih =>
    obtain ⟨first, others⟩ := List.forall_mem_cons.mp each
    exact first.append (ih others)

theorem noLonger_run {encode' : β → Bytes} {f : α → β} {items : List α}
    (each : ∀ x ∈ items, NoLonger (encode' (f x)) (encode x)) :
    NoLonger (encodeRun encode' (items.map f)) (encodeRun encode items) := by
  rw [encodeRun, List.length_map]
  exact (NoLonger.refl _).append (noLonger_flatMap each)

/-- The same items, or no more items that are encoded in fewer bytes. -/
def Fewer (encode : α → Bytes) (xs ys : List α) : Prop :=
  xs = ys ∨ xs.length ≤ ys.length ∧ (xs.flatMap encode).length < (ys.flatMap encode).length

theorem Fewer.run {xs ys : List α} (h : Fewer encode xs ys) :
    NoLonger (encodeRun encode xs) (encodeRun encode ys) := by
  rcases h with rfl | ⟨few, h⟩
  · exact .refl _
  · have counts := length_encodeCount_mono few
    refine .inr ?_
    rw [encodeRun, encodeRun, List.length_append, List.length_append]
    omega

theorem Fewer.cons {xs ys : List α} (h : Fewer encode xs ys) (x : α) :
    Fewer encode (x :: xs) (x :: ys) := by
  rcases h with rfl | ⟨few, h⟩
  · exact .inl rfl
  · refine .inr ⟨Nat.succ_le_succ few, ?_⟩
    rw [List.flatMap_cons, List.flatMap_cons, List.length_append, List.length_append]
    omega

theorem Fewer.append {xs ys : List α} (h : Fewer encode xs ys) (more : List α) :
    Fewer encode (xs ++ more) (ys ++ more) := by
  rcases h with rfl | ⟨few, h⟩
  · exact .inl rfl
  · refine .inr ⟨?_, ?_⟩
    · rw [List.length_append, List.length_append]
      omega
    · rw [List.flatMap_append, List.flatMap_append, List.length_append, List.length_append]
      omega

theorem Fewer.trans {xs ys zs : List α} (h : Fewer encode xs ys) (h' : Fewer encode ys zs) :
    Fewer encode xs zs := by
  rcases h with rfl | ⟨few, h⟩
  · exact h'
  · rcases h' with rfl | ⟨few', h'⟩
    · exact .inr ⟨few, h⟩
    · exact .inr ⟨Nat.le_trans few few', Nat.lt_trans h h'⟩

/-- To leave out an item leaves out its bytes. -/
theorem fewer_tail (nonempty : ∀ x, encode x ≠ []) (x : α) (xs : List α) :
    Fewer encode xs (x :: xs) := by
  have some_byte := List.length_pos_iff.mpr (nonempty x)
  refine .inr ⟨Nat.le_succ _, ?_⟩
  rw [List.flatMap_cons, List.length_append]
  omega

theorem fewer_of_sublist (nonempty : ∀ x, encode x ≠ []) {xs ys : List α} (h : xs.Sublist ys) :
    Fewer encode xs ys := by
  induction h with
  | slnil => exact .inl rfl
  | cons y _ ih => exact ih.trans (fewer_tail nonempty y _)
  | cons_cons y _ ih => exact ih.cons y

end

section

variable {α : Type} {encode : String × α → Bytes} (nonempty : ∀ e, encode e ≠ [])

include nonempty

theorem fewer_put (es : Entries α) (key : String) (value : α) :
    Fewer encode (Entries.put es key value) (es ++ [(key, value)]) := by
  induction es with
  | nil => exact .inl rfl
  | cons e rest ih =>
    obtain ⟨k, v⟩ := e
    by_cases same : k = key
    · subst same
      have some_byte := List.length_pos_iff.mpr (nonempty (k, v))
      rw [Entries.put, if_pos rfl]
      refine .inr ⟨by simp, ?_⟩
      simp only [List.cons_append, List.flatMap_cons, List.flatMap_append, List.length_append,
        List.flatMap_nil, List.length_nil]
      omega
    · rw [Entries.put, if_neg same]
      exact ih.cons (k, v)

theorem fewer_putAll (es : Entries α) (pairs : List (String × α)) :
    Fewer encode (Entries.putAll es pairs) (es ++ pairs) := by
  induction pairs generalizing es with
  | nil => exact .inl (List.append_nil es).symm
  | cons p rest ih =>
    have whole := (ih (Entries.put es p.1 p.2)).trans ((fewer_put nonempty es p.1 p.2).append rest)
    rwa [List.append_assoc] at whole

theorem noLonger_ofPairs (pairs : List (String × α)) :
    NoLonger (encodeRun encode (Entries.ofPairs pairs)) (encodeRun encode pairs) :=
  (fewer_putAll nonempty [] pairs).run

end

/-- Whatever is read is encoded in no more bytes than it was read from. -/
def Shortest {α : Type} (decode : Bytes → Option (α × Bytes)) (encode : α → Bytes) : Prop :=
  ∀ bytes x rest, decode bytes = some (x, rest) →
    ∃ front, bytes = front ++ rest ∧ NoLonger (encode x) front

namespace Shortest

variable {α β : Type} {decode : Bytes → Option (α × Bytes)} {decode' : Bytes → Option (β × Bytes)}
  {encode : α → Bytes} {encode' : β → Bytes}

theorem pair (first : Shortest decode encode) (second : Shortest decode' encode') :
    Shortest (decodePair decode decode') fun p => encode p.1 ++ encode' p.2 := by
  intro bytes p rest read
  obtain ⟨⟨x, between⟩, here, read⟩ := Option.bind_eq_some_iff.mp read
  obtain ⟨⟨y, left⟩, there, same⟩ := Option.map_eq_some_iff.mp read
  cases same
  obtain ⟨front, rfl, h⟩ := first _ _ _ here
  obtain ⟨back, parted, h'⟩ := second _ _ _ there
  exact ⟨front ++ back, by rw [List.append_assoc, ← parted], h.append h'⟩

theorem map (h : Shortest decode encode) {f : α → β}
    (shorter : ∀ x, NoLonger (encode' (f x)) (encode x)) :
    Shortest (fun bytes => (decode bytes).map fun p => (f p.1, p.2)) encode' := by
  intro bytes y rest read
  obtain ⟨⟨x, left⟩, found, same⟩ := Option.map_eq_some_iff.mp read
  cases same
  obtain ⟨front, parted, h⟩ := h _ _ _ found
  exact ⟨front, parted, (shorter x).trans h⟩

theorem many (h : Shortest decode encode) {n : Nat} {bytes rest : Bytes} {items : List α}
    (read : decodeMany decode n bytes = some (items, rest)) :
    items.length = n ∧ ∃ front, bytes = front ++ rest ∧ NoLonger (items.flatMap encode) front := by
  induction n generalizing bytes items with
  | zero =>
    cases read
    exact ⟨rfl, [], rfl, .refl []⟩
  | succ n ih =>
    obtain ⟨⟨x, between⟩, first, read⟩ := Option.bind_eq_some_iff.mp read
    obtain ⟨⟨others, left⟩, next, same⟩ := Option.map_eq_some_iff.mp read
    cases same
    obtain ⟨front, rfl, short⟩ := h _ _ _ first
    obtain ⟨counted, back, rfl, short'⟩ := ih next
    refine ⟨congrArg (· + 1) counted, front ++ back, (List.append_assoc ..).symm, ?_⟩
    exact short.append short'

end Shortest

theorem take?_eq_some {n : Nat} {bytes front rest : Bytes} (h : take? n bytes = some (front, rest)) :
    bytes = front ++ rest ∧ front.length = n := by
  rw [take?, Option.ite_none_right_eq_some] at h
  obtain ⟨enough, same⟩ := h
  cases same
  exact ⟨(List.take_append_drop n bytes).symm, List.length_take_of_le enough⟩

/-- A count is read from one byte, or from a mark and the bytes behind it. -/
theorem decodeCount_eq_some {widest n : Nat} {bytes rest : Bytes}
    (h : decodeCount widest bytes = some (n, rest)) :
    (∃ b : UInt8, bytes = b :: rest ∧ b.toNat = n ∧ n ≤ 250) ∨
    ∃ (b : UInt8) (number : Bytes), bytes = b :: (number ++ rest) ∧ 250 < b.toNat ∧ b.toNat ≤ 253 ∧
      number.length = widthOf b.toNat ∧ leValue number = n := by
  cases bytes with
  | nil => cases h
  | cons b behind =>
    rw [decodeCount] at h
    split at h
    · cases h
      exact .inl ⟨b, rfl, rfl, ‹_›⟩
    · rename_i wide
      split at h
      · rename_i mark
        obtain ⟨⟨number, left⟩, taken, same⟩ := Option.map_eq_some_iff.mp h
        cases same
        obtain ⟨rfl, width⟩ := take?_eq_some taken
        exact .inr ⟨b, number, rfl, Nat.not_le.mp wide, mark.1, width, rfl⟩
      · cases h

theorem decodeCount_lt {widest n : Nat} {bytes rest : Bytes}
    (h : decodeCount widest bytes = some (n, rest)) : n < 0x10000000000000000 := by
  rcases decodeCount_eq_some h with ⟨b, _, _, few⟩ | ⟨b, number, _, _, _, width, rfl⟩
  · omega
  · have bound := leValue_lt number
    have wide : number.length ≤ 8 := by
      rw [width, widthOf]
      repeat' split
      all_goals omega
    exact Nat.lt_of_lt_of_le bound (Nat.pow_le_pow_right (by decide) wide)

/-- No mark is before fewer bytes than the number needs. -/
theorem noLonger_mark {mark n : Nat} (low : 250 < mark) (high : mark ≤ 253)
    (small : n < Nat.pow 256 (widthOf mark)) :
    NoLonger (encodeCount n) (UInt8.ofNat mark :: leBytes (widthOf mark) n) := by
  have size (mark : UInt8) (width : Nat) : (mark :: leBytes width n).length = width + 1 := by
    rw [List.length_cons, length_leBytes]
  obtain rfl | rfl | rfl : mark = 251 ∨ mark = 252 ∨ mark = 253 := by omega
  · change n < 0x10000 at small
    change NoLonger _ (251 :: leBytes 2 n)
    unfold encodeCount
    split
    · exact .inr (by rw [size, List.length_singleton]; decide)
    · exact .refl _
  · change n < 0x100000000 at small
    change NoLonger _ (252 :: leBytes 4 n)
    unfold encodeCount
    split
    · exact .inr (by rw [size, List.length_singleton]; decide)
    split
    · exact .inr (by rw [size, size]; decide)
    · exact .refl _
  · change NoLonger _ (253 :: leBytes 8 n)
    unfold encodeCount
    split
    · exact .inr (by rw [size, List.length_singleton]; decide)
    split
    · exact .inr (by rw [size, size]; decide)
    split
    · exact .inr (by rw [size, size]; decide)
    · exact .refl _

theorem shortest_count (widest : Nat) : Shortest (decodeCount widest) encodeCount := by
  intro bytes n rest read
  rcases decodeCount_eq_some read with ⟨b, rfl, rfl, few⟩ | ⟨b, number, rfl, low, high, width, rfl⟩
  · refine ⟨[b], rfl, .inl ?_⟩
    rw [encodeCount, if_pos few, UInt8.ofNat_toNat]
  · have short := noLonger_mark low high (n := leValue number) (width ▸ leValue_lt number)
    rw [← width, leBytes_leValue, UInt8.ofNat_toNat] at short
    exact ⟨b :: number, rfl, short⟩

theorem zigzag_unzigzag (n : Nat) : zigzag (unzigzag n) = n := by
  unfold zigzag unzigzag
  split <;> split <;> omega

theorem toInt_unzigzag {n : Nat} (small : n < 0x10000000000000000) :
    (Int64.ofInt (unzigzag n)).toInt = unzigzag n := by
  refine Int64.toInt_ofInt_of_le ?_ ?_
  all_goals
    unfold unzigzag
    split <;> omega

theorem shortest_int64 : Shortest decodeInt64 encodeInt64 := by
  intro bytes k rest read
  obtain ⟨⟨n, left⟩, found, same⟩ := Option.map_eq_some_iff.mp read
  cases same
  rw [encodeInt64, toInt_unzigzag (decodeCount_lt found), zigzag_unzigzag]
  exact shortest_count 8 _ _ _ found

theorem shortest_binary64 : Shortest decodeBinary64 encodeBinary64 := by
  intro bytes x rest read
  obtain ⟨⟨number, left⟩, taken, same⟩ := Option.map_eq_some_iff.mp read
  cases same
  obtain ⟨rfl, width⟩ := take?_eq_some taken
  have small := leValue_lt number
  have again := leBytes_leValue number
  rw [width] at small again
  have bits : (UInt64.ofNat (leValue number)).toNat = leValue number := by
    rw [UInt64.toNat_ofNat']
    exact Nat.mod_eq_of_lt small
  refine ⟨number, rfl, .inl ?_⟩
  rw [encodeBinary64, bits, again]

theorem shortest_bool : Shortest decodeBool encodeBool := by
  intro bytes b rest read
  unfold decodeBool at read
  split at read
  · cases read
    exact ⟨[0], rfl, .refl _⟩
  · cases read
    exact ⟨[1], rfl, .refl _⟩
  · cases read

theorem ofText_of_text? {bytes : Bytes} {s : String} (h : Bytes.text? bytes = some s) :
    Bytes.ofText s = bytes := by
  unfold Bytes.text? String.fromUTF8? at h
  split at h
  · cases h
    simp [Bytes.ofText, String.fromUTF8]
  · cases h

theorem shortest_text : Shortest decodeText encodeText := by
  intro bytes s rest read
  obtain ⟨⟨n, behind⟩, counted, read⟩ := Option.bind_eq_some_iff.mp read
  obtain ⟨⟨text, left⟩, taken, read⟩ := Option.bind_eq_some_iff.mp read
  obtain ⟨t, spelled, same⟩ := Option.map_eq_some_iff.mp read
  cases same
  obtain ⟨front, rfl, short⟩ := shortest_count 8 _ _ _ counted
  obtain ⟨rfl, length⟩ := take?_eq_some taken
  refine ⟨front ++ text, (List.append_assoc ..).symm, ?_⟩
  rw [encodeText, ofText_of_text? spelled, length]
  exact short.append (.refl text)

theorem Shortest.run {α : Type} {decode : Bytes → Option (α × Bytes)} {encode : α → Bytes}
    (h : Shortest decode encode) : Shortest (decodeRun decode) (encodeRun encode) := by
  intro bytes items rest read
  obtain ⟨⟨n, behind⟩, counted, many⟩ := Option.bind_eq_some_iff.mp read
  obtain ⟨front, rfl, short⟩ := shortest_count 8 _ _ _ counted
  obtain ⟨rfl, back, rfl, short'⟩ := h.many many
  exact ⟨front ++ back, (List.append_assoc ..).symm, short.append short'⟩

theorem encodeValue_list (items : List Value) :
    encodeValue (.list items) = encodeCount 5 ++ encodeRun encodeValue items := by
  rw [encodeValue, encodeItems_eq, encodeRun, List.append_assoc]

theorem encodeValue_map (entries : List (String × Value)) :
    encodeValue (.map entries) = encodeCount 6 ++ encodeRun encodeField entries := by
  rw [encodeValue, encodeFields_eq, encodeRun, List.append_assoc]

/-- A value behind its kind. -/
theorem Shortest.behind {α : Type} {decode : Bytes → Option (α × Bytes)} {encode : α → Bytes}
    (h : Shortest decode encode) {front between rest : Bytes} {kind : Nat} {f : α → Value} {v : Value}
    (counted : decodeCount 4 front = some (kind, between))
    (shorter : ∀ x, NoLonger (encodeValue (f x)) (encodeCount kind ++ encode x))
    (read : ((decode between).map fun p => (f p.1, p.2)) = some (v, rest)) :
    ∃ bytes, front = bytes ++ rest ∧ NoLonger (encodeValue v) bytes := by
  obtain ⟨⟨x, left⟩, found, same⟩ := Option.map_eq_some_iff.mp read
  cases same
  obtain ⟨mark, rfl, short⟩ := shortest_count 4 _ _ _ counted
  obtain ⟨bytes, rfl, short'⟩ := h _ _ _ found
  exact ⟨mark ++ bytes, (List.append_assoc ..).symm, (shorter x).trans (short.append short')⟩

theorem shortest_value (depth : Nat) : Shortest (decodeValue depth) encodeValue := by
  induction depth with
  | zero => exact fun _ _ _ read => nomatch read
  | succ depth ih =>
    intro bytes v rest read
    rw [decodeValue, Option.bind_eq_some_iff] at read
    obtain ⟨⟨kind, between⟩, counted, read⟩ := read
    dsimp only at read
    have same {bytes bytes' : Bytes} (h : bytes = bytes') : NoLonger bytes bytes' := .inl h
    split at read
    · cases read
      exact shortest_count 4 _ _ _ counted
    · exact shortest_bool.behind counted (fun b => same (by rw [encodeValue])) read
    · exact shortest_int64.behind counted (fun n => same (by rw [encodeValue])) read
    · exact shortest_binary64.behind counted (fun x => same (by rw [encodeValue])) read
    · exact shortest_text.behind counted (fun s => same (by rw [encodeValue])) read
    · exact ih.run.behind counted (fun items => same (encodeValue_list items)) read
    · refine (shortest_text.pair ih).run.behind (f := fun entries => .map (Entries.ofPairs entries))
        counted (fun entries => ?_) read
      rw [encodeValue_map]
      exact (NoLonger.refl _).append (noLonger_ofPairs encodeField_ne_nil entries)
    · cases read

end Wire

end RuleRegistry
