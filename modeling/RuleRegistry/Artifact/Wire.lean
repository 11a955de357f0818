import RuleRegistry.Bytes
import RuleRegistry.Value.Basic

/-!
The wire form of data in bytes: counts with as many bytes as they need, whole numbers with the sign
in the last bit, texts and runs behind their counts, and values behind their kind. Each decoder
gives the bytes that are left.
-/

namespace RuleRegistry

namespace Wire

def leBytes : Nat → Nat → Bytes
  | 0, _ => []
  | width + 1, n => UInt8.ofNat n :: leBytes width (n / 256)

def leValue : Bytes → Nat
  | [] => 0
  | b :: rest => b.toNat + 256 * leValue rest

def take? (n : Nat) (bytes : Bytes) : Option (Bytes × Bytes) :=
  if n ≤ bytes.length then some (bytes.take n, bytes.drop n) else none

/-- A number of at most 64 bits: in one byte up to 250, else 2, 4 or 8 bytes behind a mark. -/
def encodeCount (n : Nat) : Bytes :=
  if n ≤ 250 then [UInt8.ofNat n]
  else if n < 0x10000 then 251 :: leBytes 2 n
  else if n < 0x100000000 then 252 :: leBytes 4 n
  else 253 :: leBytes 8 n

def widthOf (mark : Nat) : Nat := if mark = 251 then 2 else if mark = 252 then 4 else 8

/-- Reads a count that may take up to the given number of bytes behind its mark. -/
def decodeCount (widest : Nat) : Bytes → Option (Nat × Bytes)
  | [] => none
  | b :: rest =>
    let n := b.toNat
    if n ≤ 250 then some (n, rest)
    else if n ≤ 253 ∧ widthOf n ≤ widest then
      (take? (widthOf n) rest).map fun p => (leValue p.1, p.2)
    else none

/-- The sign goes into the last bit. -/
def zigzag (n : Int) : Nat := if 0 ≤ n then 2 * n.natAbs else 2 * n.natAbs - 1

def unzigzag (n : Nat) : Int := if n % 2 = 0 then (n / 2 : Nat) else -((n / 2 : Nat) : Int) - 1

def encodeInt64 (n : Int64) : Bytes := encodeCount (zigzag n.toInt)

def decodeInt64 (bytes : Bytes) : Option (Int64 × Bytes) :=
  (decodeCount 8 bytes).map fun p => (Int64.ofInt (unzigzag p.1), p.2)

def encodeBinary64 (x : Binary64) : Bytes := leBytes 8 x.bits.toNat

def decodeBinary64 (bytes : Bytes) : Option (Binary64 × Bytes) :=
  (take? 8 bytes).map fun p => (⟨UInt64.ofNat (leValue p.1)⟩, p.2)

def encodeBool (b : Bool) : Bytes := [if b then 1 else 0]

def decodeBool : Bytes → Option (Bool × Bytes)
  | 0 :: rest => some (false, rest)
  | 1 :: rest => some (true, rest)
  | _ => none

def encodeText (s : String) : Bytes :=
  let bytes := Bytes.ofText s
  encodeCount bytes.length ++ bytes

def decodeText (bytes : Bytes) : Option (String × Bytes) :=
  (decodeCount 8 bytes).bind fun p => (take? p.1 p.2).bind fun q =>
    (Bytes.text? q.1).map fun s => (s, q.2)

def decodeMany {α : Type} (item : Bytes → Option (α × Bytes)) : Nat → Bytes → Option (List α × Bytes)
  | 0, bytes => some ([], bytes)
  | n + 1, bytes => (item bytes).bind fun p =>
      (decodeMany item n p.2).map fun q => (p.1 :: q.1, q.2)

def encodeRun {α : Type} (item : α → Bytes) (items : List α) : Bytes :=
  encodeCount items.length ++ items.flatMap item

def decodeRun {α : Type} (item : Bytes → Option (α × Bytes)) (bytes : Bytes) :
    Option (List α × Bytes) :=
  (decodeCount 8 bytes).bind fun p => decodeMany item p.1 p.2

def decodePair {α β : Type} (first : Bytes → Option (α × Bytes)) (second : Bytes → Option (β × Bytes))
    (bytes : Bytes) : Option ((α × β) × Bytes) :=
  (first bytes).bind fun p => (second p.2).map fun q => ((p.1, q.1), q.2)

mutual

def encodeValue : Value → Bytes
  | .null => encodeCount 0
  | .bool b => encodeCount 1 ++ encodeBool b
  | .int n => encodeCount 2 ++ encodeInt64 n
  | .float x => encodeCount 3 ++ encodeBinary64 x
  | .string s => encodeCount 4 ++ encodeText s
  | .list items => encodeCount 5 ++ encodeCount items.length ++ encodeItems items
  | .map entries => encodeCount 6 ++ encodeCount entries.length ++ encodeFields entries

def encodeItems : List Value → Bytes
  | [] => []
  | v :: rest => encodeValue v ++ encodeItems rest

def encodeFields : List (String × Value) → Bytes
  | [] => []
  | (k, v) :: rest => encodeText k ++ encodeValue v ++ encodeFields rest

end

/-- Reads a value; the first argument bounds the nesting. A key that comes again keeps its first
place and takes its last value. -/
def decodeValue : Nat → Bytes → Option (Value × Bytes)
  | 0, _ => none
  | depth + 1, bytes =>
    (decodeCount 4 bytes).bind fun (kind, rest) =>
      match kind with
      | 0 => some (.null, rest)
      | 1 => (decodeBool rest).map fun p => (.bool p.1, p.2)
      | 2 => (decodeInt64 rest).map fun p => (.int p.1, p.2)
      | 3 => (decodeBinary64 rest).map fun p => (.float p.1, p.2)
      | 4 => (decodeText rest).map fun p => (.string p.1, p.2)
      | 5 => (decodeRun (decodeValue depth) rest).map fun p => (.list p.1, p.2)
      | 6 => (decodeRun (decodePair decodeText (decodeValue depth)) rest).map fun p =>
          (.map (Entries.ofPairs p.1), p.2)
      | _ => none

theorem length_leBytes (width n : Nat) : (leBytes width n).length = width := by
  induction width generalizing n with
  | zero => rfl
  | succ width ih => simp [leBytes, ih]

theorem leValue_leBytes (width n : Nat) : leValue (leBytes width n) = n % Nat.pow 256 width := by
  induction width generalizing n with
  | zero => simp [leBytes, leValue, Nat.mod_one]
  | succ width ih =>
    simp only [leBytes, leValue, ih, UInt8.toNat_ofNat']
    have step : Nat.pow 256 (width + 1) = 256 * Nat.pow 256 width := Nat.mul_comm ..
    rw [step, Nat.mod_mul]

theorem take?_append {front rest : Bytes} {n : Nat} (width : front.length = n) :
    take? n (front ++ rest) = some (front, rest) := by
  subst width
  simp [take?]

theorem unzigzag_zigzag (n : Int) : unzigzag (zigzag n) = n := by
  unfold unzigzag zigzag
  split <;> split <;> omega

end Wire

end RuleRegistry
