/-!
The digest BLAKE3 in its plain mode, of 32 bytes. The input is cut into chunks of 1024 bytes, which
are the leaves of a tree whose left subtrees are full; a chunk is cut into blocks of 64 bytes that
are compressed one after the other.
-/

namespace RuleRegistry.Blake3

/-- The first words of the state, also the key of the plain mode. -/
def initial : Vector UInt32 8 := #v[
  0x6A09E667, 0xBB67AE85, 0x3C6EF372, 0xA54FF53A, 0x510E527F, 0x9B05688C, 0x1F83D9AB, 0x5BE0CD19]

def permutation : Vector (Fin 16) 16 := #v[2, 6, 3, 10, 7, 0, 4, 13, 1, 11, 12, 5, 9, 14, 15, 8]

namespace Flags

def chunkStart : UInt32 := 1
def chunkEnd : UInt32 := 2
def parent : UInt32 := 4
def root : UInt32 := 8

end Flags

def rotateRight (x : UInt32) (n : UInt32) : UInt32 := (x >>> n) ||| (x <<< (32 - n))

def mix (v : Vector UInt32 16) (a b c d : Fin 16) (x y : UInt32) : Vector UInt32 16 :=
  let va := v[a] + v[b] + x
  let vd := rotateRight (v[d] ^^^ va) 16
  let vc := v[c] + vd
  let vb := rotateRight (v[b] ^^^ vc) 12
  let va := va + vb + y
  let vd := rotateRight (vd ^^^ va) 8
  let vc := vc + vd
  let vb := rotateRight (vb ^^^ vc) 7
  (((v.set a va).set b vb).set c vc).set d vd

/-- Mixes columns, then diagonals. -/
def round (v : Vector UInt32 16) (m : Vector UInt32 16) : Vector UInt32 16 :=
  let v := mix v 0 4 8 12 m[0] m[1]
  let v := mix v 1 5 9 13 m[2] m[3]
  let v := mix v 2 6 10 14 m[4] m[5]
  let v := mix v 3 7 11 15 m[6] m[7]
  let v := mix v 0 5 10 15 m[8] m[9]
  let v := mix v 1 6 11 12 m[10] m[11]
  let v := mix v 2 7 8 13 m[12] m[13]
  mix v 3 4 9 14 m[14] m[15]

def rounds : Nat → Vector UInt32 16 → Vector UInt32 16 → Vector UInt32 16
  | 0, v, _ => v
  | n + 1, v, m => rounds n (round v m) (permutation.map fun i => m[i])

def compress (chaining : Vector UInt32 8) (block : Vector UInt32 16) (counter : Nat)
    (length flags : UInt32) : Vector UInt32 8 :=
  let state : Vector UInt32 16 := chaining ++ #v[initial[0], initial[1], initial[2], initial[3],
    UInt32.ofNat counter, UInt32.ofNat (counter / 0x100000000), length, flags]
  let v := rounds 7 state block
  Vector.ofFn fun i : Fin 8 => v[i.val] ^^^ v[i.val + 8]

def word (bytes : List UInt8) : UInt32 :=
  bytes.foldr (fun b acc => acc * 256 + b.toUInt32) 0

def blockWords (bytes : List UInt8) : Vector UInt32 16 :=
  Vector.ofFn fun i : Fin 16 => word ((bytes.drop (4 * i.val)).take 4)

/-- The blocks of a chunk in turn. The last one ends the chunk, and the digest if it is the root. -/
def chunkFrom (counter : Nat) (last : UInt32) :
    Nat → Vector UInt32 8 → UInt32 → List UInt8 → Vector UInt32 8
  | 0, chaining, _, _ => chaining
  | fuel + 1, chaining, start, bytes =>
    let block := bytes.take 64
    if bytes.length ≤ 64 then
      compress chaining (blockWords block) counter (UInt32.ofNat block.length)
        (start ||| Flags.chunkEnd ||| last)
    else
      chunkFrom counter last fuel (compress chaining (blockWords block) counter 64 start) 0
        (bytes.drop 64)

def chunk (counter : Nat) (last : UInt32) (bytes : List UInt8) : Vector UInt32 8 :=
  chunkFrom counter last 16 initial Flags.chunkStart bytes

/-- The bytes of the left subtree: the greatest power of two of chunks that leaves some. -/
def leftLength (length : Nat) : Nat := 1024 * Nat.pow 2 ((length - 1) / 1024).log2

/-- The chaining value of a subtree whose first chunk has the given number. -/
def tree : Nat → Nat → UInt32 → List UInt8 → Vector UInt32 8
  | 0, counter, last, bytes => chunk counter last bytes
  | depth + 1, counter, last, bytes =>
    if bytes.length ≤ 1024 then chunk counter last bytes
    else
      let left := leftLength bytes.length
      let l := tree depth counter 0 (bytes.take left)
      let r := tree depth (counter + left / 1024) 0 (bytes.drop left)
      compress initial (l ++ r) 0 64 (Flags.parent ||| last)

def wordBytes (w : UInt32) : List UInt8 :=
  [w.toUInt8, (w >>> 8).toUInt8, (w >>> 16).toUInt8, (w >>> 24).toUInt8]

def digest (bytes : List UInt8) : List UInt8 :=
  (tree (bytes.length.log2 + 1) 0 Flags.root bytes).toList.flatMap wordBytes

theorem length_digest (bytes : List UInt8) : (digest bytes).length = 32 := by
  unfold digest
  generalize tree (bytes.length.log2 + 1) 0 Flags.root bytes = v
  have h : ∀ ws : List UInt32, (ws.flatMap wordBytes).length = 4 * ws.length := by
    intro ws
    induction ws with
    | nil => rfl
    | cons w rest ih => simp [wordBytes, ih]; omega
  simp [h]

end RuleRegistry.Blake3
