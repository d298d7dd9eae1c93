/-!
The BLAKE3 hash of a list of bytes. Bytes are cut into chunks of 1024 and chunks into blocks of
64; the chunks are the leaves of a binary tree whose left part is the largest power of two that
leaves something for the right. All words are 32 bits wide and wrap.
-/

namespace LiveRules.Digest

abbrev Words (n : Nat) := Vector UInt32 n

def initial : Words 8 :=
  #v[0x6A09E667, 0xBB67AE85, 0x3C6EF372, 0xA54FF53A, 0x510E527F, 0x9B05688C, 0x1F83D9AB, 0x5BE0CD19]

/-- Where each message word of a round comes from in the round before. -/
def schedule : Vector (Fin 16) 16 := #v[2, 6, 3, 10, 7, 0, 4, 13, 1, 11, 12, 5, 9, 14, 15, 8]

def rotateRight (x : UInt32) (n : UInt32) : UInt32 := (x >>> n) ||| (x <<< (32 - n))

def mix (s : Words 16) (a b c d : Fin 16) (x y : UInt32) : Words 16 :=
  let s := s.set a (s[a] + s[b] + x)
  let s := s.set d (rotateRight (s[d] ^^^ s[a]) 16)
  let s := s.set c (s[c] + s[d])
  let s := s.set b (rotateRight (s[b] ^^^ s[c]) 12)
  let s := s.set a (s[a] + s[b] + y)
  let s := s.set d (rotateRight (s[d] ^^^ s[a]) 8)
  let s := s.set c (s[c] + s[d])
  s.set b (rotateRight (s[b] ^^^ s[c]) 7)

def mixAll (s m : Words 16) : Words 16 :=
  let s := mix s 0 4 8 12 m[0] m[1]
  let s := mix s 1 5 9 13 m[2] m[3]
  let s := mix s 2 6 10 14 m[4] m[5]
  let s := mix s 3 7 11 15 m[6] m[7]
  let s := mix s 0 5 10 15 m[8] m[9]
  let s := mix s 1 6 11 12 m[10] m[11]
  let s := mix s 2 7 8 13 m[12] m[13]
  mix s 3 4 9 14 m[14] m[15]

def rounds : Nat → Words 16 → Words 16 → Words 16
  | 0, s, _ => s
  | n + 1, s, m => rounds n (mixAll s m) (schedule.map fun i => m[i])

/-- One node of the tree before its last compression. -/
structure Node where
  key : Words 8
  block : Words 16
  counter : Nat
  length : Nat
  flags : UInt32

def chunkStart : UInt32 := 1
def chunkEnd : UInt32 := 2
def parentFlag : UInt32 := 4
def rootFlag : UInt32 := 8

/-- The eight words that a node hands up, with further flags. -/
def Node.compress (n : Node) (extra : UInt32) : Words 8 :=
  let low := UInt32.ofNat n.counter
  let high := UInt32.ofNat (n.counter / Nat.pow 2 32)
  let start : Words 16 :=
    #v[n.key[0], n.key[1], n.key[2], n.key[3], n.key[4], n.key[5], n.key[6], n.key[7],
      initial[0], initial[1], initial[2], initial[3], low, high, UInt32.ofNat n.length,
      n.flags ||| extra]
  let s := rounds 7 start n.block
  #v[s[0] ^^^ s[8], s[1] ^^^ s[9], s[2] ^^^ s[10], s[3] ^^^ s[11],
    s[4] ^^^ s[12], s[5] ^^^ s[13], s[6] ^^^ s[14], s[7] ^^^ s[15]]

def Node.value (n : Node) : Words 8 := n.compress 0

/-- Pieces of the given size, the last one possibly shorter. -/
def pieces (size : Nat) (bytes : List UInt8) : List (List UInt8) :=
  if _h : size = 0 ∨ bytes = [] then []
  else bytes.take size :: pieces size (bytes.drop size)
termination_by bytes.length
decreasing_by
  have hb : bytes ≠ [] := fun e => _h (.inr e)
  have := List.length_pos_iff.2 hb
  simp only [List.length_drop]
  omega

def word (bytes : List UInt8) (i : Nat) : UInt32 :=
  let at_ (k : Nat) : UInt32 := (bytes.getD (4 * i + k) 0).toUInt32
  at_ 0 ||| (at_ 1 <<< 8) ||| (at_ 2 <<< 16) ||| (at_ 3 <<< 24)

/-- A block as words, the lowest byte first, filled up with zeros. -/
def blockWords (bytes : List UInt8) : Words 16 := Vector.ofFn fun i => word bytes i

def chunkNode (counter : Nat) (key : Words 8) (flags : UInt32) : List (List UInt8) → Node
  | [] => ⟨key, blockWords [], counter, 0, flags ||| chunkEnd⟩
  | [block] => ⟨key, blockWords block, counter, block.length, flags ||| chunkEnd⟩
  | block :: rest =>
    chunkNode counter (Node.value ⟨key, blockWords block, counter, block.length, flags⟩) 0 rest

def chunk (counter : Nat) (bytes : List UInt8) : Node :=
  chunkNode counter initial chunkStart (pieces 64 bytes)

def parent (left right : Words 8) : Node :=
  ⟨initial, left ++ right, 0, 64, parentFlag⟩

/-- The largest power of two below a number of at least two. -/
def leftSize (n : Nat) : Nat := Nat.pow 2 (n - 1).log2

theorem leftSize_pos (n : Nat) : 0 < leftSize n := Nat.two_pow_pos _

theorem leftSize_lt {n : Nat} (h : 2 ≤ n) : leftSize n < n := by
  have hle : leftSize n ≤ n - 1 := Nat.log2_self_le (by omega)
  omega

/-- The tree over some chunks; without any chunk, the node of an empty one. -/
def tree (nodes : List Node) : Node :=
  if _h : 2 ≤ nodes.length then
    parent (tree (nodes.take (leftSize nodes.length))).value
      (tree (nodes.drop (leftSize nodes.length))).value
  else nodes.headD (chunk 0 [])
termination_by nodes.length
decreasing_by
  · have := leftSize_lt _h
    simp only [List.length_take]
    omega
  · have := leftSize_pos nodes.length
    simp only [List.length_drop]
    omega

def chunks : Nat → List (List UInt8) → List Node
  | _, [] => []
  | counter, bytes :: rest => chunk counter bytes :: chunks (counter + 1) rest

def wordBytes (w : UInt32) : List UInt8 :=
  [w.toUInt8, (w >>> 8).toUInt8, (w >>> 16).toUInt8, (w >>> 24).toUInt8]

/-- The 32 bytes of the hash. -/
def blake3 (bytes : List UInt8) : List UInt8 :=
  ((tree (chunks 0 (pieces 1024 bytes))).compress rootFlag).toList.flatMap wordBytes

theorem length_wordBytes (w : UInt32) : (wordBytes w).length = 4 := rfl

theorem length_blake3 (bytes : List UInt8) : (blake3 bytes).length = 32 := by
  simp [blake3, List.length_flatMap, length_wordBytes, List.map_const']

end LiveRules.Digest
