/-!
# BLAKE3

The digest that unit tags are taken from. A message is cut into chunks of 1024 bytes, a chunk into
blocks of 64; the chunks are the leaves of a binary tree whose left subtrees are full.
-/

namespace Graft.Blake3

def initialWords : Vector UInt32 8 :=
  #v[0x6A09E667, 0xBB67AE85, 0x3C6EF372, 0xA54FF53A, 0x510E527F, 0x9B05688C, 0x1F83D9AB,
    0x5BE0CD19]

/-- The order in which a round takes the words of the message that the round before took. -/
def schedule : Vector (Fin 16) 16 := #v[2, 6, 3, 10, 7, 0, 4, 13, 1, 11, 12, 5, 9, 14, 15, 8]

abbrev Block := Vector UInt32 16

abbrev Chain := Vector UInt32 8

def rotateRight (w n : UInt32) : UInt32 := (w >>> n) ||| (w <<< (32 - n))

def mix (s : Block) (a b c d : Fin 16) (x y : UInt32) : Block :=
  let s := s.set a (s[a] + s[b] + x)
  let s := s.set d (rotateRight (s[d] ^^^ s[a]) 16)
  let s := s.set c (s[c] + s[d])
  let s := s.set b (rotateRight (s[b] ^^^ s[c]) 12)
  let s := s.set a (s[a] + s[b] + y)
  let s := s.set d (rotateRight (s[d] ^^^ s[a]) 8)
  let s := s.set c (s[c] + s[d])
  s.set b (rotateRight (s[b] ^^^ s[c]) 7)

def round (s m : Block) : Block :=
  let s := mix s 0 4 8 12 m[0] m[1]
  let s := mix s 1 5 9 13 m[2] m[3]
  let s := mix s 2 6 10 14 m[4] m[5]
  let s := mix s 3 7 11 15 m[6] m[7]
  let s := mix s 0 5 10 15 m[8] m[9]
  let s := mix s 1 6 11 12 m[10] m[11]
  let s := mix s 2 7 8 13 m[12] m[13]
  mix s 3 4 9 14 m[14] m[15]

def rounds : Nat → Block → Block → Block
  | 0, s, _ => s
  | n + 1, s, m => rounds n (round s m) (schedule.map (m[·]))

def chunkStart : UInt32 := 1
def chunkEnd : UInt32 := 2
def parentFlag : UInt32 := 4
def rootFlag : UInt32 := 8

/-- A compression that has not been carried out: only the last one of a tree carries the flag of
the root. -/
structure Node where
  chain : Chain
  block : Block
  counter : Nat
  length : Nat
  flags : UInt32

def Node.compress (n : Node) (flags : UInt32) : Chain :=
  let tail : Vector UInt32 4 :=
    #v[n.counter.toUInt32, (n.counter / 4294967296).toUInt32, n.length.toUInt32, n.flags ||| flags]
  let s := rounds 7 (n.chain ++ (initialWords.take 4 ++ tail)) n.block
  Vector.ofFn fun i : Fin 8 => s[i.val] ^^^ s[i.val + 8]

def word (bytes : List UInt8) : UInt32 :=
  bytes.foldr (fun b w => (w <<< 8) ||| b.toUInt32) 0

def blockOf (bytes : List UInt8) : Block :=
  Vector.ofFn fun i : Fin 16 => word ((bytes.drop (4 * i.val)).take 4)

/-- Cuts a list into pieces of `n + 1`; there is at least one piece. -/
def pieces {α : Type} (n : Nat) (as : List α) : List (List α) :=
  if as.length ≤ n + 1 then [as] else as.take (n + 1) :: pieces n (as.drop (n + 1))
termination_by as.length

def chunkNode (counter : Nat) (chain : Chain) (flags : UInt32) :
    List UInt8 → List (List UInt8) → Node
  | bytes, [] => ⟨chain, blockOf bytes, counter, bytes.length, flags ||| chunkEnd⟩
  | bytes, next :: more =>
    let node : Node := ⟨chain, blockOf bytes, counter, bytes.length, flags⟩
    chunkNode counter (node.compress 0) 0 next more

def leaf (counter : Nat) (bytes : List UInt8) : Node :=
  match pieces 63 bytes with
  | [] => chunkNode counter initialWords chunkStart [] []
  | first :: more => chunkNode counter initialWords chunkStart first more

def parent (left right : Node) : Node :=
  ⟨initialWords, left.compress 0 ++ right.compress 0, 0, 64, parentFlag⟩

/-- The node of a sequence of chunks, of which the first has the number `counter`. The left
subtree holds the largest power of two of chunks that leaves some for the right one. -/
def tree (counter : Nat) (chunks : List (List UInt8)) : Node :=
  if _h : chunks.length ≤ 1 then leaf counter (chunks.headD [])
  else
    let left := Nat.pow 2 (Nat.log2 (chunks.length - 1))
    parent (tree counter (chunks.take left)) (tree (counter + left) (chunks.drop left))
termination_by chunks.length
decreasing_by
  all_goals
    have : Nat.pow 2 (Nat.log2 (chunks.length - 1)) ≤ chunks.length - 1 :=
      Nat.log2_self_le (by omega)
    have : 0 < Nat.pow 2 (Nat.log2 (chunks.length - 1)) := Nat.two_pow_pos _
    simp only [List.length_take, List.length_drop]
    omega

def digest (message : List UInt8) : Chain := (tree 0 (pieces 1023 message)).compress rootFlag

def hexDigit (n : UInt32) : Char :=
  if n < 10 then Char.ofNat ('0'.toNat + n.toNat) else Char.ofNat ('a'.toNat + n.toNat - 10)

def hexWord (w : UInt32) : List Char :=
  ([0, 8, 16, 24] : List UInt32).flatMap fun shift =>
    let byte := (w >>> shift) &&& 255
    [hexDigit (byte >>> 4), hexDigit (byte &&& 15)]

end Graft.Blake3
