import CircuitReceipts.Bytes

/-!
# BLAKE2s

The 32-bit member of the second BLAKE family with a digest of 32 bytes and no key, on byte strings.
Sixteen words are held as four rows of four; a round mixes the columns and then the diagonals,
which are the columns of the rows turned against each other.
-/

namespace CircuitReceipts

namespace Blake2s

/-- Four words side by side. -/
structure Row where
  x : UInt32
  y : UInt32
  z : UInt32
  w : UInt32

namespace Row

def zip (f : UInt32 → UInt32 → UInt32) (p q : Row) : Row :=
  ⟨f p.x q.x, f p.y q.y, f p.z q.z, f p.w q.w⟩

def map (f : UInt32 → UInt32) (p : Row) : Row :=
  ⟨f p.x, f p.y, f p.z, f p.w⟩

/-- The row with its first word moved to the end. -/
def shift (p : Row) : Row :=
  ⟨p.y, p.z, p.w, p.x⟩

def toList (p : Row) : List UInt32 :=
  [p.x, p.y, p.z, p.w]

end Row

/-- The eight chaining words, as two rows. -/
structure State where
  upper : Row
  lower : Row

/-- The sixteen working words, as four rows. -/
structure Work where
  a : Row
  b : Row
  c : Row
  d : Row

def constantsUpper : Row := ⟨0x6a09e667, 0xbb67ae85, 0x3c6ef372, 0xa54ff53a⟩

def constantsLower : Row := ⟨0x510e527f, 0x9b05688c, 0x1f83d9ab, 0x5be0cd19⟩

/-- The chaining words before the first block: the constants, with the digest length and the shape
of an unkeyed sequential hash mixed into the first. -/
def initial : State :=
  ⟨{ constantsUpper with x := constantsUpper.x ^^^ 0x01010020 }, constantsLower⟩

/-- The order in which each round takes the words of a block. -/
def orders : List (List Nat) :=
  [
    [0, 1, 2, 3, 4, 5, 6, 7, 8, 9, 10, 11, 12, 13, 14, 15],
    [14, 10, 4, 8, 9, 15, 13, 6, 1, 12, 0, 2, 11, 7, 5, 3],
    [11, 8, 12, 0, 5, 2, 15, 13, 10, 14, 3, 6, 7, 1, 9, 4],
    [7, 9, 3, 1, 13, 12, 11, 14, 2, 6, 5, 10, 4, 0, 15, 8],
    [9, 0, 5, 7, 2, 4, 10, 15, 14, 1, 11, 12, 6, 8, 3, 13],
    [2, 12, 6, 10, 0, 11, 8, 3, 4, 13, 7, 5, 15, 14, 1, 9],
    [12, 5, 1, 15, 14, 13, 4, 10, 0, 7, 6, 3, 9, 2, 8, 11],
    [13, 11, 7, 14, 12, 1, 3, 9, 5, 0, 15, 4, 8, 6, 2, 10],
    [6, 15, 14, 9, 11, 3, 0, 8, 12, 2, 13, 7, 1, 4, 10, 5],
    [10, 2, 8, 4, 7, 6, 1, 5, 15, 11, 9, 14, 3, 12, 13, 0]
  ]

def turn (n : UInt32) (x : UInt32) : UInt32 :=
  (x >>> n) ||| (x <<< (32 - n))

/-- Half of a mixing: a message row is added, and two rotations follow. -/
def halfMix (v : Work) (m : Row) (first second : UInt32) : Work :=
  let a := Row.zip (· + ·) (Row.zip (· + ·) v.a v.b) m
  let d := (Row.zip (· ^^^ ·) v.d a).map (turn first)
  let c := Row.zip (· + ·) v.c d
  let b := (Row.zip (· ^^^ ·) v.b c).map (turn second)
  ⟨a, b, c, d⟩

/-- The mixing of the four columns with two message rows. -/
def mix (v : Work) (m n : Row) : Work :=
  halfMix (halfMix v m 16 12) n 8 7

/-- One round, with the words of the block in the order of the round. -/
def round (block : Array UInt32) (v : Work) (order : List Nat) : Work :=
  let word (i : Nat) : UInt32 := block.getD (order.getD i 0) 0
  let v := mix v ⟨word 0, word 2, word 4, word 6⟩ ⟨word 1, word 3, word 5, word 7⟩
  let v : Work := ⟨v.a, v.b.shift, v.c.shift.shift, v.d.shift.shift.shift⟩
  let v := mix v ⟨word 8, word 10, word 12, word 14⟩ ⟨word 9, word 11, word 13, word 15⟩
  ⟨v.a, v.b.shift.shift.shift, v.c.shift.shift, v.d.shift⟩

/-- The chaining words after a block; `taken` counts the message bytes up to its end. -/
def compress (s : State) (block : Array UInt32) (taken : Nat) (last : Bool) : State :=
  let low := UInt32.ofNat taken
  let high := UInt32.ofNat (taken / 0x100000000)
  let flag : UInt32 := if last then 0xFFFFFFFF else 0
  let d := Row.zip (· ^^^ ·) constantsLower ⟨low, high, flag, 0⟩
  let v := orders.foldl (round block) ⟨s.upper, s.lower, constantsUpper, d⟩
  ⟨Row.zip (· ^^^ ·) s.upper (Row.zip (· ^^^ ·) v.a v.c),
    Row.zip (· ^^^ ·) s.lower (Row.zip (· ^^^ ·) v.b v.d)⟩

/-- The words of bytes, the least significant byte first; bytes left over are dropped. -/
def words : Bytes → List UInt32
  | a :: b :: c :: d :: rest => UInt32.ofNat (Bytes.toNat [a, b, c, d]) :: words rest
  | _ => []

/-- The chaining words after the rest of a message of which `taken` bytes have been absorbed: as
many blocks of 64 bytes, and then the last block, which is filled up with zeros. -/
def absorb (s : State) (taken : Nat) : (blocks : Nat) → (message : Bytes) → State
  | 0, message =>
    let block := message ++ List.replicate (64 - message.length) 0
    compress s (words block).toArray (taken + message.length) true
  | n + 1, message =>
    absorb (compress s (words (message.take 64)).toArray (taken + 64) false) (taken + 64) n
      (message.drop 64)

/-- The bytes of the chaining words, the least significant byte of each word first. -/
def State.bytes (s : State) : Bytes :=
  (s.upper.toList ++ s.lower.toList).flatMap fun w => Bytes.ofNat 4 w.toNat

/-- The digest of a message. The last block has at least one byte, unless the message has none. -/
def hash (message : Bytes) : Bytes :=
  (absorb initial 0 ((message.length - 1) / 64) message).bytes

@[simp] theorem length_hash (message : Bytes) : (hash message).length = 32 := by
  simp [hash, State.bytes, Row.toList]

end Blake2s

end CircuitReceipts
