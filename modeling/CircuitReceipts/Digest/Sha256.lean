import CircuitReceipts.Bytes

/-!
# SHA-256

The 256-bit member of the second family of secure hash algorithms, on byte strings. The message is
padded with a one bit, zeros and its length in bits to whole blocks of 64 bytes; each block is
mixed into eight chaining words in 64 rounds.
-/

namespace CircuitReceipts

namespace Sha256

/-- The eight chaining words. -/
structure State where
  a : UInt32
  b : UInt32
  c : UInt32
  d : UInt32
  e : UInt32
  f : UInt32
  g : UInt32
  h : UInt32

def initial : State :=
  ⟨0x6a09e667, 0xbb67ae85, 0x3c6ef372, 0xa54ff53a, 0x510e527f, 0x9b05688c, 0x1f83d9ab, 0x5be0cd19⟩

def roundConstants : List UInt32 :=
  [
    0x428a2f98, 0x71374491, 0xb5c0fbcf, 0xe9b5dba5, 0x3956c25b, 0x59f111f1, 0x923f82a4, 0xab1c5ed5,
    0xd807aa98, 0x12835b01, 0x243185be, 0x550c7dc3, 0x72be5d74, 0x80deb1fe, 0x9bdc06a7, 0xc19bf174,
    0xe49b69c1, 0xefbe4786, 0x0fc19dc6, 0x240ca1cc, 0x2de92c6f, 0x4a7484aa, 0x5cb0a9dc, 0x76f988da,
    0x983e5152, 0xa831c66d, 0xb00327c8, 0xbf597fc7, 0xc6e00bf3, 0xd5a79147, 0x06ca6351, 0x14292967,
    0x27b70a85, 0x2e1b2138, 0x4d2c6dfc, 0x53380d13, 0x650a7354, 0x766a0abb, 0x81c2c92e, 0x92722c85,
    0xa2bfe8a1, 0xa81a664b, 0xc24b8b70, 0xc76c51a3, 0xd192e819, 0xd6990624, 0xf40e3585, 0x106aa070,
    0x19a4c116, 0x1e376c08, 0x2748774c, 0x34b0bcb5, 0x391c0cb3, 0x4ed8aa4a, 0x5b9cca4f, 0x682e6ff3,
    0x748f82ee, 0x78a5636f, 0x84c87814, 0x8cc70208, 0x90befffa, 0xa4506ceb, 0xbef9a3f7, 0xc67178f2
  ]

def turn (x : UInt32) (n : UInt32) : UInt32 :=
  (x >>> n) ||| (x <<< (32 - n))

/-- The two mixings of the message schedule. -/
def scheduleLow (x : UInt32) : UInt32 := turn x 7 ^^^ turn x 18 ^^^ (x >>> 3)

@[inherit_doc scheduleLow]
def scheduleHigh (x : UInt32) : UInt32 := turn x 17 ^^^ turn x 19 ^^^ (x >>> 10)

/-- The words of a block followed by the words made from them, 64 in all. -/
def schedule (block : Array UInt32) : Array UInt32 :=
  (List.range' 16 48).foldl
    (fun w i =>
      w.push (scheduleHigh (w.getD (i - 2) 0) + w.getD (i - 7) 0 + scheduleLow (w.getD (i - 15) 0)
        + w.getD (i - 16) 0))
    block

/-- One round, with its constant and its schedule word. -/
def round (s : State) (kw : UInt32 × UInt32) : State :=
  let mixE := turn s.e 6 ^^^ turn s.e 11 ^^^ turn s.e 25
  let choice := (s.e &&& s.f) ^^^ ((~~~s.e) &&& s.g)
  let t := s.h + mixE + choice + kw.1 + kw.2
  let mixA := turn s.a 2 ^^^ turn s.a 13 ^^^ turn s.a 22
  let majority := (s.a &&& s.b) ^^^ (s.a &&& s.c) ^^^ (s.b &&& s.c)
  ⟨t + mixA + majority, s.a, s.b, s.c, s.d + t, s.e, s.f, s.g⟩

def compress (s : State) (block : Array UInt32) : State :=
  let t := (roundConstants.zip (schedule block).toList).foldl round s
  ⟨s.a + t.a, s.b + t.b, s.c + t.c, s.d + t.d, s.e + t.e, s.f + t.f, s.g + t.g, s.h + t.h⟩

/-- The words of bytes, the most significant byte first; bytes left over are dropped. -/
def words : Bytes → List UInt32
  | a :: b :: c :: d :: rest => UInt32.ofNat (Bytes.toNat [d, c, b, a]) :: words rest
  | _ => []

/-- The message with a one bit, zeros and its length in bits. -/
def padded (message : Bytes) : Bytes :=
  let n := message.length
  let fill := (64 - (n + 9) % 64) % 64
  message ++ 0x80 :: (List.replicate fill 0 ++ (Bytes.ofNat 8 (8 * n)).reverse)

/-- The chaining words after as many blocks of sixteen words. -/
def absorb (s : State) : (blocks : Nat) → List UInt32 → State
  | 0, _ => s
  | n + 1, ws => absorb (compress s (ws.take 16).toArray) n (ws.drop 16)

/-- The bytes of the chaining words, the most significant byte of each word first. -/
def State.bytes (s : State) : Bytes :=
  [s.a, s.b, s.c, s.d, s.e, s.f, s.g, s.h].flatMap fun w => (Bytes.ofNat 4 w.toNat).reverse

def hash (message : Bytes) : Bytes :=
  let ws := words (padded message)
  (absorb initial (ws.length / 16) ws).bytes

@[simp] theorem length_hash (message : Bytes) : (hash message).length = 32 := by
  simp [hash, State.bytes]

end Sha256

end CircuitReceipts
