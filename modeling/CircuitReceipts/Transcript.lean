import CircuitReceipts.Digest
import CircuitReceipts.Field
import CircuitReceipts.Misuse

/-!
# Transcripts

A transcript absorbs byte strings and yields field elements that depend on all of them. What is
absorbed is first only collected; the first element drawn afterwards folds it into the state. From
a state, blocks of four elements are squeezed one after another. Absorbing throws away the elements
of a block that have not been drawn.
-/

namespace CircuitReceipts

/-- A transcript. -/
structure Transcript where
  hash : HashName
  /-- The digest of everything folded so far. -/
  state : Bytes
  /-- Absorbed byte strings, with their lengths, not folded yet. -/
  pending : List Bytes
  /-- Squeezed elements not drawn yet. -/
  buffer : List Nat
  /-- The number of blocks squeezed from the state. -/
  squeezed : Nat
deriving DecidableEq, Inhabited

namespace Transcript

/-- The domain of the transcripts of this library. -/
def standardDomain : Bytes := Bytes.ofAscii "bigint2"

def new (h : HashName) (domain : Bytes) : Transcript :=
  ⟨h, h.digest (Bytes.ofAscii "transcript:" ++ domain), [], [], 0⟩

/-- A byte string with its length in front. -/
def framed (b : Bytes) : Bytes :=
  Bytes.ofNat 8 b.length ++ b

def put (t : Transcript) (b : Bytes) : Transcript :=
  { t with pending := t.pending ++ [framed b], buffer := [] }

def putNat (t : Transcript) (n : Nat) : Transcript :=
  t.put (Bytes.ofNat 8 n)

/-- Absorbs an integer, if eight bytes have room for it. -/
def putInt (t : Transcript) (n : Int) : Except Misuse Transcript :=
  if 0 ≤ n ∧ n < 0x10000000000000000 then .ok (t.putNat n.toNat) else .error .tooLarge

/-- Folds what has been absorbed into the state. -/
def fold (t : Transcript) : Transcript :=
  if t.pending.isEmpty then t
  else
    { t with state := t.hash.digest (t.state ++ t.pending.flatten), pending := [], squeezed := 0 }

/-- The byte string hashed for a block of elements. -/
def blockPreimage (state : Bytes) (counter : Nat) : Bytes :=
  state ++ Bytes.ofAscii "squeeze" ++ Bytes.ofNat 8 counter

def block (h : HashName) (state : Bytes) (counter : Nat) : List Nat :=
  fieldElements (h.digest (blockPreimage state counter))

def element (t : Transcript) : Nat × Transcript :=
  let t := t.fold
  match t.buffer with
  | x :: rest => (x, { t with buffer := rest })
  | [] =>
    let xs := block t.hash t.state t.squeezed
    (xs.headD 0, { t with buffer := xs.tail, squeezed := t.squeezed + 1 })

def elements (t : Transcript) : Nat → List Nat × Transcript
  | 0 => ([], t)
  | n + 1 =>
    let (x, t) := t.element
    let (xs, t) := t.elements n
    (x :: xs, t)

/-- The low bits of a number, the lowest first. -/
def lowBits (count n : Nat) : List Bool :=
  (List.range count).map n.testBit

/-- The number of bits taken from a field element. -/
def bitsPerElement : Nat := 63

/-- The number that bits spell, the lowest first. -/
def ofBits : List Bool → Nat
  | [] => 0
  | b :: bs => b.toNat + 2 * ofBits bs

/-- Values of `width` bits each, cut from a list of bits from the front. -/
def cut (width : Nat) (bits : List Bool) : (count : Nat) → List Nat
  | 0 => []
  | n + 1 => ofBits (bits.take width) :: cut width (bits.drop width) n

/-- The number of field elements that hold `bits` bits, none if that is not positive. -/
def elementCount (bits : Int) : Nat :=
  ((bits - 1) / bitsPerElement + 1).toNat

/-- Draws `count` values of `width` bits each. A negative count makes no values, and a negative
width makes zeros; the field elements are drawn all the same as the product of the two says. -/
def draw (t : Transcript) (count width : Int) : List Nat × Transcript :=
  if width = 0 then (List.replicate count.toNat 0, t)
  else
    let (xs, t) := t.elements (elementCount (count * width))
    (cut width.toNat (xs.flatMap (lowBits bitsPerElement)) count.toNat, t)

@[simp] theorem length_lowBits (count n : Nat) : (lowBits count n).length = count := by
  simp [lowBits]

@[simp] theorem length_cut (width : Nat) (bits : List Bool) (count : Nat) :
    (cut width bits count).length = count := by
  induction count generalizing bits with
  | zero => rfl
  | succ n ih => simp [cut, ih]

end Transcript

end CircuitReceipts
