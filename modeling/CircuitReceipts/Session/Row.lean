import CircuitReceipts.Codec
import CircuitReceipts.Misuse

/-!
# Trace rows

A row records one executed instruction: when it ran, where it stands, the instruction, and the
register values it consumed and produced. Its leaf is the byte string that commitments are made to.
A row may be forged, so its numbers are any integers; only natural numbers, the first six below
`2 ^ 32`, have a leaf.
-/

namespace CircuitReceipts

/-- A row of an execution trace. Values that the instruction does not use are zero. -/
structure Row where
  cycle : Int
  pc : Int
  opcode : Int
  a : Int
  b : Int
  c : Int
  lhs : Int
  rhs : Int
  value : Int
deriving DecidableEq, Inhabited

/-- Why a row has no leaf. -/
inductive LeafError where
  | misuse (m : Misuse)
  | operand (e : OperandError)
deriving Inhabited

namespace Row

/-- The six numbers that have one word each. -/
def header (r : Row) : List Int :=
  [r.cycle, r.pc, r.opcode, r.a, r.b, r.c]

def leaf (r : Row) : Except LeafError Bytes := do
  match wordsOfInts? r.header with
  | none => throw (.misuse .tooLarge)
  | some ws =>
    let lhs ← (naturalOfInt r.lhs).mapError .operand
    let rhs ← (naturalOfInt r.rhs).mapError .operand
    let value ← (naturalOfInt r.value).mapError .operand
    return bytesOfWords ws ++ encodeNats [lhs, rhs, value]

def readWords : (count : Nat) → WordReader → Except DecodeError (List UInt32 × WordReader)
  | 0, r => .ok ([], r)
  | n + 1, r =>
    match r.word with
    | (.error e, _) => .error e
    | (.ok w, r) => do
      let (ws, r) ← readWords n r
      return (w :: ws, r)

def readIntegers : (count : Nat) → WordReader → Except DecodeError (List Nat × WordReader)
  | 0, r => .ok ([], r)
  | n + 1, r =>
    match r.integer with
    | (.error e, _) => .error e
    | (.ok k, r) => do
      let (ks, r) ← readIntegers n r
      return (k :: ks, r)

/-- The row with the given header words and values. -/
def ofParts (header : List UInt32) (values : List Nat) : Row :=
  let word (i : Nat) : Int := ((header.getD i 0).toNat : Nat)
  let value (i : Nat) : Int := (values.getD i 0 : Nat)
  ⟨word 0, word 1, word 2, word 3, word 4, word 5, value 0, value 1, value 2⟩

def ofLeaf (b : Bytes) : Except DecodeError Row := do
  let r ← WordReader.ofBytes b
  let (header, r) ← readWords 6 r
  let (values, r) ← readIntegers 3 r
  r.finish
  return ofParts header values

end Row

end CircuitReceipts
