import CircuitReceipts.Circuit.Program
import CircuitReceipts.Codec.Limbs
import CircuitReceipts.Digest.Sha256
import CircuitReceipts.Misuse

/-!
# Artifacts

The binary form of a program: four magic bytes, then words for the version, the number of registers
and the number of instructions, and four words for each instruction. An artifact is such bytes
under a name; what it is known by is the digest of the bytes.
-/

namespace CircuitReceipts

/-- Why a program has no artifact: it is not valid, or a field has no room in a word. -/
inductive AssembleError where
  | load (e : LoadError)
  | misuse (m : Misuse)
deriving DecidableEq, Inhabited

namespace Program

/-- The numbers of an instruction in an artifact. -/
def fields (i : Instruction) : List Int :=
  [i.op.number, i.a, i.b, i.c]

def header (p : Program) : List Int :=
  [version, p.registers, p.size]

def assemble (p : Program) : Except AssembleError Bytes := do
  p.validate.mapError .load
  match wordsOfInts? (p.header ++ p.instructions.toList.flatMap fields) with
  | some ws => return magic ++ bytesOfWords ws
  | none => throw (.misuse .tooLarge)

/-- The instructions of words, four words each; the first instruction stands at `pc`. -/
def instructionsOfWords (pc : Nat) : List UInt32 → Except LoadError (List Instruction)
  | op :: a :: b :: c :: rest =>
    match Opcode.ofNumber? op.toNat with
    | none => .error (.invalidOpcode op.toNat pc)
    | some code => do
      return ⟨code, a.toNat, b.toNat, c.toNat⟩ :: (← instructionsOfWords (pc + 1) rest)
  | _ => .ok []

/-- The program of the words after the magic bytes, of which there are `total` bytes in all. -/
def ofWords (total : Nat) : List UInt32 → Except LoadError Program
  | v :: registers :: count :: rest => do
    if v.toNat ≠ version then throw (.unsupportedVersion v.toNat)
    if rest.length ≠ 4 * count.toNat then throw (.wrongLength count.toNat (3 + rest.length))
    let instructions ← instructionsOfWords 0 rest
    let p : Program := ⟨registers.toNat, instructions.toArray⟩
    p.validate
    return p
  | _ => .error (.truncated total)

def load (blob : Bytes) : Except LoadError Program := do
  if blob.take 4 ≠ magic then throw (.badMagic (blob.take 4))
  match wordsOfBytes? (blob.drop 4) with
  | none => throw (.truncated blob.length)
  | some ws => ofWords blob.length ws

end Program

/-- A circuit binary under a name. -/
structure Artifact where
  name : Text
  blob : Bytes
deriving DecidableEq, Inhabited

/-- What an artifact is known by: the SHA-256 digest of its bytes, in hexadecimal. -/
def Artifact.imageId (a : Artifact) : Text :=
  (Sha256.hash a.blob).hex

end CircuitReceipts
