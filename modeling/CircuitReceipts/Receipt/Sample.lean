import CircuitReceipts.Circuit.Dataflow
import CircuitReceipts.Transcript

/-!
# Sampled rows

Which rows of a trace a seal has to open. A transcript that has absorbed the public statement and
the commitment to the trace picks rows; each comes with its successor. The rows that append to the
journal and the last row are always opened, and with each row those it depends on.
-/

namespace CircuitReceipts

/-- What a seal is about, and the commitment to the trace. -/
structure Statement where
  imageId : Text
  journalDigest : Bytes
  userCycles : Int
  traceRoot : Bytes
deriving DecidableEq, Inhabited

def Statement.transcript (s : Statement) (h : HashName) : Except Misuse Transcript := do
  match Bytes.ofHex? s.imageId with
  | none => throw .badValue
  | some id =>
    let t := (Transcript.new h Transcript.standardDomain).put id |>.put s.journalDigest
    let t ← t.putInt s.userCycles
    return t.put s.traceRoot

/-- The number of bits of a challenge that picks one of so many rows. -/
def challengeWidth (rows : Int) : Nat :=
  max 1 (bitLength (rows - 1).natAbs)

/-- The row a challenge falls on, and the row after it if there is one. -/
def rowAndSuccessor (rows : Int) (challenge : Nat) : List Int :=
  let row := Int.fmod challenge rows
  if row + 1 < rows then [row, row + 1] else [row]

/-- Samples rows, in increasing order. From no rows nothing can be picked, but the challenges are
drawn all the same. -/
def Transcript.sample (t : Transcript) (queries rows : Int) :
    Except Misuse (List Int) × Transcript :=
  let (challenges, t) := t.draw queries (challengeWidth rows)
  if rows = 0 ∧ !challenges.isEmpty then (.error .divisionByZero, t)
  else (.ok (Code.distinct (challenges.flatMap (rowAndSuccessor rows))), t)

/-- The rows that a seal has to open, in increasing order. -/
def Code.openedRows (code : Code) (t : Transcript) (queries : Int) : Except Misuse (List Nat) := do
  let sampled ← (t.sample queries code.size).1
  if code.isEmpty then throw .outOfRange
  return code.closure (sampled.map Int.toNat ++ code.commits ++ [code.size - 1])

end CircuitReceipts
