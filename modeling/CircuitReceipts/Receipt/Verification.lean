import CircuitReceipts.Circuit.Artifact
import CircuitReceipts.Json.Document
import CircuitReceipts.Receipt
import CircuitReceipts.Receipt.Constraint
import CircuitReceipts.Receipt.Sample
import CircuitReceipts.Receipt.Seal

/-!
# Verification

Checks a receipt against the artifact it claims to come from, without running it. Since circuits
are straight lines, instruction `i` is executed in cycle `i`, so the program alone says which rows
a run has and which of them append to the journal. The checks are made one after another and the
first that fails is the reason for the rejection.
-/

namespace CircuitReceipts

/-- Why a receipt is rejected. -/
inductive Rejection where
  | otherImage (receipt artifact : Text)
  | malformed (e : SealError)
  | artifact (name : Text) (e : LoadError)
  | tooFewQueries (got required : Int)
  | boundToOtherImage
  | journalDigest
  | cycleCount (claimed : Int) (instructions : Nat)
  | exponent (po2 : Int) (cycles : Int)
  | openedRows
  | pathLength (row : Int) (got expected : Nat)
  | path (row : Int)
  | leaf (row : Int) (e : DecodeError)
  | misplaced (row cycle pc : Int)
  | constraint (row : Int) (i : Instruction)
  | sources (row : Int)
  | finalRow
  | journal
deriving DecidableEq, Inhabited

def Rejection.message : Rejection → Text
  | otherImage r a => "Image id mismatch: receipt " ++ r ++ ", artifact " ++ a
  | malformed e => e.message
  | artifact name e => "Cannot load artifact " ++ name ++ ": " ++ e.message
  | tooFewQueries n m =>
    "Seal uses " ++ Numeral.decimal n ++ " queries, at least " ++ Numeral.decimal m ++ " required"
  | boundToOtherImage => "Seal is bound to a different image id"
  | journalDigest => "Journal digest mismatch"
  | cycleCount n k =>
    "Seal claims " ++ Numeral.decimal n ++ s!" cycles, program has {k} instructions"
  | exponent p n =>
    "po2 " ++ Numeral.decimal p ++ " too small for " ++ Numeral.decimal n ++ " cycles"
  | openedRows => "Opened rows do not match the transcript sample"
  | pathLength r n k =>
    "Row " ++ Numeral.decimal r ++ s!" has a path of {n} levels, expected {k}"
  | path r => "Merkle path verification failed for row " ++ Numeral.decimal r
  | leaf r e => "Malformed row " ++ Numeral.decimal r ++ ": " ++ e.message
  | misplaced r cycle pc =>
    "Row " ++ Numeral.decimal r ++ " has cycle " ++ Numeral.decimal cycle ++ ", pc " ++
      Numeral.decimal pc
  | constraint r i =>
    "Constraint check failed for row " ++ Numeral.decimal r ++ " (" ++ i.written ++ ")"
  | sources r => "Row " ++ Numeral.decimal r ++ " reads values its defining rows did not write"
  | finalRow => "Final row is not HALT 0"
  | journal => "COMMIT rows do not reproduce the journal"

/-- Why verification ended without success. Unless the seal is nested too deeply to be read, it is
a rejection; any other misuse would mean that a check relied on something that no earlier check had
settled. -/
inductive VerifyError where
  | rejected (r : Rejection)
  | misuse (m : Misuse)
deriving DecidableEq, Inhabited

namespace Seal

/-- The seal in the bytes of a receipt. -/
def ofBytes (b : Bytes) : Except VerifyError Seal :=
  match Json.ofBytes b with
  | .ok j => (ofJson j).mapError fun e => .rejected (.malformed e)
  | .error .malformed => .error (.rejected (.malformed .notJson))
  | .error .tooDeep => .error (.misuse .tooDeep)
  | .error .tooLong => .error (.misuse .tooManyDigits)

/-- Checks the parameters and the public statement of a seal. -/
def checkStatement (s : Seal) (p : Program) (r : Receipt) (minQueries : Int) :
    Except Rejection Unit := do
  if s.queries < minQueries then throw (.tooFewQueries s.queries minQueries)
  if s.imageId ≠ r.imageId then throw .boundToOtherImage
  if s.journalDigest ≠ (s.hash.digest r.journal).hex then throw .journalDigest
  if s.userCycles ≠ p.size then throw (.cycleCount s.userCycles p.size)
  if s.po2 < leastExponent s.userCycles then throw (.exponent s.po2 s.userCycles)

/-- The statement that the sample of a seal depends on. -/
def statement (s : Seal) (r : Receipt) : Statement :=
  ⟨r.imageId, s.hash.digest r.journal, s.userCycles, s.traceRoot⟩

/-- The openings in the order of their indices. -/
def sortedOpenings (s : Seal) : List Opening :=
  s.openings.mergeSort (·.index ≤ ·.index)

/-- Whether a seal opens just the given rows, in increasing order, and each of them once. -/
def opens (s : Seal) (rows : List Nat) : Bool :=
  s.sortedOpenings.map Opening.index = rows.map Int.ofNat

/-- The row of an opening, once its path and its instruction have been checked. -/
def checkOpening (s : Seal) (code : Code) (o : Opening) : Except VerifyError Row := do
  let expected := Merkle.pathLength s.arity s.userCycles.toNat
  if o.path.length ≠ expected then
    throw (.rejected (.pathLength o.index o.path.length expected))
  if !Merkle.verify s.hash s.arity s.traceRoot o.path o.index o.leaf then
    throw (.rejected (.path o.index))
  let row ← (Row.ofLeaf o.leaf).mapError fun e => .rejected (.leaf o.index e)
  if row.cycle ≠ o.index ∨ row.pc ≠ o.index then
    throw (.rejected (.misplaced o.index row.cycle row.pc))
  let i ← (code.instructionAt o.index).mapError .misuse
  if !row.executes i then throw (.rejected (.constraint o.index i))
  return row

end Seal

abbrev Rows := Table Int Row

namespace Rows

/-- The row at an index, which has to be there. -/
def row (rows : Rows) (index : Int) : Except Misuse Row :=
  match Table.get? index rows with
  | some r => .ok r
  | none => .error .unknownName

/-- Checks that every row consumed what the rows it depends on wrote. -/
def checkSources (rows : Rows) (code : Code) : Rows → Except VerifyError Unit
  | [] => .ok ()
  | (index, r) :: rest => do
    if !(← (code.checkSources (Table.get? · rows) index r).mapError .misuse) then
      throw (.rejected (.sources index))
    checkSources rows code rest

/-- The bytes that the rows of the given indices append to the journal. -/
def committed (rows : Rows) (indices : List Nat) : Except Misuse Bytes := do
  let values ← indices.mapM fun (i : Nat) => do
    (naturalOfInt (← rows.row i).value).mapError fun _ => Misuse.badValue
  return encodeNats values

def checkBoundary (rows : Rows) (code : Code) (journal : Bytes) : Except VerifyError Unit := do
  let last ← (rows.row (code.size - 1)).mapError .misuse
  if !last.endsWell then throw (.rejected .finalRow)
  if (← (rows.committed code.commits).mapError .misuse) ≠ journal then
    throw (.rejected .journal)

end Rows

namespace Receipt

/-- The rows of a seal, once they are known to be the rows to be opened and each has been
checked. -/
def openedRows (r : Receipt) (s : Seal) (code : Code) : Except VerifyError Rows := do
  let transcript ← ((s.statement r).transcript s.hash).mapError .misuse
  let expected ← (code.openedRows transcript s.queries).mapError .misuse
  if !s.opens expected then throw (.rejected .openedRows)
  s.sortedOpenings.mapM fun o => do return (o.index, ← s.checkOpening code o)

/-- Verifies a receipt against an artifact, asking for a least number of queries. -/
def verify (r : Receipt) (a : Artifact) (minQueries : Int) : Except VerifyError Unit := do
  if r.imageId ≠ a.imageId then throw (.rejected (.otherImage r.imageId a.imageId))
  let s ← Seal.ofBytes r.evidence
  let p ← (Program.load a.blob).mapError fun e => .rejected (.artifact a.name e)
  (s.checkStatement p r minQueries).mapError .rejected
  let rows ← r.openedRows s p.instructions
  rows.checkSources p.instructions rows
  rows.checkBoundary p.instructions r.journal

end Receipt

end CircuitReceipts
