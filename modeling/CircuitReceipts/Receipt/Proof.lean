import CircuitReceipts.Host
import CircuitReceipts.Json.Encoding
import CircuitReceipts.Receipt
import CircuitReceipts.Receipt.Constraint
import CircuitReceipts.Receipt.Sample
import CircuitReceipts.Receipt.Seal
import CircuitReceipts.Session

/-!
# Proofs

The proof of a successful session: a receipt whose seal commits to every row of the trace and opens
a sample of them, and statistics. A session is proved only if its trace is that of a run to a
successful end and its journal is what the trace appended; both may have been forged.
-/

namespace CircuitReceipts

/-- How large a proved run was. -/
structure Stats where
  userCycles : Nat
  /-- The exponent of the padded length of the trace. -/
  po2 : Json
  totalCycles : Nat
deriving Inhabited

/-- A receipt with its statistics. -/
structure Proof where
  receipt : Receipt
  stats : Stats
deriving Inhabited

/-- Why a session has no proof. -/
inductive ProvingError where
  | unsuccessful (exit : ExitCode)
  | emptyTrace
  | misplaced (index : Nat) (cycle pc : Int)
  | badOpcode (index : Nat) (opcode : Int)
  | noFinalHalt
  | journalMismatch
deriving DecidableEq, Inhabited

def ProvingError.message : ProvingError → Text
  | unsuccessful e => "Cannot prove session with exit code " ++ e.written
  | emptyTrace => "Session trace is empty"
  | misplaced i cycle pc =>
    s!"Malformed trace: row {i} has cycle " ++ Numeral.decimal cycle ++ ", pc " ++
      Numeral.decimal pc
  | badOpcode i op => s!"Malformed trace: row {i} has opcode " ++ Numeral.decimal op
  | noFinalHalt => "Session trace does not end in HALT 0"
  | journalMismatch => "Journal does not match committed trace rows"

/-- The numbers that the message shows, apart from indices. -/
def ProvingError.numbers : ProvingError → List Int
  | unsuccessful e => e.numbers
  | misplaced _ cycle pc => [cycle, pc]
  | badOpcode _ opcode => [opcode]
  | _ => []

/-- Why proving stopped: the session has no proof, a value in its rows has no encoding, or an
option or a number does not fit its use. -/
inductive ProveError where
  | proving (e : ProvingError)
  | operand (e : OperandError)
  | misuse (m : Misuse)
deriving Inhabited

namespace ProveError

def ofLeaf : LeafError → ProveError
  | .misuse m => misuse m
  | .operand e => operand e

/-- The error as a host tells it, which has to write the numbers in the message. -/
def told (h : Host) : ProveError → ProveError
  | proving e => if h.Tells e.numbers then proving e else misuse .tooManyDigits
  | e => e

end ProveError

namespace Session

/-- The instructions that the rows from index `i` on claim to have executed, each row in its
place. -/
def instructionsFrom (i : Nat) : List Row → Except ProvingError (List Instruction)
  | [] => .ok []
  | r :: rest =>
    if r.cycle ≠ i ∨ r.pc ≠ i then .error (.misplaced i r.cycle r.pc)
    else
      match Opcode.ofNumber? r.opcode with
      | none => .error (.badOpcode i r.opcode)
      | some op => do return ⟨op, r.a, r.b, r.c⟩ :: (← instructionsFrom (i + 1) rest)

/-- The bytes that the rows append to the journal. -/
def committed (trace : List Row) : Except OperandError Bytes :=
  ((trace.filter Row.appends).mapM fun r => naturalOfInt r.value).map encodeNats

/-- The instructions of a trace that a successful run with the given journal could have left. -/
def checkedCode (trace : List Row) (journal : Bytes) : Except ProveError Code := do
  match trace.getLast? with
  | none => throw (.proving .emptyTrace)
  | some last =>
    let code ← (instructionsFrom 0 trace).mapError .proving
    if !last.endsWell then throw (.proving .noFinalHalt)
    let bytes ← (committed trace).mapError .operand
    if bytes ≠ journal then throw (.proving .journalMismatch)
    return code.toArray

/-- The opening of a leaf of a tree. -/
def openLeaf (tree : MerkleTree) (index : Nat) : Except Misuse Opening :=
  match tree.opening index with
  | .ok (leaf, path) => .ok ⟨index, leaf, path⟩
  | .error _ => .error .outOfRange

def attest (o : ProverOptions) (s : Session) : Except ProveError Proof := do
  if s.ending ≠ .success then throw (.proving (.unsuccessful s.exitCode))
  let code ← checkedCode s.trace s.journal
  let leaves ← (s.trace.mapM Row.leaf).mapError .ofLeaf
  let arity ← (o.treeArity leaves.length).mapError .misuse
  let tree := MerkleTree.ofLeaves o.hash arity leaves
  let journalDigest := o.hash.digest s.journal
  let statement : Statement := ⟨s.imageId, journalDigest, s.userCycles, tree.root⟩
  let transcript ← (statement.transcript o.hash).mapError .misuse
  let queries ← o.queryCount.mapError .misuse
  let rows ← (code.openedRows transcript queries).mapError .misuse
  let openings ← (rows.mapM (openLeaf tree)).mapError .misuse
  let po2 ← (paddedExponent s.userCycles o.minPo2).mapError .misuse
  let totalCycles ← (paddedLength po2).mapError .misuse
  let document := Seal.document o po2 s.imageId journalDigest s.userCycles tree.root openings
  return ⟨⟨s.imageId, s.journal, Encoding.encodeUtf8 document.compact⟩,
    ⟨s.userCycles, po2, totalCycles⟩⟩

/-- The proof of a session on a host. -/
def prove (h : Host) (o : ProverOptions) (s : Session) : Except ProveError Proof :=
  (attest o s).mapError (ProveError.told h)

end Session

end CircuitReceipts
