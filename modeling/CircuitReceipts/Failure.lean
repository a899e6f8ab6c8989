import CircuitReceipts.Circuit.Operation
import CircuitReceipts.Codec
import CircuitReceipts.Receipt.Proof
import CircuitReceipts.Receipt.Verification
import CircuitReceipts.Registry.Manifest

/-!
# Failures

Everything that can stop an operation between its operands and its report. Most failures are
reported: they are the library's own judgement on an artifact, a run or a result. The others come
from operands and options that were not fit for use.
-/

namespace CircuitReceipts

/-- Why there is no report. -/
inductive Failure where
  | unknownOperation (name : Text)
  | load (e : LoadError)
  | manifest (e : ManifestError)
  | fault (cause : Fault)
  | termination (exit : ExitCode)
  | read (e : ReadError)
  | mismatch (expected got : Value)
  | unproved (operation : Text) (e : ProvingError)
  | unverified (imageId : Text)
  | operand (e : OperandError)
  | reference (e : ReferenceError)
  | options (e : OptionsError)
  | noArtifact
  | misuse (m : Misuse)
deriving Inhabited

namespace Failure

/-- The text of a failure, where it has one. -/
def message? : Failure → Option Text
  | unknownOperation name => some (unknownOperationMessage name)
  | load e => some e.message
  | manifest e => e.message?
  | fault f => some f.message
  | termination e =>
    some ("Session terminated with " ++ e.written ++ ", expected " ++ (ExitCode.halted 0).written)
  | read e => some e.message
  | mismatch v w => some ("Result mismatch: expected " ++ v.written ++ ", got " ++ w.written)
  | unproved name e => some ("Proof generation failed for " ++ name ++ ": " ++ e.message)
  | unverified id => some ("Receipt for image " ++ id ++ " failed verification")
  | operand e => some e.message
  | reference e => e.message?
  | options e => e.message?
  | noArtifact => some "an artifact is required to verify proofs"
  | misuse _ => none

/-- The numbers that are written when an exit code or a mismatch is put into words. -/
def numbers : Failure → List Int
  | termination e => e.numbers
  | mismatch v w => v.numbers ++ w.numbers
  | _ => []

/-- A failure as a host tells it, which has to write the numbers in the text. -/
def told (h : Host) (f : Failure) : Failure :=
  if h.Tells f.numbers then f else misuse .tooManyDigits

/-- Whether a failure is a judgement on an artifact, a run or a result. -/
def isReported : Failure → Bool
  | unknownOperation _ | load _ | fault _ | termination _ | mismatch _ _ => true
  | unproved _ _ | unverified _ => true
  | manifest (.unreadable _) | manifest (.unreadableArtifact _) => true
  | manifest (.noPath _) | manifest (.imageMismatch _ _ _) => true
  | read (.decode _) => true
  | _ => false

end Failure

/-- The verdict on a receipt, as a failure if it is not accepted. -/
def Receipt.accept (r : Receipt) (a : Artifact) : Except Failure Unit :=
  match r.verify a 1 with
  | .ok () => .ok ()
  | .error (.rejected _) => .error (.unverified r.imageId)
  | .error (.misuse m) => .error (.misuse m)

end CircuitReceipts
