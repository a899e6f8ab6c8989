import CircuitReceipts.Bytes

/-!
# Receipts

A receipt states that a run of the circuit with a given image id produced a journal. Its evidence is
the written form of a seal, which only the verifier looks into.
-/

namespace CircuitReceipts

/-- A journal and the evidence for it. -/
structure Receipt where
  imageId : Text
  journal : Bytes
  evidence : Bytes
deriving DecidableEq, Inhabited

end CircuitReceipts
