import CircuitReceipts.Json.Encoding
import CircuitReceipts.Json.Reader
import CircuitReceipts.Misuse

/-!
# Documents in bytes

JSON documents as they are stored. A file holds UTF-8 without a mark in front; a byte string passed
around as a document may be in any of the Unicode encodings.
-/

namespace CircuitReceipts

namespace Json

def ofFile (h : Host) (contents : Bytes) : Except Misuse Json :=
  match Encoding.fileText? contents with
  | none => .error .badEncoding
  | some t =>
    (read h t).mapError fun
      | .malformed => .badDocument
      | .tooDeep => .tooDeep
      | .tooLong => .tooManyDigits

/-- The document in a byte string, read as by a host without a bound on digits. -/
def ofBytes (b : Bytes) : Except Unreadable Json :=
  match Encoding.documentText? b with
  | some t => read .lifted t
  | none => .error .malformed

end Json

end CircuitReceipts
