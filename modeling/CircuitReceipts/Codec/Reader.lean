import CircuitReceipts.Codec.Limbs
import CircuitReceipts.Value.Shape

/-!
# Reading a stream of words

A reader stands at a position of a word stream. An integer in the stream is a word that counts its
limbs, followed by the limbs. Every operation returns its result together with the reader after it,
because a failed operation keeps what it has already taken: a failed integer its count, a failed
shape the integers before the failure.
-/

namespace CircuitReceipts

/-- Why bytes do not hold what was to be read from them. -/
inductive DecodeError where
  | misaligned (bytes : Nat)
  | truncated (position : Nat)
  | missingLimbs (declared : Nat) (remaining : Nat)
  | zeroTopLimb (position : Nat)
  | trailing (words : Nat)
deriving DecidableEq, Inhabited

def DecodeError.message : DecodeError → Text
  | misaligned n => s!"Byte length {n} is not a multiple of 4"
  | truncated p => s!"Stream truncated at word {p}"
  | missingLimbs d r => s!"Integer declares {d} limbs but only {r} words remain"
  | zeroTopLimb p => s!"Non-canonical integer at word {p}: zero top limb"
  | trailing n => s!"{n} trailing words after decoding"

/-- Why a value could not be read: the stream does not hold it, or it was asked for by something
that is no shape. -/
inductive ReadError where
  | decode (e : DecodeError)
  | notAShape (s : Shape)
deriving DecidableEq, Inhabited

def ReadError.message : ReadError → Text
  | decode e => e.message
  | notAShape s => "Invalid shape descriptor: " ++ s.written

/-- A position in a stream of words: the number of words before it and the words after it. -/
structure WordReader where
  position : Nat
  rest : List UInt32
deriving DecidableEq, Inhabited

namespace WordReader

/-- The reader at the start of a byte string. -/
def ofBytes (b : Bytes) : Except DecodeError WordReader :=
  match wordsOfBytes? b with
  | some ws => .ok ⟨0, ws⟩
  | none => .error (.misaligned b.length)

def remaining (r : WordReader) : Nat :=
  r.rest.length

def skip (r : WordReader) (count : Nat) : WordReader :=
  ⟨r.position + count, r.rest.drop count⟩

def word (r : WordReader) : Except DecodeError UInt32 × WordReader :=
  match r.rest with
  | [] => (.error (.truncated r.position), r)
  | w :: _ => (.ok w, r.skip 1)

def integer (r : WordReader) : Except DecodeError Nat × WordReader :=
  match r.rest with
  | [] => (.error (.truncated r.position), r)
  | count :: ws =>
    let n := count.toNat
    if ws.length < n then (.error (.missingLimbs n ws.length), r.skip 1)
    else if (ws.take n).getLast? = some 0 then (.error (.zeroTopLimb r.position), r.skip 1)
    else (.ok (ofLimbs (ws.take n)), r.skip (1 + n))

mutual

/-- Reads a value of a shape, depth first. -/
def value : Shape → WordReader → Except ReadError Value × WordReader
  | .scalar, r =>
    match r.integer with
    | (.ok n, r) => (.ok (.int n), r)
    | (.error e, r) => (.error (.decode e), r)
  | .tuple parts, r =>
    match values parts r with
    | (.ok vs, r) => (.ok (.tuple vs), r)
    | (.error e, r) => (.error e, r)
  | s, r => (.error (.notAShape s), r)

/-- Reads values of several shapes, one after another. -/
def values : List Shape → WordReader → Except ReadError (List Value) × WordReader
  | [], r => (.ok [], r)
  | s :: ss, r =>
    match value s r with
    | (.error e, r) => (.error e, r)
    | (.ok v, r) =>
      match values ss r with
      | (.error e, r) => (.error e, r)
      | (.ok vs, r) => (.ok (v :: vs), r)

end

def finish (r : WordReader) : Except DecodeError Unit :=
  if r.remaining = 0 then .ok () else .error (.trailing r.remaining)

@[simp] theorem position_skip (r : WordReader) (n : Nat) :
    (r.skip n).position = r.position + n := rfl

@[simp] theorem rest_skip (r : WordReader) (n : Nat) : (r.skip n).rest = r.rest.drop n := rfl

end WordReader

end CircuitReceipts
