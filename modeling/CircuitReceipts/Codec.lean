import CircuitReceipts.Codec.Reader

/-!
# Encoding of operands

A value built of natural numbers is written as the stream of its integers, depth first; each
integer is a count of limbs followed by the limbs. Decoding reads a value of a given shape and
refuses anything but the exact stream of one.
-/

namespace CircuitReceipts

/-- Why a value has no encoding. -/
inductive OperandError where
  | notAnInteger (v : Value)
  | negative (n : Int)
deriving Inhabited

def OperandError.message : OperandError → Text
  | notAnInteger v => "operand must be a non-negative int, got " ++ v.kindName
  | negative n => "operand must be non-negative, got " ++ Numeral.decimal n

/-- The words of an integer: the count of its limbs and the limbs. -/
def wordsOfNat (n : Nat) : List UInt32 :=
  UInt32.ofNat (limbs n).length :: limbs n

def encodeNat (n : Nat) : Bytes :=
  bytesOfWords (wordsOfNat n)

def encodeNats (ns : List Nat) : Bytes :=
  ns.flatMap encodeNat

def naturalOfInt (n : Int) : Except OperandError Nat :=
  if n < 0 then .error (.negative n) else .ok n.toNat

namespace Value

/-- The natural number a value is; a boolean is none. -/
def natural : Value → Except OperandError Nat
  | int n => naturalOfInt n
  | v => .error (.notAnInteger v)

mutual

def flatten : Value → Except OperandError (List Nat)
  | tuple items => flattenEach items
  | list items => flattenEach items
  | v => do return [← natural v]

def flattenEach : List Value → Except OperandError (List Nat)
  | [] => .ok []
  | v :: vs => do
    let front ← flatten v
    let back ← flattenEach vs
    return front ++ back

end

def encode (v : Value) : Except OperandError Bytes :=
  v.flatten.map encodeNats

end Value

/-- The value of a shape that a byte string encodes. -/
def decode (b : Bytes) (s : Shape) : Except ReadError Value := do
  let r ← (WordReader.ofBytes b).mapError .decode
  let (v, r) := r.value s
  let v ← v
  r.finish.mapError .decode
  return v

@[simp] theorem naturalOfInt_natCast (n : Nat) : naturalOfInt n = .ok n := by
  rw [naturalOfInt, if_neg (by omega), Int.toNat_natCast]

@[simp] theorem encodeNats_nil : encodeNats [] = [] := rfl

@[simp] theorem encodeNats_cons (n : Nat) (ns : List Nat) :
    encodeNats (n :: ns) = encodeNat n ++ encodeNats ns := by
  simp [encodeNats]

@[simp] theorem encodeNats_append (ms ns : List Nat) :
    encodeNats (ms ++ ns) = encodeNats ms ++ encodeNats ns := by
  simp [encodeNats]

end CircuitReceipts
