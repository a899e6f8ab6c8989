import CircuitReceipts.Digest.Blake2s
import CircuitReceipts.Digest.Sha256

/-!
# Hash functions

The two hash functions a commitment may use, by name.
-/

namespace CircuitReceipts

/-- A supported hash function. -/
inductive HashName where
  | sha256
  | blake2s
deriving DecidableEq, Inhabited

namespace HashName

/-- The supported hash functions, in the order messages list them. -/
def all : List HashName := [sha256, blake2s]

def name : HashName → Text
  | sha256 => "sha256"
  | blake2s => "blake2s"

def ofName? (t : Text) : Option HashName :=
  all.find? fun h => h.name = t

def digest : HashName → Bytes → Bytes
  | sha256 => Sha256.hash
  | blake2s => Blake2s.hash

/-- The text that refuses what names no supported hash function, given its written form. -/
def refusal (written : Text) : Text :=
  "hashfn must be one of ('sha256', 'blake2s'), got " ++ written

@[simp] theorem length_digest (h : HashName) (b : Bytes) : (h.digest b).length = 32 := by
  cases h <;> simp [digest]

@[simp] theorem ofName?_name (h : HashName) : ofName? h.name = some h := by
  cases h <;> decide

end HashName

end CircuitReceipts
