import CircuitReceipts.Bytes
import CircuitReceipts.Value.Arithmetic

/-!
# Fields

The prime field that transcript challenges lie in, and the componentwise arithmetic on pairs modulo
an integer that is the reference for the extension-field circuits.
-/

namespace CircuitReceipts

/-- The prime `2 ^ 64 - 2 ^ 32 + 1`. -/
def fieldPrime : Nat := 0xFFFFFFFF00000001

/-- The field elements of a byte string, one for each eight bytes, the least byte first; bytes left
over are dropped. -/
def fieldElements : Bytes → List Nat
  | a :: b :: c :: d :: e :: f :: g :: h :: rest =>
    Bytes.toNat [a, b, c, d, e, f, g, h] % fieldPrime :: fieldElements rest
  | _ => []

/-- Why two values cannot be added or subtracted as pairs. -/
inductive PairError where
  | components (got : Nat)
  | modulus (got : Value)
  | misuse (m : Misuse)
deriving Inhabited

/-- The text of a pair error, where it has one. -/
def PairError.message? : PairError → Option Text
  | components n => some s!"extension element must have 2 components, got {n}"
  | modulus v => some ("modulus must be positive, got " ++ v.display)
  | misuse _ => none

namespace Pair

/-- The components of a value that has any. -/
def components : Value → Except PairError (List Value)
  | .tuple items => .ok items
  | .list items => .ok items
  | .text t => .ok (t.map fun s => .text [s])
  | _ => .error (.misuse .wrongKind)

/-- Whether a value is a number below one. -/
def belowOne (v : Value) : Except PairError Bool :=
  match v.number? with
  | some (.whole n) => .ok (n < 1)
  | some (.floating x) => .ok (x.compareInt? 1 == some .lt)
  | none => .error (.misuse .wrongKind)

/-- The two components of an element, once the modulus is found positive. -/
def check (v p : Value) : Except PairError (Value × Value) := do
  match ← components v with
  | [x, y] => if ← belowOne p then throw (.modulus p) else return (x, y)
  | items => throw (.components items.length)

def combine (op : Value → Value → Except Misuse Value) (a b p : Value) :
    Except PairError Value := do
  let (a₀, a₁) ← check a p
  let (b₀, b₁) ← check b p
  let c₀ ← (do (← op a₀ b₀).mod p : Except Misuse Value).mapError .misuse
  let c₁ ← (do (← op a₁ b₁).mod p : Except Misuse Value).mapError .misuse
  return .tuple [c₀, c₁]

def add : Value → Value → Value → Except PairError Value :=
  combine Value.add

def sub : Value → Value → Value → Except PairError Value :=
  combine Value.sub

end Pair

end CircuitReceipts
