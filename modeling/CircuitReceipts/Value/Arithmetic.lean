import CircuitReceipts.Value.Directive

/-!
# Arithmetic on values

Sums, differences, products and remainders of values that are numbers, and inverses modulo an
integer. Whole numbers are exact; with a floating-point number the other operand is taken as one
too. A remainder has the sign of its modulus, and an inverse without a modulus is the reciprocal.
Texts are added by joining them and multiplied by repeating them, and a text's remainder is the
text with the other operand written in the place of its directive.
-/

namespace CircuitReceipts

/-- A pair `(s, t)` with `s * a + t * b = gcd a b`. -/
def bezout (a b : Nat) : Int × Int :=
  if _done : b = 0 then (1, 0)
  else
    let (s, t) := bezout b (a % b)
    (t, s - t * ((a / b : Nat) : Int))
termination_by b
decreasing_by exact Nat.mod_lt _ (by omega)

/-- The inverse of `a` modulo `m`, below `m`, if there is one; modulo one it is zero. -/
def inverseMod? (a m : Nat) : Option Nat :=
  if m ≠ 0 ∧ Nat.gcd a m = 1 then some (((bezout (a % m) m).1 % (m : Int)).toNat) else none

namespace Value

/-- An operation that is exact on whole numbers and rounds on others. -/
def Number.combine (exact : Int → Int → Int) (rounded : Binary64 → Binary64 → Binary64) :
    Number → Number → Except Misuse Number
  | whole m, whole n => .ok (whole (exact m n))
  | x, y => do return floating (rounded (← x.toFloat) (← y.toFloat))

def Number.mod : Number → Number → Except Misuse Number
  | whole m, whole n => if n = 0 then .error .divisionByZero else .ok (whole (m.fmod n))
  | x, y => do
    let a ← x.toFloat
    let b ← y.toFloat
    if b.isZero then .error .divisionByZero else return floating (a.mod b)

def Number.value : Number → Value
  | whole n => int n
  | floating x => float x

/-- The number a value is, or a refusal. -/
def number (v : Value) : Except Misuse Number :=
  match v.number? with
  | some n => .ok n
  | Option.none => .error .wrongKind

def add : Value → Value → Except Misuse Value
  | text s, text t => .ok (text (s ++ t))
  | v, w => do return (← (← v.number).combine (· + ·) Binary64.add (← w.number)).value

def sub (v w : Value) : Except Misuse Value := do
  return (← (← v.number).combine (· - ·) Binary64.sub (← w.number)).value

def maxSize : Nat := 0x7FFFFFFFFFFFFFFF

/-- A text as often as a number says, not at all if the number is negative. -/
def repeated (t : Text) : Number → Except Misuse Value
  | .whole n =>
    if n < -(maxSize : Int) - 1 ∨ n > maxSize ∨ t.length * n.toNat > maxSize then .error .tooLarge
    else if Text.capacity < t.length * n.toNat then .error .noRoom
    else .ok (text (if t.isEmpty then [] else (List.replicate n.toNat t).flatten))
  | .floating _ => .error .wrongKind

def mul : Value → Value → Except Misuse Value
  | text t, w => do repeated t (← w.number)
  | v, text t => do repeated t (← v.number)
  | v, w => do return (← (← v.number).combine (· * ·) Binary64.mul (← w.number)).value

def mod : Value → Value → Except Misuse Value
  | text t, m => text <$> m.format t
  | v, m => do return (← (← v.number).mod (← m.number)).value

/-- The integer a value is; a boolean counts as one or zero. -/
def integer (v : Value) : Except Misuse Int :=
  match v.number? with
  | some (.whole n) => .ok n
  | _ => .error .wrongKind

/-- The reciprocal of a number, as a floating-point number. -/
def Number.reciprocal (n : Number) : Except Misuse Binary64 := do
  let x ← n.toFloat
  if x.isZero then throw .divisionByZero
  match x, x.reciprocal with
  | .finite .., .infinite _ => throw .tooLarge
  | _, y => return y

/-- The inverse of an integer modulo another, with the sign of the modulus; without a modulus, the
reciprocal of a number. -/
def inverse (v m : Value) : Except Misuse Value :=
  match m with
  | none => do return float (← (← v.number).reciprocal)
  | m => do
    let a ← v.integer
    let n ← m.integer
    match inverseMod? ((a.fmod n).natAbs) n.natAbs with
    | Option.none => .error .badValue
    | some i => return int ((if a.fmod n < 0 then -(i : Int) else i).fmod n)

end Value

end CircuitReceipts
