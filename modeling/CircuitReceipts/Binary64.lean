/-!
# Binary floating point

The numbers of 64-bit binary floating point, held exactly as a sign, a whole mantissa and a power
of two. Every operation computes the exact rational result and rounds it once to the nearest
number, a tie going to the even mantissa, so nothing here depends on machine arithmetic.
-/

namespace CircuitReceipts

/-- A binary floating-point number. A finite one is `± mantissa * 2 ^ exponent`; those that
`Binary64.round` makes have the least exponent, from -1074 on, whose mantissa is below `2 ^ 53`. -/
inductive Binary64 where
  | nan
  | infinite (negative : Bool)
  | finite (negative : Bool) (mantissa : Nat) (exponent : Int)
deriving DecidableEq, Inhabited

namespace Binary64

def minExponent : Int := -1074

def maxExponent : Int := 971

def mantissaLimit : Nat := 0x20000000000000

/-- The quotient of two natural numbers rounded to the nearest whole number, a tie to the even
one. -/
def roundDiv (num den : Nat) : Nat :=
  let q := num / den
  let r := 2 * (num % den)
  if r > den ∨ (r = den ∧ q % 2 = 1) then q + 1 else q

/-- The product of a natural number and a power of two, as a fraction. -/
def scaled (n : Nat) (e : Int) : Nat × Nat :=
  if 0 ≤ e then (n * Nat.pow 2 e.toNat, 1) else (n, Nat.pow 2 (-e).toNat)

/-- The exponent at which the quotient of two positive numbers has a mantissa of 53 bits, or the
least exponent if that is greater. -/
def exponentOf (num den : Nat) : Int :=
  let guess : Int := (num.log2 : Int) - (den.log2 : Int) - 52
  let fits (e : Int) : Bool :=
    let (n, d) :=
      if 0 ≤ e then (num, den * Nat.pow 2 e.toNat) else (num * Nat.pow 2 (-e).toNat, den)
    n / d < mantissaLimit
  let e := if fits (guess - 1) then guess - 1 else guess
  max e minExponent

/-- The number nearest to `± num / den`. -/
def round (negative : Bool) (num den : Nat) : Binary64 :=
  if num = 0 then finite negative 0 minExponent
  else
    let e := exponentOf num den
    let m :=
      if 0 ≤ e then roundDiv num (den * Nat.pow 2 e.toNat)
      else roundDiv (num * Nat.pow 2 (-e).toNat) den
    let (m, e) := if m = mantissaLimit then (mantissaLimit / 2, e + 1) else (m, e)
    if e > maxExponent then infinite negative else finite negative m e

/-- The number nearest to an integer, if it is in range. -/
def ofInt? (n : Int) : Option Binary64 :=
  match round (n < 0) n.natAbs 1 with
  | infinite _ => none
  | x => some x

def positiveZero : Binary64 := finite false 0 minExponent

def isNegative : Binary64 → Bool
  | nan => false
  | infinite s => s
  | finite s _ _ => s

/-- Whether the number is one of the two zeros. -/
def isZero : Binary64 → Bool
  | finite _ m _ => m == 0
  | _ => false

def neg : Binary64 → Binary64
  | nan => nan
  | infinite s => infinite !s
  | finite s m e => finite (!s) m e

/-- The mantissa with its sign, as a multiple of `2 ^ e`, for `e` at most the exponent. -/
def unitsOf (negative : Bool) (m : Nat) (exponent e : Int) : Int :=
  let n : Int := (m * Nat.pow 2 (exponent - e).toNat : Nat)
  if negative then -n else n

/-- The number nearest to `n * 2 ^ e`; a zero result has the given sign. -/
def ofUnits (zeroNegative : Bool) (n e : Int) : Binary64 :=
  if n = 0 then finite zeroNegative 0 minExponent
  else
    let (a, b) := scaled n.natAbs e
    round (n < 0) a b

def add : Binary64 → Binary64 → Binary64
  | nan, _ => nan
  | _, nan => nan
  | infinite s, infinite t => if s = t then infinite s else nan
  | infinite s, _ => infinite s
  | _, infinite t => infinite t
  | finite s m e, finite t n f =>
    let g := min e f
    ofUnits (s && t) (unitsOf s m e g + unitsOf t n f g) g

def sub (x y : Binary64) : Binary64 :=
  add x (neg y)

def mul : Binary64 → Binary64 → Binary64
  | nan, _ => nan
  | _, nan => nan
  | infinite s, y => if y.isZero then nan else infinite (s != y.isNegative)
  | x, infinite t => if x.isZero then nan else infinite (x.isNegative != t)
  | finite s m e, finite t n f =>
    let (a, b) := scaled (m * n) (e + f)
    round (s != t) a b

/-- The reciprocal of a number that is not zero. -/
def reciprocal : Binary64 → Binary64
  | nan => nan
  | infinite s => finite s 0 minExponent
  | finite s m e =>
    let (num, den) := scaled m e
    round s den num

/-- The remainder of a division with the sign of the divisor, which is not zero. -/
def mod : Binary64 → Binary64 → Binary64
  | nan, _ => nan
  | _, nan => nan
  | infinite _, _ => nan
  | x, infinite t =>
    if x.isZero then finite t 0 minExponent
    else if x.isNegative = t then x
    else infinite t
  | finite s m e, finite t n f =>
    let g := min e f
    let a := unitsOf s m e g
    let b := unitsOf t n f g
    let truncated := ofUnits s (a.tmod b) g
    if truncated.isZero then finite t 0 minExponent
    else if truncated.isNegative = t then truncated
    else add truncated (finite t n f)

/-- How a number lies to an integer; `none` for one that is not a number. -/
def compareInt? : Binary64 → Int → Option Ordering
  | nan, _ => none
  | infinite s, _ => some (if s then .lt else .gt)
  | finite s m e, k =>
    let g := min e 0
    some (compare (unitsOf s m e g) (k * (Nat.pow 2 (-g).toNat : Nat)))

/-- Whether the number is exactly the given integer. -/
def equalsInt (x : Binary64) (k : Int) : Bool :=
  x.compareInt? k == some .eq

/-- Why a number has no integer part. -/
inductive NoInteger where
  | notANumber
  | infinite
deriving DecidableEq

def truncate : Binary64 → Except NoInteger Int
  | nan => .error .notANumber
  | infinite _ => .error .infinite
  | finite s m e =>
    let (a, b) := scaled m e
    .ok (if s then -((a / b : Nat) : Int) else (a / b : Nat))

end Binary64

end CircuitReceipts
