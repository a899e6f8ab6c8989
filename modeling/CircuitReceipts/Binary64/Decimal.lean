import CircuitReceipts.Binary64
import CircuitReceipts.Numeral

/-!
# Decimal form of floating-point numbers

A floating-point number is written with the fewest significant digits that read back as the same
number; of several such digit strings the one nearest to the number is taken. Reading rounds the
written decimal once. Numbers with a fixed count of decimal places are rounded from the exact
value, a tie going to the even digit.
-/

namespace CircuitReceipts

namespace Binary64

/-- The number nearest to `± mantissa * 10 ^ exponent`. Exponents far out of range are answered
without computing the power. -/
def ofDecimal (negative : Bool) (mantissa : Nat) (exponent : Int) : Binary64 :=
  let size : Int := (Numeral.digits 10 mantissa).length + exponent
  if mantissa = 0 ∨ size < -400 then finite negative 0 minExponent
  else if size > 400 then infinite negative
  else if 0 ≤ exponent then round negative (mantissa * Nat.pow 10 exponent.toNat) 1
  else round negative mantissa (Nat.pow 10 (-exponent).toNat)

/-- The power of ten of the leading digit of a positive fraction. -/
def leadingPower (num den : Nat) : Int :=
  if den ≤ num then (Numeral.digits 10 (num / den)).length - 1
  else
    match (List.range 400).find? fun k => den ≤ num * Nat.pow 10 k with
    | some k => -(k : Int)
    | none => -400

/-- Of the two decimals with `count` significant digits around `num / den`, the nearer one that
reads back as `x`, as its digits and the power of ten of the last of them. -/
def shortened? (x : Binary64) (num den : Nat) (power : Int) (count : Nat) : Option (Nat × Int) :=
  let unit : Int := power - (count - 1 : Nat)
  let (n, d) :=
    if 0 ≤ unit then (num, den * Nat.pow 10 unit.toNat)
    else (num * Nat.pow 10 (-unit).toNat, den)
  let below := n / d
  let readsBack (m : Nat) : Bool := ofDecimal x.isNegative m unit == x
  let near := roundDiv n d
  let far := if near = below then below + 1 else below
  if readsBack near then some (near, unit)
  else if readsBack far then some (far, unit)
  else none

/-- The digits of a positive finite number and the power of ten of the first of them. -/
def shortest (x : Binary64) (num den : Nat) : List Nat × Int :=
  let power := leadingPower num den
  let counts := (List.range 17).map (· + 1)
  match counts.findSome? (shortened? x num den power) with
  | some (m, unit) =>
    let ds := Numeral.digits 10 m
    let first := unit + (ds.length - 1 : Nat)
    ((ds.reverse.dropWhile (· == 0)).reverse, first)
  | none => ([], 0)

def digitText (ds : List Nat) : Text :=
  ds.map fun d => .char d.digitChar

/-- The exponent of scientific form: a sign and at least two digits. -/
def exponentText (e : Int) : Text :=
  .char (if e < 0 then '-' else '+') :: (Numeral.natural 10 e.natAbs).padZeros 2

/-- The written form of digits whose first stands for `10 ^ power`: positional from `10 ^ -4` to
below `10 ^ 16`, always with a digit after the point, and scientific otherwise. -/
def layout (ds : List Nat) (power : Int) : Text :=
  if -4 ≤ power ∧ power < 16 then
    if power < 0 then
      "0." ++ Text.zeros (-power - 1).toNat ++ digitText ds
    else
      let whole := power.toNat + 1
      let front := ds.take whole ++ List.replicate (whole - ds.length) 0
      let back := ds.drop whole
      digitText front ++ "." ++ (if back.isEmpty then Text.ofString "0" else digitText back)
  else
    let back := ds.drop 1
    digitText (ds.take 1) ++ (if back.isEmpty then [] else Text.ofString "." ++ digitText back) ++
      "e" ++ exponentText power

/-- The names of the numbers that are not finite. -/
structure Names where
  nan : Text
  infinity : Text

/-- The written form, with the given names for the numbers that are not finite. -/
def written (names : Names) : Binary64 → Text
  | nan => names.nan
  | infinite s => if s then .char '-' :: names.infinity else names.infinity
  | finite s m e =>
    let body :=
      if m = 0 then Text.ofString "0.0"
      else
        let (num, den) := scaled m e
        let (ds, power) := shortest (finite s m e) num den
        layout ds power
    if s then .char '-' :: body else body

def plain : Binary64 → Text :=
  written ⟨"nan", "inf"⟩

def fixed (places : Nat) : Binary64 → Text
  | nan => "nan"
  | infinite s => if s then "-inf" else "inf"
  | finite s m e =>
    let (num, den) := scaled m e
    let unit := Nat.pow 10 places
    let n := roundDiv (num * unit) den
    let whole := Numeral.natural 10 (n / unit)
    let part := (Numeral.natural 10 (n % unit)).padZeros places
    let body := if places = 0 then whole else whole ++ "." ++ part
    if s then .char '-' :: body else body

/-- Whether a symbol is an ASCII decimal digit. -/
def isDigit (s : Symbol) : Bool :=
  48 ≤ s.point && s.point ≤ 57

def digitsValue (t : Text) : Nat :=
  Numeral.ofDigits 10 (t.map fun s => s.point - 48)

/-- The number written with the given whole digits, fraction digits and exponent. -/
def ofParts (negative : Bool) (whole fraction : Text) (exponent : Int) : Binary64 :=
  ofDecimal negative (digitsValue (whole ++ fraction)) (exponent - fraction.length)

/-- An exponent: a sign if any, and digits up to the end. -/
def exponent? (t : Text) : Option Int :=
  let read (ds : Text) : Option Nat :=
    if ds.isEmpty || !ds.all isDigit then none else some (digitsValue ds)
  match t with
  | .char '-' :: ds => (read ds).map fun n => -(n : Int)
  | .char '+' :: ds => (read ds).map Int.ofNat
  | ds => (read ds).map Int.ofNat

/-- A number written without a sign: digits, a fraction and an exponent, of which the fraction and
the exponent may be missing, or a name. -/
def unsigned? (negative : Bool) (t : Text) : Option Binary64 :=
  if t = Text.ofString "nan" then some nan
  else if t = Text.ofString "inf" ∨ t = Text.ofString "infinity" then some (infinite negative)
  else
    let whole := t.takeWhile isDigit
    let rest := t.dropWhile isDigit
    let (fraction, rest) :=
      match rest with
      | .char '.' :: r => (r.takeWhile isDigit, r.dropWhile isDigit)
      | r => ([], r)
    if whole.isEmpty && fraction.isEmpty then none
    else
      match rest with
      | [] => some (ofParts negative whole fraction 0)
      | .char 'e' :: r => (exponent? r).map (ofParts negative whole fraction)
      | .char 'E' :: r => (exponent? r).map (ofParts negative whole fraction)
      | _ => none

def read? : Text → Option Binary64
  | .char '-' :: t => unsigned? true t
  | .char '+' :: t => unsigned? false t
  | t => unsigned? false t

end Binary64

end CircuitReceipts
