import CircuitReceipts.Binary64.Decimal

/-!
# Layouts with a chosen precision

A floating-point number with as many digits as asked for: positional, with that many decimal
places; scientific, with that many places and an exponent; or whichever of the two suits the size
of the number, with that many significant digits and no zeros at the end. Digits are rounded from
the exact value, a tie going to the even digit.
-/

namespace CircuitReceipts

namespace Binary64

/-- A layout of a number. -/
inductive Layout where
  | positional
  | scientific
  | general
deriving DecidableEq, Inhabited

/-- The `count` leading digits of a positive fraction, rounded, and the power of ten of the first
of them. -/
def leading (num den count : Nat) : List Nat × Int :=
  let power := leadingPower num den
  let unit : Int := power - (count - 1 : Nat)
  let n :=
    if 0 ≤ unit then roundDiv num (den * Nat.pow 10 unit.toNat)
    else roundDiv (num * Nat.pow 10 (-unit).toNat) den
  let ds := Numeral.digits 10 n
  (ds.take count, if count < ds.length then power + 1 else power)

/-- The `count` leading digits of a fraction; all are zero if the fraction is. -/
def leadingOf (num den count : Nat) : List Nat × Int :=
  if num = 0 then (List.replicate count 0, 0) else leading num den count

def withoutZeros (ds : List Nat) : List Nat :=
  (ds.reverse.dropWhile (· == 0)).reverse

/-- Whole digits and decimal places, with a point between them if there are places or `pointed`
asks for it. -/
def withPoint (pointed : Bool) (whole places : List Nat) : Text :=
  digitText whole ++ (if pointed || !places.isEmpty then [.char '.'] else []) ++ digitText places

/-- Digits of which the first stands for `10 ^ power`, with an exponent. -/
def withExponent (pointed : Bool) (ds : List Nat) (power : Int) : Text :=
  withPoint pointed (ds.take 1) (ds.drop 1) ++ "e" ++ exponentText power

/-- Digits of which the first stands for `10 ^ power`, without an exponent. There are digits down
to the ones at least. -/
def withoutExponent (pointed : Bool) (ds : List Nat) (power : Int) : Text :=
  if power < 0 then withPoint pointed [0] (List.replicate (-power - 1).toNat 0 ++ ds)
  else withPoint pointed (ds.take (power.toNat + 1)) (ds.drop (power.toNat + 1))

/-- Digits in the general layout: those after the ones lose their zeros at the end, unless `full`
keeps them. -/
def general (full : Bool) (precision : Nat) (ds : List Nat) (power : Int) : Text :=
  let trim (keep : Nat) : List Nat :=
    if full then ds else ds.take keep ++ withoutZeros (ds.drop keep)
  if -4 ≤ power ∧ power < precision then
    withoutExponent full (trim (power + 1).toNat) power
  else withExponent full (trim 1) power

/-- The number without its sign in a layout. With `full` there always is a point, and the general
layout keeps its zeros. -/
def laidOut (layout : Layout) (precision : Nat) (full : Bool) : Binary64 → Text
  | nan => "nan"
  | infinite _ => "inf"
  | finite _ m e =>
    let (num, den) := scaled m e
    match layout with
    | .positional =>
      let unit := Nat.pow 10 precision
      let n := roundDiv (num * unit) den
      let places := Numeral.digits 10 (n % unit)
      let missing := precision - places.length
      withPoint full (Numeral.digits 10 (n / unit))
        (if precision = 0 then [] else List.replicate missing 0 ++ places)
    | .scientific =>
      let (ds, power) := leadingOf num den (precision + 1)
      withExponent full ds power
    | .general =>
      let precision := max precision 1
      let (ds, power) := leadingOf num den precision
      general full precision ds power

end Binary64

end CircuitReceipts
