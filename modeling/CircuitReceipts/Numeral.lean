import CircuitReceipts.Text.Class

/-!
# Numerals

Writing integers in base ten and sixteen, and reading them back from text. A numeral to be read
may be surrounded by blanks, may carry a sign, may use the decimal digits of any script, and may
have single underscores between digits; in base sixteen it may begin with the radix mark `0x`.
The main statement is that the digits of a number stand for that number.
-/

namespace CircuitReceipts

/-- The number of binary digits of a natural number. -/
def bitLength (n : Nat) : Nat :=
  if n = 0 then 0 else n.log2 + 1

namespace Numeral

/-- The digits of `n` in base `b`, most significant first, followed by `tail`. -/
def digitsOnto (b n : Nat) (tail : List Nat) : List Nat :=
  if _small : b < 2 ∨ n < b then n :: tail
  else digitsOnto b (n / b) (n % b :: tail)
termination_by n
decreasing_by exact Nat.div_lt_self (by omega) (by omega)

/-- The digits of `n` in base `b`, most significant first. -/
def digits (b n : Nat) : List Nat :=
  digitsOnto b n []

/-- The number that a list of digits stands for, continuing from `start`. -/
def ofDigitsFrom (b start : Nat) (ds : List Nat) : Nat :=
  ds.foldl (fun n d => n * b + d) start

/-- The number that a list of digits stands for. -/
def ofDigits (b : Nat) (ds : List Nat) : Nat :=
  ofDigitsFrom b 0 ds

theorem ofDigitsFrom_digitsOnto (b n : Nat) (tail : List Nat) :
    ofDigitsFrom b 0 (digitsOnto b n tail) = ofDigitsFrom b n tail := by
  fun_induction digitsOnto b n tail with
  | case1 n tail h => simp [ofDigitsFrom]
  | case2 n tail h ih =>
    rw [ih]
    simp [ofDigitsFrom, Nat.div_add_mod']

/-- The digits of a number stand for it. -/
@[simp] theorem ofDigits_digits (b n : Nat) : ofDigits b (digits b n) = n :=
  ofDigitsFrom_digitsOnto b n []

/-- A natural number in base `b`, with the letters from `a` on as digits from ten on. -/
def natural (b n : Nat) : Text :=
  (digits b n).map fun d => .char d.digitChar

/-- An integer in base `b`, with a minus sign if it is negative. -/
def integer (b : Nat) : Int → Text
  | .ofNat n => natural b n
  | .negSucc n => .char '-' :: natural b (n + 1)

def decimal (n : Int) : Text :=
  integer 10 n

/-- The base a numeral is read in. -/
inductive Radix where
  | ten
  | sixteen
deriving DecidableEq

def Radix.size : Radix → Nat
  | ten => 10
  | sixteen => 16

/-- The value of a digit: a decimal digit of any script or, in base sixteen, one of the ASCII
letters `a` to `f` in either case. -/
def digit? (r : Radix) (s : Symbol) : Option Nat :=
  match s.decimalDigit? with
  | some d => some d
  | none =>
    let n := s.point
    if r = .sixteen ∧ 97 ≤ n ∧ n ≤ 102 then some (n - 87)
    else if r = .sixteen ∧ 65 ≤ n ∧ n ≤ 70 then some (n - 55)
    else none

/-- Digits up to the end of the text, each but the first possibly after an underscore; a digit
has just been read. -/
def moreDigits? (r : Radix) : Text → Option (List Nat)
  | [] => some []
  | .char '_' :: s :: rest => do return (← digit? r s) :: (← moreDigits? r rest)
  | s :: rest => do return (← digit? r s) :: (← moreDigits? r rest)

/-- At least one digit, up to the end of the text. -/
def allDigits? (r : Radix) : Text → Option (List Nat)
  | [] => none
  | s :: rest => do return (← digit? r s) :: (← moreDigits? r rest)

/-- What remains after the radix mark, which may be followed by one underscore. -/
def dropMark (r : Radix) (t : Text) : Text :=
  match r, t with
  | .sixteen, s :: .char x :: rest =>
    if s.decimalDigit? = some 0 ∧ (x = 'x' ∨ x = 'X') then
      match rest with
      | .char '_' :: digits => digits
      | digits => digits
    else t
  | _, _ => t

def unsigned? (r : Radix) (t : Text) : Option Nat :=
  (allDigits? r (dropMark r t)).map (ofDigits r.size)

def signed? (r : Radix) : Text → Option Int
  | .char '-' :: t => (unsigned? r t).map fun n => -(n : Int)
  | .char '+' :: t => (unsigned? r t).map Int.ofNat
  | t => (unsigned? r t).map Int.ofNat

/-- The text without the blanks at both ends. -/
def strip (t : Text) : Text :=
  ((t.dropWhile Symbol.isBlank).reverse.dropWhile Symbol.isBlank).reverse

def read? (r : Radix) (t : Text) : Option Int :=
  signed? r (strip t)

end Numeral

end CircuitReceipts
