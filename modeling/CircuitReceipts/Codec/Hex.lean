import CircuitReceipts.Bytes
import CircuitReceipts.Value

/-!
# Hexadecimal operands

Operands on a command line are hexadecimal numerals with an optional radix mark. Results are shown
with the mark and at least two characters after it; a minus sign counts as one of them and follows
the mark.
-/

namespace CircuitReceipts

/-- Why a text is no hexadecimal operand. -/
inductive HexError where
  /-- Nothing, or nothing after the radix mark. -/
  | empty
  | malformed
deriving DecidableEq

/-- The text of a hexadecimal error, where it has one. -/
def HexError.message? : HexError → Option Text
  | empty => some "empty hex string"
  | malformed => none

/-- Whether a text begins with the radix mark, in either case. -/
def hasRadixMark : Text → Bool
  | .char '0' :: .char c :: _ => c == 'x' || c == 'X'
  | _ => false

/-- The integer of a hexadecimal text. After the radix mark the text may be any numeral in base
sixteen, blanks, sign and a second mark included. -/
def ofHexText (t : Text) : Except HexError Int :=
  let digits := if hasRadixMark t then t.drop 2 else t
  if digits.isEmpty then .error .empty
  else
    match Numeral.read? .sixteen digits with
    | some n => .ok n
    | none => .error .malformed

def hexText (n : Int) : Text :=
  if n < 0 then "0x-" ++ Numeral.natural 16 n.natAbs else "0x" ++ hexDigits 2 n.natAbs

/-- Why a value has no hexadecimal form: its kind has no formats, or not this one. -/
inductive HexFormError where
  | noFormats
  | otherFormats
deriving DecidableEq

namespace Value

mutual

/-- The hexadecimal form of a value: the texts of its integers, in the same tuples. -/
def hexForm : Value → Except HexFormError Value
  | int n => .ok (text (hexText n))
  | bool b => .ok (text (hexText (if b then 1 else 0)))
  | tuple items => do return tuple (← hexFormEach items)
  | float _ => .error .otherFormats
  | text _ => .error .otherFormats
  | none => .error .noFormats
  | list _ => .error .noFormats

def hexFormEach : List Value → Except HexFormError (List Value)
  | [] => .ok []
  | v :: vs => do
    let w ← hexForm v
    let ws ← hexFormEach vs
    return w :: ws

end

end Value

end CircuitReceipts
