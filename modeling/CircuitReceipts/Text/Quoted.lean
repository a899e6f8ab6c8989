import CircuitReceipts.Bytes
import CircuitReceipts.Text.Printable

/-!
# Quoted form of texts and byte strings

How messages show a text: between apostrophes or, when the text holds an apostrophe and no double
quote, between double quotes, with the quote itself, the backslash and everything that does not
print written as an escape. Byte strings are shown in the same way, byte by byte, after a `b`.
-/

namespace CircuitReceipts

/-- The quote that encloses a text: the apostrophe, unless the text holds one and holds no double
quote. -/
def enclosingQuote (t : Text) : Char :=
  if t.contains (.char '\'') && !t.contains (.char '"') then '"' else '\''

/-- The escapes of one letter or of the character itself: tab, line feed, carriage return, the
backslash and the enclosing quote. -/
def shortEscape? (quote : Char) (n : Nat) : Option Text :=
  if n = 9 then some "\\t"
  else if n = 10 then some "\\n"
  else if n = 13 then some "\\r"
  else if n = 92 then some "\\\\"
  else if n = quote.toNat then some [.char '\\', .char quote]
  else none

/-- The escape by number: two digits below U+0100, four below U+10000, eight above. -/
def numericEscape (n : Nat) : Text :=
  if n < 0x100 then "\\x" ++ hexDigits 2 n
  else if n < 0x10000 then "\\u" ++ hexDigits 4 n
  else "\\U" ++ hexDigits 8 n

namespace Symbol

/-- A symbol as it stands in a quoted text. -/
def quoted (quote : Char) (s : Symbol) : Text :=
  match shortEscape? quote s.point with
  | some t => t
  | none => if isPrintable s.point then [s] else numericEscape s.point

end Symbol

namespace Text

def quoted (t : Text) : Text :=
  let q := enclosingQuote t
  [.char q] ++ t.flatMap (Symbol.quoted q) ++ [.char q]

end Text

namespace Bytes

def quoted (b : Bytes) : Text :=
  let t : Text := b.map fun x => .char (Char.ofNat x.toNat)
  let q := enclosingQuote t
  let shown (x : UInt8) : Text :=
    match shortEscape? q x.toNat with
    | some e => e
    | none =>
      if 0x20 ≤ x.toNat ∧ x.toNat < 0x7F then [.char (Char.ofNat x.toNat)]
      else numericEscape x.toNat
  .char 'b' :: .char q :: (b.flatMap shown ++ [.char q])

end Bytes

end CircuitReceipts
