import CircuitReceipts.Text

/-!
# Character classes of numerals

Two classes of the Unicode standard, version 14: the decimal digits, which come in runs of ten
from zero to nine, and the blanks that may surround a numeral.
-/

namespace CircuitReceipts

/-- The code points of the digits zero; the other nine digits of a script follow its zero. -/
def decimalZeros : List Nat :=
  [
   0x30, 0x660, 0x6f0, 0x7c0, 0x966, 0x9e6, 0xa66, 0xae6,
   0xb66, 0xbe6, 0xc66, 0xce6, 0xd66, 0xde6, 0xe50, 0xed0,
   0xf20, 0x1040, 0x1090, 0x17e0, 0x1810, 0x1946, 0x19d0, 0x1a80,
   0x1a90, 0x1b50, 0x1bb0, 0x1c40, 0x1c50, 0xa620, 0xa8d0, 0xa900,
   0xa9d0, 0xa9f0, 0xaa50, 0xabf0, 0xff10, 0x104a0, 0x10d30, 0x11066,
   0x110f0, 0x11136, 0x111d0, 0x112f0, 0x11450, 0x114d0, 0x11650, 0x116c0,
   0x11730, 0x118e0, 0x11950, 0x11c50, 0x11d50, 0x11da0, 0x16a60, 0x16ac0,
   0x16b50, 0x1d7ce, 0x1d7d8, 0x1d7e2, 0x1d7ec, 0x1d7f6, 0x1e140, 0x1e2f0,
   0x1e950, 0x1fbf0
  ]

/-- The blanks outside ASCII: the space separators, the line and paragraph separators and the
next-line control. -/
def wideBlanks : List Nat :=
  [
   0x85, 0xa0, 0x1680, 0x2000, 0x2001, 0x2002, 0x2003, 0x2004,
   0x2005, 0x2006, 0x2007, 0x2008, 0x2009, 0x200a, 0x2028, 0x2029,
   0x202f, 0x205f, 0x3000
  ]

namespace Symbol

/-- The value of a decimal digit of any script. -/
def decimalDigit? (s : Symbol) : Option Nat :=
  (decimalZeros.find? fun z => z ≤ s.point && s.point < z + 10).map (s.point - ·)

/-- Tab, line feed, vertical tab, form feed, carriage return, space, and the wide blanks. -/
def isBlank (s : Symbol) : Bool :=
  (9 ≤ s.point && s.point ≤ 13) || s.point == 32 || wideBlanks.contains s.point

/-- Only the characters of the first line above, those of ASCII. -/
def isNarrowBlank (s : Symbol) : Bool :=
  (9 ≤ s.point && s.point ≤ 13) || s.point == 32

end Symbol

end CircuitReceipts
