import CircuitReceipts.Bytes

/-!
# Text encodings

Reading the bytes of a document as text. A byte string that is to be JSON may be in UTF-8, UTF-16
or UTF-32; which one is seen from a byte order mark or from the zero bytes at its start, and lone
surrogates are let through. A text file is in UTF-8 without lone surrogates.
-/

namespace CircuitReceipts

/-- An encoding of text, with the order of the bytes of a unit. -/
inductive Encoding where
  | utf8
  | utf16 (littleEndian : Bool)
  | utf32 (littleEndian : Bool)
deriving DecidableEq

namespace Encoding

/-- The value of a continuation byte of UTF-8. -/
def tail? (b : UInt8) : Option Nat :=
  if 0x80 ≤ b.toNat ∧ b.toNat < 0xC0 then some (b.toNat - 0x80) else none

/-- The text of bytes in UTF-8, in the shortest form of each code point; lone surrogates are taken
as `surrogates` says. -/
def decodeUtf8? (surrogates : Bool) : Bytes → Option Text
  | [] => some []
  | a :: rest =>
    let n := a.toNat
    if n < 0x80 then do return .char (Char.ofNat n) :: (← decodeUtf8? surrogates rest)
    else if n < 0xC2 then none
    else if n < 0xE0 then
      match rest with
      | b :: rest => do
        let b ← tail? b
        let s ← Symbol.ofPoint? ((n - 0xC0) * 64 + b)
        return s :: (← decodeUtf8? surrogates rest)
      | [] => none
    else if n < 0xF0 then
      match rest with
      | b :: c :: rest => do
        let b ← tail? b
        let c ← tail? c
        let p := ((n - 0xE0) * 64 + b) * 64 + c
        if p < 0x800 then none
        else
          match ← Symbol.ofPoint? p with
          | .surrogate k =>
            if surrogates then return .surrogate k :: (← decodeUtf8? surrogates rest) else none
          | s => return s :: (← decodeUtf8? surrogates rest)
      | _ => none
    else if n < 0xF5 then
      match rest with
      | b :: c :: d :: rest => do
        let b ← tail? b
        let c ← tail? c
        let d ← tail? d
        let p := (((n - 0xF0) * 64 + b) * 64 + c) * 64 + d
        if p < 0x10000 then none
        else
          let s ← Symbol.ofPoint? p
          return s :: (← decodeUtf8? surrogates rest)
      | _ => none
    else none

/-- The units of two bytes; none if a byte is left over. -/
def units16? (littleEndian : Bool) : Bytes → Option (List Nat)
  | [] => some []
  | a :: b :: rest => do
    let n := if littleEndian then Bytes.toNat [a, b] else Bytes.toNat [b, a]
    return n :: (← units16? littleEndian rest)
  | _ => none

/-- The text of units of UTF-16; a surrogate without its partner stands alone. -/
def joinUnits : List Nat → Text
  | [] => []
  | [n] => [(Symbol.ofPoint? n).getD default]
  | n :: m :: rest =>
    if 0xD800 ≤ n ∧ n < 0xDC00 ∧ 0xDC00 ≤ m ∧ m < 0xE000 then
      (Symbol.ofPoint? (0x10000 + (n - 0xD800) * 0x400 + (m - 0xDC00))).getD default ::
        joinUnits rest
    else (Symbol.ofPoint? n).getD default :: joinUnits (m :: rest)

/-- The text of units of four bytes; none if one is no code point or bytes are left over. -/
def decodeUtf32? (littleEndian : Bool) : Bytes → Option Text
  | [] => some []
  | a :: b :: c :: d :: rest => do
    let n := if littleEndian then Bytes.toNat [a, b, c, d] else Bytes.toNat [d, c, b, a]
    return (← Symbol.ofPoint? n) :: (← decodeUtf32? littleEndian rest)
  | _ => none

/-- The text of bytes in an encoding, lone surrogates let through. -/
def decode? : Encoding → Bytes → Option Text
  | utf8, b => decodeUtf8? true b
  | utf16 e, b => (units16? e b).map joinUnits
  | utf32 e, b => decodeUtf32? e b

/-- The encoding that a byte order mark announces, and the bytes after the mark. -/
def marked? : Bytes → Option (Encoding × Bytes)
  | 0x00 :: 0x00 :: 0xFE :: 0xFF :: rest => some (utf32 false, rest)
  | 0xFF :: 0xFE :: 0x00 :: 0x00 :: rest => some (utf32 true, rest)
  | 0xFE :: 0xFF :: rest => some (utf16 false, rest)
  | 0xFF :: 0xFE :: rest => some (utf16 true, rest)
  | 0xEF :: 0xBB :: 0xBF :: rest => some (utf8, rest)
  | _ => none

/-- The encoding that the zero bytes at the start of a document show. -/
def guessed : Bytes → Encoding
  | 0 :: b :: _ :: _ :: _ => if b = 0 then utf32 false else utf16 false
  | _ :: 0 :: c :: d :: _ => if c = 0 ∧ d = 0 then utf32 true else utf16 true
  | [0, _] => utf16 false
  | [_, 0] => utf16 true
  | _ => utf8

/-- The text of the bytes of a JSON document. -/
def documentText? (b : Bytes) : Option Text :=
  match marked? b with
  | some (e, rest) => e.decode? rest
  | none => (guessed b).decode? b

/-- The text of the bytes of a text file. -/
def fileText? (b : Bytes) : Option Text :=
  decodeUtf8? false b

/-- The bytes of a symbol in UTF-8, also of a lone surrogate. -/
def symbolBytes (s : Symbol) : Bytes :=
  let n := s.point
  let low (k : Nat) : UInt8 := UInt8.ofNat (0x80 + k % 64)
  if n < 0x80 then [UInt8.ofNat n]
  else if n < 0x800 then [UInt8.ofNat (0xC0 + n / 64), low n]
  else if n < 0x10000 then [UInt8.ofNat (0xE0 + n / 4096), low (n / 64), low n]
  else [UInt8.ofNat (0xF0 + n / 262144), low (n / 4096), low (n / 64), low n]

def encodeUtf8 (t : Text) : Bytes :=
  t.flatMap symbolBytes

end Encoding

end CircuitReceipts
