import CircuitReceipts.Numeral

/-!
# Byte strings

Byte strings, the numbers they spell with the least byte first, and their hexadecimal form. Reading
the hexadecimal form back is more generous than writing it: either case is taken, and blanks may
stand between bytes, though not inside one.
-/

namespace CircuitReceipts

abbrev Bytes := List UInt8

/-- A number in lower-case base sixteen, with leading zeros up to the given width. -/
def hexDigits (width n : Nat) : Text :=
  (Numeral.natural 16 n).padZeros width

namespace Bytes

/-- The `width` low bytes of a number, the least first. -/
def ofNat : (width : Nat) → (n : Nat) → Bytes
  | 0, _ => []
  | w + 1, n => UInt8.ofNat n :: ofNat w (n / 256)

/-- The number that bytes spell, the least first. -/
def toNat : Bytes → Nat
  | [] => 0
  | b :: bs => b.toNat + 256 * toNat bs

@[simp] theorem length_ofNat (w n : Nat) : (ofNat w n).length = w := by
  induction w generalizing n with
  | zero => rfl
  | succ w ih => simp [ofNat, ih]

/-- The number of byte strings of a width. -/
def capacity : (width : Nat) → Nat
  | 0 => 1
  | w + 1 => 256 * capacity w

/-- Writing a number in some bytes and reading it keeps it modulo their capacity. -/
theorem toNat_ofNat (w n : Nat) : toNat (ofNat w n) = n % capacity w := by
  induction w generalizing n with
  | zero => simp [ofNat, toNat, capacity, Nat.mod_one]
  | succ w ih =>
    rw [ofNat, toNat, ih, capacity, Nat.mod_mul]
    simp

/-- Reading bytes and writing the number gives the bytes back. -/
theorem ofNat_toNat (bs : Bytes) : ofNat bs.length (toNat bs) = bs := by
  induction bs with
  | nil => rfl
  | cons b bs ih =>
    have hb : b.toNat < 256 := b.toNat_lt
    rw [List.length_cons, ofNat, toNat, Nat.add_mul_div_left _ _ (by omega),
      Nat.div_eq_of_lt hb, Nat.zero_add, ih]
    congr 1
    apply UInt8.toNat.inj
    simp

/-- The number that bytes spell is below their capacity. -/
theorem toNat_lt (bs : Bytes) : toNat bs < capacity bs.length := by
  induction bs with
  | nil => simp [toNat, capacity]
  | cons b bs ih =>
    have hb : b.toNat < 256 := b.toNat_lt
    rw [toNat, List.length_cons, capacity]
    omega

/-- The bytes of an ASCII text; other characters are cut to their low byte. -/
def ofAscii (s : String) : Bytes :=
  s.toList.map fun c => UInt8.ofNat c.toNat

/-- The hexadecimal form: two lower-case digits for each byte. -/
def hex (b : Bytes) : Text :=
  b.flatMap fun x => hexDigits 2 x.toNat

def hexDigit? (s : Symbol) : Option Nat :=
  let n := s.point
  if 48 ≤ n ∧ n ≤ 57 then some (n - 48)
  else if 97 ≤ n ∧ n ≤ 102 then some (n - 87)
  else if 65 ≤ n ∧ n ≤ 70 then some (n - 55)
  else none

/-- The bytes whose hexadecimal form a text is. -/
def ofHex? : Text → Option Bytes
  | [] => some []
  | [s] => if s.isNarrowBlank then some [] else none
  | s :: t :: rest =>
    if s.isNarrowBlank then ofHex? (t :: rest)
    else do
      let high ← hexDigit? s
      let low ← hexDigit? t
      return UInt8.ofNat (16 * high + low) :: (← ofHex? rest)

end Bytes

end CircuitReceipts
