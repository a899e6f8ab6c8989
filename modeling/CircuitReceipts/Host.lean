import CircuitReceipts.Misuse
import CircuitReceipts.Text.Class

/-!
# Hosts

The host that carries the library has bounds of its own. It may refuse to write or to read a number
in base ten with more than so many digits, and it follows only so many containers of a document
inside each other. Neither bound is a constant of the library, which runs under all of them; a
number in base sixteen has any length.

What counts things that are stored, such as a position, a length or a number of bits, has few
digits, so only the numbers that stand for themselves are looked at.
-/

namespace CircuitReceipts

/-- What a host allows. -/
structure Host where
  /-- The most digits of a number that is written or read in base ten, if there is a bound. -/
  digits : Option Nat
  /-- The most containers of a document that may be open at once. -/
  nesting : Nat
  /-- No bound on digits can be set lower. -/
  digits_ge : ∀ k ∈ digits, 640 ≤ k
  /-- The documents of the library itself can be followed. -/
  nesting_ge : 5 ≤ nesting

namespace Host

/-- A host as it is set up if nothing else is asked for. How deep a document may be is what such a
host has left for one caller, and differs between hosts. -/
def standard : Host where
  digits := some 4300
  nesting := 990
  digits_ge := by simp
  nesting_ge := by decide

/-- The standard host with its bound on digits lifted. -/
def lifted : Host where
  digits := none
  nesting := 990
  digits_ge := by simp
  nesting_ge := by decide

instance : Inhabited Host := ⟨standard⟩

/-- Whether a number can be written in base ten. -/
def Writes (h : Host) (n : Int) : Prop :=
  ∀ k ∈ h.digits, n.natAbs < Nat.pow 10 k

instance (h : Host) (n : Int) : Decidable (h.Writes n) :=
  inferInstanceAs (Decidable (∀ k ∈ h.digits, n.natAbs < Nat.pow 10 k))

/-- Whether all numbers that a message shows can be written. -/
def Tells (h : Host) (shown : List Int) : Prop :=
  ∀ n ∈ shown, h.Writes n

instance (h : Host) (shown : List Int) : Decidable (h.Tells shown) :=
  inferInstanceAs (Decidable (∀ n ∈ shown, h.Writes n))

/-- Whether a text does not have too many decimal digits to be read as a number. -/
def Reads (h : Host) (t : Text) : Prop :=
  ∀ k ∈ h.digits, t.countP (fun s => s.decimalDigit?.isSome) ≤ k

instance (h : Host) (t : Text) : Decidable (h.Reads t) :=
  inferInstanceAs (Decidable (∀ k ∈ h.digits, t.countP (fun s => s.decimalDigit?.isSome) ≤ k))

end Host

end CircuitReceipts
