/-!
# Text

A text is what a JSON string can hold: a sequence of characters in which a surrogate may stand
alone, so a text is a little more than a `String`. Every `String` is a text and is taken for one
wherever a text is expected. Messages, names and documents of this library are texts.
-/

namespace CircuitReceipts

/-- One unit of a text: a character, or a surrogate without its partner, given by its distance
from U+D800. -/
inductive Symbol where
  | char (c : Char)
  | surrogate (offset : Fin 0x800)
deriving DecidableEq, Inhabited

namespace Symbol

def point : Symbol → Nat
  | char c => c.toNat
  | surrogate k => 0xD800 + k

/-- The symbol with the given code point, if the number is a code point. -/
def ofPoint? (n : Nat) : Option Symbol :=
  if h : 0xD800 ≤ n ∧ n < 0xE000 then some (surrogate ⟨n - 0xD800, by omega⟩)
  else if n < 0x110000 then some (char (Char.ofNat n))
  else none

end Symbol

abbrev Text := List Symbol

namespace Text

/-- The text with the characters of a string. -/
def ofString (s : String) : Text :=
  s.toList.map .char

instance : Coe String Text := ⟨ofString⟩

/-- The string of a text whose surrogates, if it has any, are shown as replacement characters. -/
def toDisplay (t : Text) : String :=
  String.ofList (t.map fun
    | .char c => c
    | .surrogate _ => '\uFFFD')

/-- The texts one after another, with `separator` between neighbours. -/
def join (separator : Text) (parts : List Text) : Text :=
  parts.intersperse separator |>.flatten

def zeros (count : Nat) : Text :=
  List.replicate count (.char '0')

/-- The text preceded by as many zeros as bring it to `width` symbols. -/
def padZeros (width : Nat) (t : Text) : Text :=
  zeros (width - t.length) ++ t

/-- The text followed by as many blanks as bring it to `width` symbols. -/
def padRight (width : Nat) (t : Text) : Text :=
  t ++ List.replicate (width - t.length) (.char ' ')

/-- The text preceded by as many blanks as bring it to `width` symbols. -/
def padLeft (width : Nat) (t : Text) : Text :=
  List.replicate (width - t.length) (.char ' ') ++ t

/-- Order by code points, the shorter of two texts first when it begins the other. -/
def precedes : Text → Text → Bool
  | _, [] => false
  | [], _ :: _ => true
  | x :: xs, y :: ys =>
    if x.point = y.point then precedes xs ys else decide (x.point < y.point)

theorem join_nil (separator : Text) : join separator [] = [] := rfl

theorem join_singleton (separator part : Text) : join separator [part] = part := by
  simp [join]

theorem join_cons_cons (separator part next : Text) (rest : List Text) :
    join separator (part :: next :: rest) =
      part ++ (separator ++ join separator (next :: rest)) := by
  simp [join, List.intersperse]

theorem join_concat {separator : Text} {parts : List Text} (hne : parts ≠ []) (last : Text) :
    join separator (parts ++ [last]) = join separator parts ++ (separator ++ last) := by
  induction parts with
  | nil => exact absurd rfl hne
  | cons part parts ih =>
    cases parts with
    | nil => rw [List.singleton_append, join_cons_cons, join_singleton, join_singleton]
    | cons next rest =>
      have htail := ih (List.cons_ne_nil _ _)
      rw [List.cons_append] at htail
      rw [List.cons_append, List.cons_append, join_cons_cons, htail, join_cons_cons]
      simp only [List.append_assoc]

/-- What holds of the symbols of the separator and of all parts holds of those of the joined
text. -/
theorem forall_mem_join {separator : Text} {parts : List Text} {p : Symbol → Prop}
    (hseparator : ∀ s ∈ separator, p s) (hparts : ∀ part ∈ parts, ∀ s ∈ part, p s) :
    ∀ s ∈ join separator parts, p s := by
  induction parts with
  | nil => exact fun s hs => absurd hs List.not_mem_nil
  | cons part parts ih =>
    rw [List.forall_mem_cons] at hparts
    cases parts with
    | nil =>
      rw [join_singleton]
      exact hparts.1
    | cons next rest =>
      rw [join_cons_cons, List.forall_mem_append, List.forall_mem_append]
      exact ⟨hparts.1, hseparator, ih hparts.2⟩

end Text

end CircuitReceipts
