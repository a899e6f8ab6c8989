import CircuitReceipts.Binary64.Layout
import CircuitReceipts.Misuse
import CircuitReceipts.Value

/-!
# Directives

A text with a directive in it stands for the text with a value written in the directive's place. A
directive is a percent sign, flags, a width, a precision and a letter that says how the value is
written: as text, as a whole number in base ten, eight or sixteen, as a number with a fraction, or
as one character. Two percent signs stand for one. The value has to be taken exactly once.
-/

namespace CircuitReceipts

def Value.Number.toFloat : Value.Number → Except Misuse Binary64
  | .whole n =>
    match Binary64.ofInt? n with
    | some x => .ok x
    | Option.none => .error .tooLarge
  | .floating x => .ok x

/-- The number of symbols from which on a text cannot be held. -/
def Text.capacity : Nat := 0x10000000000

/-- A directive: whether the value stands at the left of its room, whether a number without a minus
sign has a plus sign or a blank, whether a number is written in full, whether zeros fill the room
at its left, the width of the room, the precision, and the letter. -/
structure Directive where
  left : Bool
  plus : Bool
  blank : Bool
  full : Bool
  zeros : Bool
  width : Nat
  precision : Option Nat
  letter : Symbol
deriving Inhabited

namespace Directive

def maxWidth : Nat := 0x7FFFFFFFFFFFFFFF

def maxPrecision : Nat := 0x7FFFFFFF

def isFlag (s : Symbol) : Bool :=
  ("-+ #0" : Text).contains s

/-- A width or a precision at the start of a text, up to a limit, whether the value has been taken
after it, and what follows. A star takes the value, which has to be an integer in range, and leaves
none to be written. -/
def measure (limit : Nat) (v : Value) (taken : Bool) :
    Text → Except Misuse (Nat × Bool × Text)
  | .char '*' :: rest =>
    match taken, v.number? with
    | false, some (.whole n) =>
      if -(limit : Int) - 1 ≤ n ∧ n ≤ limit then .ok (n.natAbs, true, rest) else .error .tooLarge
    | _, _ => .error .wrongKind
  | t =>
    let n := Binary64.digitsValue (t.takeWhile Binary64.isDigit)
    if limit < n then .error .badValue else .ok (n, taken, t.dropWhile Binary64.isDigit)

/-- What follows a letter that only names the size of a machine number. -/
def dropSize : Text → Text
  | .char 'h' :: rest => rest
  | .char 'l' :: rest => rest
  | .char 'L' :: rest => rest
  | t => t

/-- The directive at the start of a text, whether the value has been taken after it, and what
follows. A directive that asks for a member of the value by name is refused. -/
def read (v : Value) (taken : Bool) (t : Text) : Except Misuse (Directive × Bool × Text) := do
  if t.head? = some (.char '(') then throw .wrongKind
  let flags := t.takeWhile isFlag
  let has (c : Char) : Bool := flags.contains (.char c)
  let (width, taken, t) ← measure maxWidth v taken (t.dropWhile isFlag)
  let (precision, taken, t) ←
    match t with
    | .char '.' :: t => do
      let (p, taken, t) ← measure maxPrecision v taken t
      pure (some p, taken, t)
    | t => pure (none, taken, t)
  match dropSize t with
  | [] => throw .badValue
  | letter :: rest =>
    return (⟨has '-', has '+', has ' ', has '#', has '0', width, precision, letter⟩, taken, rest)

def blanks (count : Nat) : Text :=
  List.replicate count (.char ' ')

/-- A text in its room, cut to a precision. -/
def placeText (d : Directive) (t : Text) : Text :=
  let t := match d.precision with
    | some p => t.take p
    | none => t
  if d.left then t ++ blanks (d.width - t.length) else blanks (d.width - t.length) ++ t

/-- A number in its room: its sign, the mark of its base and its digits. -/
def placeNumber (d : Directive) (negative : Bool) (mark body : Text) : Text :=
  let sign : Text := if negative then "-" else if d.plus then "+" else if d.blank then " " else []
  let room := d.width - (sign.length + mark.length + body.length)
  if d.left then sign ++ mark ++ body ++ blanks room
  else if d.zeros then sign ++ mark ++ Text.zeros room ++ body
  else blanks room ++ sign ++ mark ++ body

/-- A text with its ASCII letters as capitals. -/
def capitals (t : Text) : Text :=
  t.map fun
    | .char c => .char c.toUpper
    | s => s

/-- A whole number in a base with a mark; the precision is the least number of digits. -/
def placeWhole (d : Directive) (base : Nat) (mark : Text) (n : Int) : Text :=
  d.placeNumber (n < 0) (if d.full then mark else [])
    ((Numeral.natural base n.natAbs).padZeros (d.precision.getD 0))

/-- A floating-point number in a layout, with six digits if no precision is asked for. -/
def placeFloat (d : Directive) (layout : Binary64.Layout) (x : Binary64) : Text :=
  d.placeNumber x.isNegative [] (x.laidOut layout (d.precision.getD 6) d.full)

/-- The whole number a value is, or is cut to. -/
def wholePart (v : Value) : Except Misuse Int :=
  match v.number? with
  | some (.whole n) => .ok n
  | some (.floating x) =>
    match x.truncate with
    | .ok n => .ok n
    | .error .notANumber => .error .badValue
    | .error .infinite => .error .tooLarge
  | none => .error .wrongKind

def whole (v : Value) : Except Misuse Int :=
  match v.number? with
  | some (.whole n) => .ok n
  | _ => .error .wrongKind

def floating (v : Value) : Except Misuse Binary64 :=
  match v.number? with
  | some n => n.toFloat
  | none => .error .wrongKind

/-- The one character that a value is, or that has the value as its code point. -/
def character (v : Value) : Except Misuse Symbol :=
  match v, v.number? with
  | .text [s], _ => .ok s
  | _, some (.whole n) =>
    if n < 0 then .error .tooLarge
    else
      match Symbol.ofPoint? n.toNat with
      | some s => .ok s
      | none => .error .tooLarge
  | _, _ => .error .wrongKind

/-- A text with the symbols outside ASCII escaped. -/
def escaped (t : Text) : Text :=
  t.flatMap fun s => if s.point < 0x80 then [s] else numericEscape s.point

def write (d : Directive) (v : Value) : Except Misuse Text :=
  match d.letter with
  | .char 's' => .ok (d.placeText v.display)
  | .char 'r' => .ok (d.placeText v.written)
  | .char 'a' => .ok (d.placeText (escaped v.written))
  | .char 'd' => d.placeWhole 10 [] <$> wholePart v
  | .char 'i' => d.placeWhole 10 [] <$> wholePart v
  | .char 'u' => d.placeWhole 10 [] <$> wholePart v
  | .char 'o' => d.placeWhole 8 "0o" <$> whole v
  | .char 'x' => d.placeWhole 16 "0x" <$> whole v
  | .char 'X' => (capitals <| d.placeWhole 16 "0x" ·) <$> whole v
  | .char 'f' => d.placeFloat .positional <$> floating v
  | .char 'F' => (capitals <| d.placeFloat .positional ·) <$> floating v
  | .char 'e' => d.placeFloat .scientific <$> floating v
  | .char 'E' => (capitals <| d.placeFloat .scientific ·) <$> floating v
  | .char 'g' => d.placeFloat .general <$> floating v
  | .char 'G' => (capitals <| d.placeFloat .general ·) <$> floating v
  | .char 'c' => (fun s => { d with precision := none }.placeText [s]) <$> character v
  | _ => .error .badValue

/-- What stands before the first directive, and what follows its percent sign if there is one. -/
def split : Text → Text × Option Text
  | [] => ([], none)
  | .char '%' :: .char '%' :: rest =>
    let (before, after) := split rest
    (.char '%' :: before, after)
  | .char '%' :: rest => ([], some rest)
  | s :: rest =>
    let (before, after) := split rest
    (s :: before, after)

end Directive

/-- The text with the value written in the place of its only directive. -/
def Value.format (v : Value) (t : Text) : Except Misuse Text :=
  match Directive.split t with
  | (_, Option.none) => .error .wrongKind
  | (before, some rest) => do
    let (d, taken, rest) ← Directive.read v false rest
    if taken then throw .wrongKind
    if Text.capacity < d.width then throw .noRoom
    let shown ← d.write v
    match Directive.split rest with
    | (after, Option.none) => return before ++ shown ++ after
    | (_, some rest) =>
      let _ ← Directive.read v true rest
      throw .wrongKind

end CircuitReceipts
