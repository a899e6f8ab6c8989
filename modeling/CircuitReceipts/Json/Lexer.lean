import CircuitReceipts.Binary64.Decimal
import CircuitReceipts.Bytes
import CircuitReceipts.Json

/-!
# Tokens of a JSON text

A JSON text is cut into brackets, commas, colons and scalars. Strings may escape lone surrogates;
a number with a point or an exponent is a floating-point number; the names `NaN`, `Infinity` and
`-Infinity` stand for floating-point numbers too. Every token takes at least one symbol, which is
why the cutting ends; it may end early, where no token begins.
-/

namespace CircuitReceipts

/-- A lexical unit of a JSON text. -/
inductive Token where
  | openBracket
  | closeBracket
  | openBrace
  | closeBrace
  | comma
  | colon
  | scalar (j : Json)
deriving Inhabited

namespace Token

def unit? (a b c d : Symbol) : Option Nat := do
  let a ← Bytes.hexDigit? a
  let b ← Bytes.hexDigit? b
  let c ← Bytes.hexDigit? c
  let d ← Bytes.hexDigit? d
  return ((a * 16 + b) * 16 + c) * 16 + d

/-- The symbol that an escaped unit below U+10000 stands for. -/
def ofUnit (n : Nat) : Symbol :=
  (Symbol.ofPoint? n).getD (.char '\uFFFD')

def ofPair (high low : Nat) : Symbol :=
  ofUnit (0x10000 + (high - 0xD800) * 0x400 + (low - 0xDC00))

def isHigh (n : Nat) : Bool := 0xD800 ≤ n && n < 0xDC00

def isLow (n : Nat) : Bool := 0xDC00 ≤ n && n < 0xE000

def letter? : Symbol → Option Symbol
  | .char '"' => some (.char '"')
  | .char '\\' => some (.char '\\')
  | .char '/' => some (.char '/')
  | .char 'b' => some (.char '\x08')
  | .char 'f' => some (.char '\x0c')
  | .char 'n' => some (.char '\n')
  | .char 'r' => some (.char '\r')
  | .char 't' => some (.char '\t')
  | _ => none

/-- The symbol of an escaped high surrogate that turned out to have no partner. -/
def alone (high : Option Nat) : Text :=
  (high.map ofUnit).toList

/-- The rest of a string, up to the closing quote, and the text after it. An escaped high surrogate
read just before is held in `high`: it makes one symbol with an escaped low surrogate, and stands
alone before anything else. -/
def stringFrom? (high : Option Nat) : Text → Option (Text × Text)
  | [] => none
  | .char '"' :: rest => some (alone high, rest)
  | .char '\\' :: .char 'u' :: a :: b :: c :: d :: rest =>
    match unit? a b c d with
    | none => none
    | some n =>
      match high with
      | some h =>
        if isLow n then (stringFrom? none rest).map fun r => (ofPair h n :: r.1, r.2)
        else if isHigh n then (stringFrom? (some n) rest).map fun r => (ofUnit h :: r.1, r.2)
        else (stringFrom? none rest).map fun r => (ofUnit h :: ofUnit n :: r.1, r.2)
      | none =>
        if isHigh n then stringFrom? (some n) rest
        else (stringFrom? none rest).map fun r => (ofUnit n :: r.1, r.2)
  | .char '\\' :: c :: rest =>
    match letter? c with
    | none => none
    | some s => (stringFrom? none rest).map fun r => (alone high ++ s :: r.1, r.2)
  | s :: rest =>
    if s.point < 0x20 then none
    else (stringFrom? none rest).map fun r => (alone high ++ s :: r.1, r.2)

/-- The rest of a string after its opening quote: the symbols up to the closing quote and the text
after it. -/
def string? (t : Text) : Option (Text × Text) :=
  stringFrom? none t

/-- The whole part of a number: a zero, or digits that do not begin with one. -/
def whole? : Text → Option (Text × Text)
  | .char '0' :: rest => some ([.char '0'], rest)
  | t =>
    let ds := t.takeWhile Binary64.isDigit
    if ds.isEmpty then none else some (ds, t.dropWhile Binary64.isDigit)

/-- The fraction of a number, if a point and a digit follow. -/
def fraction? : Text → Option (Text × Text)
  | .char '.' :: rest =>
    let ds := rest.takeWhile Binary64.isDigit
    if ds.isEmpty then none else some (ds, rest.dropWhile Binary64.isDigit)
  | _ => none

/-- The digits of an exponent, after its sign. -/
def exponentDigits? (negative : Bool) (t : Text) : Option (Int × Text) :=
  let ds := t.takeWhile Binary64.isDigit
  if ds.isEmpty then none
  else
    let n : Int := Binary64.digitsValue ds
    some (if negative then -n else n, t.dropWhile Binary64.isDigit)

def signedExponent? : Text → Option (Int × Text)
  | .char '-' :: t => exponentDigits? true t
  | .char '+' :: t => exponentDigits? false t
  | t => exponentDigits? false t

/-- The exponent of a number, if one follows. -/
def exponent? : Text → Option (Int × Text)
  | .char 'e' :: t => signedExponent? t
  | .char 'E' :: t => signedExponent? t
  | _ => none

def number? (negative : Bool) (t : Text) : Option (Json × Text) :=
  match whole? t with
  | none => none
  | some (whole, rest) =>
    match fraction? rest with
    | some (fraction, rest) =>
      match exponent? rest with
      | some (e, rest) => some (.float (Binary64.ofParts negative whole fraction e), rest)
      | none => some (.float (Binary64.ofParts negative whole fraction 0), rest)
    | none =>
      match exponent? rest with
      | some (e, rest) => some (.float (Binary64.ofParts negative whole [] e), rest)
      | none =>
        let n : Int := Binary64.digitsValue whole
        some (.int (if negative then -n else n), rest)

def names : List (Text × Json) :=
  [("null", .null), ("true", .bool true), ("false", .bool false), ("NaN", .float .nan),
    ("Infinity", .float (.infinite false)), ("-Infinity", .float (.infinite true))]

/-- The value whose name the text begins with. -/
def named? (t : Text) : Option (Json × Text) :=
  names.findSome? fun (name, j) =>
    if name.isPrefixOf t then some (j, t.drop name.length) else none

def scalar? (t : Text) : Option (Json × Text) :=
  match t with
  | .char '"' :: rest => (string? rest).map fun (s, rest) => (.str s, rest)
  | .char '-' :: rest =>
    match number? true rest with
    | some r => some r
    | none => named? t
  | _ =>
    match number? false t with
    | some r => some r
    | none => named? t

def first? (t : Text) : Option (Token × Text) :=
  match t with
  | .char '[' :: rest => some (openBracket, rest)
  | .char ']' :: rest => some (closeBracket, rest)
  | .char '{' :: rest => some (openBrace, rest)
  | .char '}' :: rest => some (closeBrace, rest)
  | .char ',' :: rest => some (comma, rest)
  | .char ':' :: rest => some (colon, rest)
  | _ => (scalar? t).map fun (j, rest) => (scalar j, rest)

theorem stringFrom?_length {high : Option Nat} {t s rest : List Symbol}
    (h : stringFrom? high t = some (s, rest)) : rest.length < t.length := by
  fun_induction stringFrom? high t generalizing s rest <;> (try simp only [List.length_cons]) <;>
    grind [Option.map_eq_some_iff]

theorem string?_length {t s rest : List Symbol} (h : string? t = some (s, rest)) :
    rest.length < t.length :=
  stringFrom?_length h

theorem length_dropWhile_le (p : Symbol → Bool) (t : List Symbol) :
    (t.dropWhile p).length ≤ t.length :=
  (List.dropWhile_suffix p).length_le

theorem length_dropWhile_lt {p : Symbol → Bool} {t : List Symbol}
    (h : (t.takeWhile p).isEmpty = false) :
    (t.dropWhile p).length < t.length := by
  cases t with
  | nil => simp at h
  | cons s t =>
    by_cases hs : p s
    · have := length_dropWhile_le p t
      simp [hs]
      omega
    · simp [hs] at h

theorem whole?_length {t w rest : List Symbol} (h : whole? t = some (w, rest)) :
    rest.length < t.length := by
  revert h
  fun_cases whole? t <;> intro h <;> grind [→ length_dropWhile_lt]

theorem fraction?_length {t f rest : List Symbol} (h : fraction? t = some (f, rest)) :
    rest.length < t.length := by
  revert h
  fun_cases fraction? t <;> intro h <;> grind [→ length_dropWhile_lt]

theorem exponentDigits?_length {negative : Bool} {t rest : List Symbol} {e : Int}
    (h : exponentDigits? negative t = some (e, rest)) : rest.length < t.length := by
  revert h
  fun_cases exponentDigits? negative t <;> intro h <;> grind [→ length_dropWhile_lt]

theorem signedExponent?_length {t rest : List Symbol} {e : Int}
    (h : signedExponent? t = some (e, rest)) :
    rest.length < t.length := by
  revert h
  fun_cases signedExponent? t <;> intro h <;> grind [→ exponentDigits?_length]

theorem exponent?_length {t rest : List Symbol} {e : Int} (h : exponent? t = some (e, rest)) :
    rest.length < t.length := by
  revert h
  fun_cases exponent? t <;> intro h <;> grind [→ signedExponent?_length]

theorem number?_length {negative : Bool} {t rest : List Symbol} {j : Json}
    (h : number? negative t = some (j, rest)) : rest.length < t.length := by
  revert h
  fun_cases number? negative t <;> intro h <;>
    grind [→ whole?_length, → fraction?_length, → exponent?_length]

theorem named?_length {t rest : List Symbol} {j : Json} (h : named? t = some (j, rest)) :
    rest.length < t.length := by
  obtain ⟨⟨name, k⟩, hm, hk⟩ := List.exists_of_findSome?_eq_some h
  simp only [Option.ite_none_right_eq_some, Option.some.injEq, Prod.mk.injEq] at hk
  obtain ⟨hp, -, rfl⟩ := hk
  have hle : name.length ≤ t.length := (List.isPrefixOf_iff_prefix.1 hp).length_le
  have hpos : 0 < name.length := by
    have : ∀ m ∈ names, 0 < m.1.length := by decide
    exact this _ hm
  simp
  omega

theorem scalar?_length {t rest : List Symbol} {j : Json} (h : scalar? t = some (j, rest)) :
    rest.length < t.length := by
  revert h
  fun_cases scalar? t <;> intro h <;>
    grind [Option.map_eq_some_iff, → string?_length, → number?_length, → named?_length]

theorem first?_length {t rest : List Symbol} {k : Token} (h : first? t = some (k, rest)) :
    rest.length < t.length := by
  revert h
  fun_cases first? t <;> intro h <;> grind [Option.map_eq_some_iff, → scalar?_length]

/-- Whether a symbol may stand between tokens: space, tab, line feed or carriage return. -/
def isGap (s : Symbol) : Bool :=
  s == .char ' ' || s == .char '\t' || s == .char '\n' || s == .char '\r'

/-- The tokens of a text, and whether they are all of it. -/
def all (t : Text) : List Token × Bool :=
  match t with
  | [] => ([], true)
  | s :: rest =>
    if isGap s then all rest
    else
      match _taken : first? (s :: rest) with
      | none => ([], false)
      | some (k, rest') =>
        let (ks, whole) := all rest'
        (k :: ks, whole)
termination_by t.length
decreasing_by
  · simp
  · exact first?_length ‹_›

end Token

end CircuitReceipts
