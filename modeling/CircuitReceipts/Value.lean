import CircuitReceipts.Binary64.Decimal
import CircuitReceipts.Text.Quoted

/-!
# Values

What a caller may pass as operand or expected result: integers in nested tuples and lists, and the
other things that may be passed by mistake. Two values are alike when they are equal up to the
difference between tuples and lists, where a boolean counts as one or zero and a floating-point
number as the number it is.
-/

namespace CircuitReceipts

/-- A value as a caller passes it. -/
inductive Value where
  | int (n : Int)
  | bool (b : Bool)
  | float (x : Binary64)
  | none
  | text (t : Text)
  | tuple (items : List Value)
  | list (items : List Value)
deriving Inhabited

namespace Value

/-- The name of the kind of a value. -/
def kindName : Value → Text
  | int _ => "int"
  | bool _ => "bool"
  | float _ => "float"
  | none => "NoneType"
  | text _ => "str"
  | tuple _ => "tuple"
  | list _ => "list"

/-- Written members of a tuple between parentheses, a single one with a comma after it. -/
def writtenTuple (parts : List Text) : Text :=
  match parts with
  | [t] => .char '(' :: (t ++ ",)")
  | ts => .char '(' :: (Text.join ", " ts ++ [.char ')'])

def writtenList (parts : List Text) : Text :=
  .char '[' :: (Text.join ", " parts ++ [.char ']'])

mutual

/-- The written form of a value in messages. -/
def written : Value → Text
  | int n => Numeral.decimal n
  | bool true => "True"
  | bool false => "False"
  | float x => x.plain
  | none => "None"
  | text t => t.quoted
  | tuple items => writtenTuple (writtenEach items)
  | list items => writtenList (writtenEach items)

def writtenEach : List Value → List Text
  | [] => []
  | v :: vs => written v :: writtenEach vs

end

mutual

/-- The whole numbers in a value. -/
def numbers : Value → List Int
  | int n => [n]
  | tuple items => numbersEach items
  | list items => numbersEach items
  | _ => []

def numbersEach : List Value → List Int
  | [] => []
  | v :: vs => numbers v ++ numbersEach vs

end

/-- The value as it stands alone in a message: a text is itself, all else is in its written
form. -/
def display : Value → Text
  | text t => t
  | v => written v

/-- A number: whole, or floating-point. -/
inductive Number where
  | whole (n : Int)
  | floating (x : Binary64)

/-- The number a value is; a boolean counts as one or zero. -/
def number? : Value → Option Number
  | int n => some (.whole n)
  | bool b => some (.whole (if b then 1 else 0))
  | float x => some (.floating x)
  | _ => Option.none

/-- Whether two floating-point numbers are equal; zeros of both signs are. -/
def sameFloat (x y : Binary64) : Bool :=
  match x, y with
  | .nan, _ => false
  | .finite s m e, .finite t n f => (m == 0 && n == 0) || (s == t && m == n && e == f)
  | x, y => x == y

def Number.same : Number → Number → Bool
  | whole m, whole n => m == n
  | whole m, floating y => y.equalsInt m
  | floating x, whole n => x.equalsInt n
  | floating x, floating y => sameFloat x y

mutual

/-- Equality up to the difference between tuples and lists. -/
def alike : Value → Value → Bool
  | none, none => true
  | text s, text t => s == t
  | tuple xs, tuple ys => alikeEach xs ys
  | tuple xs, list ys => alikeEach xs ys
  | list xs, tuple ys => alikeEach xs ys
  | list xs, list ys => alikeEach xs ys
  | v, w =>
    match v.number?, w.number? with
    | some m, some n => m.same n
    | _, _ => false

/-- Two lists of values alike one by one. -/
def alikeEach : List Value → List Value → Bool
  | [], [] => true
  | v :: vs, w :: ws => alike v w && alikeEach vs ws
  | _, _ => false

end

end Value

end CircuitReceipts
