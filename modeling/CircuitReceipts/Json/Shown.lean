import CircuitReceipts.Json
import CircuitReceipts.Value

/-!
# Document values in messages

How messages show a value that was found in a document. The form is that of operands, with an
object as its keys and values between braces.
-/

namespace CircuitReceipts

namespace Json

mutual

/-- The written form of a document value in messages. -/
def shown : Json → Text
  | null => Value.none.written
  | bool b => (Value.bool b).written
  | int n => Numeral.decimal n
  | float x => x.plain
  | str t => t.quoted
  | arr items => Value.writtenList (shownItems items)
  | obj members => .char '{' :: (Text.join ", " (shownMembers members) ++ [.char '}'])

def shownItems : List Json → List Text
  | [] => []
  | j :: js => shown j :: shownItems js

/-- The written forms of keys with their values. -/
def shownMembers : List (Text × Json) → List Text
  | [] => []
  | (key, j) :: rest => (key.quoted ++ ": " ++ shown j) :: shownMembers rest

end

/-- The value as it stands alone in a message: a string is its text, all else is in its written
form. -/
def display : Json → Text
  | str t => t
  | j => shown j

end Json

end CircuitReceipts
