import CircuitReceipts.Binary64.Decimal
import CircuitReceipts.Bytes
import CircuitReceipts.Json

/-!
# Writing JSON

Documents are written in ASCII: every other symbol of a string is escaped, one above U+FFFF as a
pair of surrogates. There are two layouts, one without any blanks and one with a line for each item
and member. Members stand in the order the object has them; `Json.sorted` puts them in the order of
their keys.
-/

namespace CircuitReceipts

namespace Json

def unitEscape (n : Nat) : Text :=
  "\\u" ++ hexDigits 4 n

/-- A symbol as it stands in a written string. -/
def escaped (s : Symbol) : Text :=
  let n := s.point
  if n = 34 then "\\\""
  else if n = 92 then "\\\\"
  else if n = 8 then "\\b"
  else if n = 12 then "\\f"
  else if n = 10 then "\\n"
  else if n = 13 then "\\r"
  else if n = 9 then "\\t"
  else if 0x20 ≤ n ∧ n < 0x7F then [s]
  else if n < 0x10000 then unitEscape n
  else unitEscape (0xD800 + (n - 0x10000) / 0x400) ++ unitEscape (0xDC00 + (n - 0x10000) % 0x400)

def writtenString (t : Text) : Text :=
  .char '"' :: (t.flatMap escaped ++ [.char '"'])

def writtenFloat : Binary64 → Text :=
  Binary64.written ⟨"NaN", "Infinity"⟩

def writtenScalar : Json → Text
  | null => "null"
  | bool true => "true"
  | bool false => "false"
  | int n => Numeral.decimal n
  | float x => writtenFloat x
  | str t => writtenString t
  | arr _ => []
  | obj _ => []

mutual

def compact : Json → Text
  | arr items => .char '[' :: (compactItems items ++ [.char ']'])
  | obj members => .char '{' :: (compactMembers members ++ [.char '}'])
  | j => writtenScalar j

def compactItems : List Json → Text
  | [] => []
  | [j] => compact j
  | j :: k :: rest => compact j ++ .char ',' :: compactItems (k :: rest)

def compactMembers : List (Text × Json) → Text
  | [] => []
  | [(key, j)] => writtenString key ++ .char ':' :: compact j
  | (key, j) :: m :: rest =>
    writtenString key ++ .char ':' :: (compact j ++ .char ',' :: compactMembers (m :: rest))

end

/-- The start of a line at a depth of nesting, two blanks for each level. -/
def newline (depth : Nat) : Text :=
  .char '\n' :: List.replicate (2 * depth) (.char ' ')

mutual

/-- The document with a line for each item and member, from the given depth of nesting. -/
def indentedFrom (depth : Nat) : Json → Text
  | arr [] => "[]"
  | arr items => .char '[' :: (indentedItems (depth + 1) items ++ newline depth ++ [.char ']'])
  | obj [] => [.char '{', .char '}']
  | obj members =>
    .char '{' :: (indentedMembers (depth + 1) members ++ newline depth ++ [.char '}'])
  | j => writtenScalar j

/-- Items, each on a line of its own. -/
def indentedItems (depth : Nat) : List Json → Text
  | [] => []
  | [j] => newline depth ++ indentedFrom depth j
  | j :: k :: rest =>
    newline depth ++ indentedFrom depth j ++ .char ',' :: indentedItems depth (k :: rest)

/-- Members, each on a line of its own. -/
def indentedMembers (depth : Nat) : List (Text × Json) → Text
  | [] => []
  | [(key, j)] => newline depth ++ writtenString key ++ ": " ++ indentedFrom depth j
  | (key, j) :: m :: rest =>
    newline depth ++ writtenString key ++ ": " ++ indentedFrom depth j ++
      .char ',' :: indentedMembers depth (m :: rest)

end

/-- The document with a line for each item and member. -/
def indented : Json → Text :=
  indentedFrom 0

/-- The object with the given members in the order of their keys. -/
def sorted (members : List (Text × Json)) : Json :=
  obj (members.mergeSort fun a b => !b.1.precedes a.1)

end Json

end CircuitReceipts
