import CircuitReceipts.Binary64
import CircuitReceipts.Table
import CircuitReceipts.Text

/-!
# JSON documents

The values of JSON, with whole numbers kept apart from numbers written with a point or an
exponent. An object is a table of its members.
-/

namespace CircuitReceipts

/-- A JSON value. -/
inductive Json where
  | null
  | bool (b : Bool)
  | int (n : Int)
  | float (x : Binary64)
  | str (t : Text)
  | arr (items : List Json)
  | obj (members : List (Text × Json))
deriving Inhabited

namespace Json

/-- The value of a key, if the document is an object that has it. -/
def get? (key : Text) : Json → Option Json
  | obj members => Table.get? key members
  | _ => none

/-- The whole number that a value counts as: an integer itself, and a boolean as one or zero. -/
def integer? : Json → Option Int
  | int n => some n
  | bool b => some (if b then 1 else 0)
  | _ => none

def text? : Json → Option Text
  | str t => some t
  | _ => none

def items? : Json → Option (List Json)
  | arr items => some items
  | _ => none

/-- What a walk over a value meets, one after another: the items of an array, the characters of a
string, the keys of an object. -/
def elements? : Json → Option (List Json)
  | arr items => some items
  | str t => some (t.map fun s => str [s])
  | obj members => some (members.map fun m => str m.1)
  | _ => none

end Json

end CircuitReceipts
