import CircuitReceipts.Host
import CircuitReceipts.Json.Lexer

/-!
# Reading JSON

The tokens of a document are read one by one by a machine that keeps the containers that are still
open. A finished value goes into the innermost open container, or is the document if none is open.
The host sets how many digits a whole number may have, and how many containers may be open at once.
-/

namespace CircuitReceipts

/-- The whole numbers that a token is read as. -/
@[simp] def Token.numbers : Token → List Int
  | scalar (.int n) => [n]
  | _ => []

namespace Json

/-- Why a text is not read as a document. -/
inductive Unreadable where
  | malformed
  /-- More containers are open at once than can be followed. -/
  | tooDeep
  /-- A whole number has more digits than can be read. -/
  | tooLong
deriving DecidableEq, Inhabited

/-- A container that is still open: an array with its items so far, the last first, or an object
with its members so far and the key whose value is to come. -/
inductive Frame where
  | array (items : List Json)
  | object (members : List (Text × Json)) (name : Text)

/-- What the reader expects next, with the open containers, the innermost first. -/
inductive Reader where
  /-- A value. -/
  | value (outer : List Frame)
  /-- A value or the end of the array that has just been opened. -/
  | firstItem (outer : List Frame)
  /-- A key or the end of the object that has just been opened. -/
  | firstKey (outer : List Frame)
  /-- A key of an object with the given members. -/
  | key (members : List (Text × Json)) (outer : List Frame)
  /-- The colon after a key. -/
  | colon (members : List (Text × Json)) (name : Text) (outer : List Frame)
  /-- A comma or the end of an array with the given items, the last first. -/
  | moreItems (items : List Json) (outer : List Frame)
  /-- A comma or the end of an object with the given members. -/
  | moreMembers (members : List (Text × Json)) (outer : List Frame)
  /-- Nothing. -/
  | finished (j : Json)

namespace Reader

def accept (j : Json) : List Frame → Reader
  | [] => finished j
  | .array items :: rest => moreItems (j :: items) rest
  | .object members name :: rest => moreMembers (Table.put name j members) rest

/-- The reader after a token that begins or is a value. -/
def begin? (outer : List Frame) : Token → Option Reader
  | .scalar j => some (accept j outer)
  | .openBracket => some (firstItem outer)
  | .openBrace => some (firstKey outer)
  | _ => none

def step? : Reader → Token → Option Reader
  | value outer, k => begin? outer k
  | firstItem outer, .closeBracket => some (accept (.arr []) outer)
  | firstItem outer, k => begin? (.array [] :: outer) k
  | firstKey outer, .closeBrace => some (accept (.obj []) outer)
  | firstKey outer, .scalar (.str t) => some (colon [] t outer)
  | key members outer, .scalar (.str t) => some (colon members t outer)
  | colon members t outer, .colon => some (value (.object members t :: outer))
  | moreItems items outer, .comma => some (value (.array items :: outer))
  | moreItems items outer, .closeBracket => some (accept (.arr items.reverse) outer)
  | moreMembers members outer, .comma => some (key members outer)
  | moreMembers members outer, .closeBrace => some (accept (.obj members) outer)
  | _, _ => none

def depth : Reader → Nat
  | value outer => outer.length
  | firstItem outer | firstKey outer => outer.length + 1
  | key _ outer | colon _ _ outer => outer.length + 1
  | moreItems _ outer | moreMembers _ outer => outer.length + 1
  | finished _ => 0

/-- The reader after one token, unless that is a number with too many digits or one container too
many. What does not fit where it stands is malformed, however long it is. -/
def advance (h : Host) (r : Reader) (k : Token) : Except Unreadable Reader :=
  match r.step? k with
  | none => .error .malformed
  | some r =>
    if ¬h.Tells k.numbers then .error .tooLong
    else if h.nesting < r.depth then .error .tooDeep
    else .ok r

def run (h : Host) (r : Reader) : List Token → Except Unreadable Reader
  | [] => .ok r
  | k :: ks =>
    match r.advance h k with
    | .error e => .error e
    | .ok r => run h r ks

end Reader

def read (h : Host) (t : Text) : Except Unreadable Json :=
  let (tokens, whole) := Token.all t
  match (Reader.value []).run h tokens with
  | .error e => .error e
  | .ok (.finished j) => if whole then .ok j else .error .malformed
  | .ok _ => .error .malformed

end Json

end CircuitReceipts
