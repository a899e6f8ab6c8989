import CircuitReceipts.Json.Encoding

/-!
# Names of files

A file has bytes for a name, so two texts name the same file if their bytes are the same. What a
text holds besides characters are surrogates, each of which stands for a byte. Listing a file gives
the text with as many characters as its bytes allow.
-/

namespace CircuitReceipts

namespace FileTree

/-- The bytes of a symbol in the name of a file: a surrogate stands for one that is not in UTF-8. -/
def symbolNameBytes : Symbol → Bytes
  | .surrogate k => [UInt8.ofNat k]
  | s => Encoding.symbolBytes s

def nameBytes (name : Text) : Bytes :=
  name.flatMap symbolNameBytes

/-- The character that bytes in UTF-8 begin with, and the number of its bytes. -/
def character? (b : Bytes) : Option (Symbol × Nat) :=
  [1, 2, 3, 4].findSome? fun size =>
    match Encoding.decodeUtf8? false (b.take size) with
    | some [s] => some (s, size)
    | _ => none

/-- The surrogate from U+DC80 on that stands for a byte with its highest bit set. -/
def strayByte (b : UInt8) : Symbol :=
  .surrogate ⟨0x400 + b.toNat, by have := b.toNat_lt; omega⟩

/-- The text of the bytes of a name, of which the first `skip` have been read. -/
def nameFrom : (skip : Nat) → Bytes → Text
  | _, [] => []
  | skip + 1, _ :: rest => nameFrom skip rest
  | 0, b :: rest =>
    -- the other bytes of the character come first in `rest`
    match character? (b :: rest) with
    | some (s, size) => s :: nameFrom (size - 1) rest
    | none => strayByte b :: nameFrom 0 rest

/-- The text under which a file with the given name is listed. -/
def listed (name : Text) : Text :=
  nameFrom 0 (nameBytes name)

end FileTree

end CircuitReceipts
