import CircuitReceipts.Circuit.Operation
import CircuitReceipts.Table

/-!
# Registries

A registry holds the artifact of each operation under its name. It is built once and only looked
up afterwards; another artifact under the same name shows in the image id.
-/

namespace CircuitReceipts

/-- Artifacts under their names. -/
structure Registry where
  artifacts : Table Text Artifact
deriving Inhabited

/-- An artifact put under another name than its own. -/
structure Misnamed where
  name : Text
  key : Text
deriving DecidableEq, Inhabited

/-- The text of the refusal of a misnamed artifact. -/
def Misnamed.message (e : Misnamed) : Text :=
  "Artifact " ++ e.name.quoted ++ " registered under " ++ e.key.quoted

/-- The text of a lookup that finds nothing. -/
def unknownOperationMessage (name : Text) : Text :=
  "Unknown operation: " ++ name.quoted

namespace Registry

/-- The registry of a list of artifacts with keys; a later equal key replaces the earlier one in
its place. Every artifact has to be under its own name. -/
def ofEntries (entries : List (Text × Artifact)) : Except Misnamed Registry :=
  let table := Table.ofEntries entries
  match table.find? fun e => e.2.name ≠ e.1 with
  | some (key, a) => .error ⟨a.name, key⟩
  | none => .ok ⟨table⟩

def standard : Registry :=
  ⟨Operation.all.map fun op => (op.name, op.artifact)⟩

def lookup? (r : Registry) (name : Text) : Option Artifact :=
  Table.get? name r.artifacts

def names (r : Registry) : List Text :=
  Table.keys r.artifacts

def size (r : Registry) : Nat :=
  r.artifacts.length

/-- The image id under each name, in order. -/
def imageIds (r : Registry) : List (Text × Text) :=
  r.artifacts.map fun e => (e.1, e.2.imageId)

end Registry

end CircuitReceipts
