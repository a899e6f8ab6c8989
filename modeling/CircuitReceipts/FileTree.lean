import CircuitReceipts.FileTree.Name
import CircuitReceipts.FileTree.Path
import CircuitReceipts.Table

/-!
# File trees

Files and directories as a value, so that what reads and writes them is a function. A node stands
at a location, the names on the way to it from where relative paths begin or from the root. Walking
along a path looks every name up in a directory.
-/

namespace CircuitReceipts

/-- Why a file cannot be read or written. -/
inductive FileError where
  | missing
  | notADirectory
  | isADirectory
  | alreadyExists
  | nameTooLong
  /-- A zero character in a path. -/
  | zeroInPath
  /-- A surrogate in a path that stands for no byte. -/
  | unencodable
deriving DecidableEq, Inhabited

/-- Whether an error is about the files there are, and not about the path itself. -/
def FileError.isAboutFiles : FileError → Bool
  | zeroInPath | unencodable => false
  | _ => true

/-- What stands at a location. -/
inductive FileNode where
  | file (contents : Bytes)
  | directory
deriving DecidableEq, Inhabited

/-- The names on the way to a node, as they are listed. -/
abbrev Location := List Text

/-- Files and directories under their locations. -/
structure FileTree where
  nodes : Table Location FileNode
deriving Inhabited

namespace FileTree

/-- The tree with nothing but the directories where paths begin. -/
def empty : FileTree := ⟨[]⟩

def top : Location := [Text.ofString "/"]

/-- Where a path with the given root begins. -/
def start (root : Text) : Location :=
  if root.isEmpty then [] else top

def node? (t : FileTree) (l : Location) : Option FileNode :=
  if l.isEmpty || l = top then some .directory else Table.get? l t.nodes

def above (l : Location) : Location :=
  if l = top then top else l.dropLast

/-- The greatest number of bytes of a name. -/
def maxNameBytes : Nat := 255

/-- The greatest number of bytes of a path. -/
def maxPathBytes : Nat := 4095

/-- The number of bytes of a symbol in a name; a surrogate stands for one byte. -/
def symbolSize : Symbol → Nat
  | .surrogate _ => 1
  | s => (Encoding.symbolBytes s).length

def nameSize (name : Text) : Nat :=
  name.foldl (fun n s => n + symbolSize s) 0

/-- Refuses written paths that no file can have. A surrogate from U+DC80 to U+DCFF stands for a
byte. -/
def checkPath (path : Text) : Except FileError Unit := do
  let refused (s : Symbol) : Bool :=
    match s with
    | .surrogate k => !(0x480 ≤ k.val && k.val < 0x500)
    | .char _ => false
  if path.any refused then throw .unencodable
  if path.contains (.char '\x00') then throw .zeroInPath
  if maxPathBytes < nameSize path then throw .nameTooLong

/-- Follows one name from a location, which has to be a directory. -/
def step (t : FileTree) (l : Location) (name : Text) : Except FileError Location :=
  match t.node? l with
  | none => .error .missing
  | some (.file _) => .error .notADirectory
  | some .directory =>
    if Path.isSame name then .ok l
    else if Path.isAbove name then .ok (above l)
    else if maxNameBytes < nameSize name then .error .nameTooLong
    else .ok (l ++ [listed name])

def locate (t : FileTree) (l : Location) (names : List Text) : Except FileError Location :=
  names.foldlM t.step l

def find (t : FileTree) (p : Path) : Except FileError Location := do
  checkPath p.written
  t.locate (start p.root) p.names

/-- The contents of the file at a location. -/
def contents (t : FileTree) (l : Location) : Except FileError Bytes :=
  match t.node? l with
  | none => .error .missing
  | some .directory => .error .isADirectory
  | some (.file b) => .ok b

/-- The contents of the file at a path. -/
def read (t : FileTree) (p : Path) : Except FileError Bytes := do
  t.contents (← t.find p)

/-- The contents of the file that a text names. Unlike in a path, a name that stands for nothing
still asks for a directory, so a slash after the name of a file is refused. -/
def readNamed (t : FileTree) (name : Text) : Except FileError Bytes := do
  checkPath name
  if name.isEmpty then throw .missing
  t.contents (← t.locate (start (Path.rootOf name)) (name.splitOn (.char '/')))

/-- Whether a path names a directory. One that is too long, or has a name that is too long, cannot
be asked about. -/
def isDirectory (t : FileTree) (p : Path) : Except FileError Bool :=
  match t.find p with
  | .ok l => .ok (t.node? l = some .directory)
  | .error .nameTooLong => .error .nameTooLong
  | .error _ => .ok false

/-- Makes the directories along names from a location on. -/
def makeFrom (t : FileTree) (l : Location) : List Text → Except FileError FileTree
  | [] => .ok t
  | name :: rest => do
    let next ← t.step l name
    match t.node? next with
    | some .directory => t.makeFrom next rest
    | some (.file _) => throw (if rest.isEmpty then .alreadyExists else .notADirectory)
    | none => makeFrom ⟨Table.put next .directory t.nodes⟩ next rest

/-- The tree with a directory made at a path, and all directories on the way to it. -/
def makeDirectory (t : FileTree) (p : Path) : Except FileError FileTree := do
  checkPath p.written
  t.makeFrom (start p.root) p.names

/-- The tree with a file written at a path, in a directory that is there. -/
def write (t : FileTree) (p : Path) (contents : Bytes) : Except FileError FileTree := do
  let l ← t.find p
  match t.node? l with
  | some .directory => throw .isADirectory
  | _ => return ⟨Table.put l (.file contents) t.nodes⟩

/-- The files below a directory, by the names on the way to them. -/
def files (t : FileTree) (p : Path) : List (Text × Bytes) :=
  match t.find p with
  | .error _ => []
  | .ok l =>
    t.nodes.filterMap fun (place, node) =>
      match node with
      | .file b =>
        if l.isPrefixOf place then some (Text.join "/" (place.drop l.length), b) else none
      | .directory => none

end FileTree

end CircuitReceipts
