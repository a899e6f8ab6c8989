import CircuitReceipts.CommandLine

/-!
# The program

Fetches the files that a command reads, carries the command out, and puts the files it wrote, its
output and its status in place.
-/

namespace CircuitReceipts

namespace Terminal

def usage : String :=
  "usage: circuit-receipts list [-v]\n" ++
  "       circuit-receipts run [-v] [--expect HEX ...] [--no-prove] [--opts OPTS]\n" ++
  "                            [--manifest PATH] [--concurrent] OPERATION HEX ...\n" ++
  "       circuit-receipts export [-v] DIRECTORY"

/-- The tree with what is found at a path. -/
def fetch (t : FileTree) (p : Path) : IO FileTree := do
  let place := (← IO.currentDir) / p.written.toDisplay
  let known (r : Except FileError FileTree) : FileTree := r.toOption.getD t
  if ← place.isDir then return known (t.makeDirectory p)
  match ← (IO.FS.readBinFile place).toBaseIO with
  | .ok contents =>
    return known do (← t.makeDirectory p.parent).write p contents.toList
  | .error _ => return t

/-- The tree with what a command reads: first what its arguments name, then what a manifest found
there names. -/
def fetchAll (c : Command) : IO FileTree := do
  let t ← (CommandLine.reads .lifted .empty c).foldlM fetch .empty
  let t ← (CommandLine.reads .lifted t c).foldlM fetch t
  (CommandLine.reads .lifted t c).foldlM fetch t

/-- Puts in place what stands in one tree and did not stand in another. -/
def store (before after : FileTree) : IO Unit := do
  for (l, node) in after.nodes do
    if before.node? l ≠ some node then
      let place := (← IO.currentDir) / (Text.join "/" l).toDisplay
      match node with
      | .directory => IO.FS.createDirAll place
      | .file contents => IO.FS.writeBinFile place (ByteArray.mk contents.toArray)

/-- Carries out a command, and answers with its status. -/
def carryOut (c : Command) (args : List Text) : IO UInt32 := do
  let t ← fetchAll c
  match CommandLine.main .lifted t args with
  | .ok o =>
    store t o.files
    for line in o.logged do
      IO.eprintln line.toDisplay
    IO.print o.out.toDisplay
    unless o.err.isEmpty do
      IO.eprintln o.err.toDisplay
    return UInt32.ofNat o.status
  | .error (.stop _) =>
    IO.eprintln usage
    return 2
  | .error (.failure f) =>
    IO.eprintln ((f.message?.getD "unusable operands, options or manifest").toDisplay)
    return 1
  | .error (.file _) =>
    IO.eprintln "cannot write the artifacts"
    return 1

end Terminal

end CircuitReceipts

open CircuitReceipts in
/-- Reads the arguments and carries out the command. -/
def main (args : List String) : IO UInt32 := do
  let args := args.map Text.ofString
  match Command.parse args with
  | .ok c => Terminal.carryOut c args
  | .error .help =>
    IO.println Terminal.usage
    return 0
  | .error .misfit =>
    IO.eprintln Terminal.usage
    return 2
