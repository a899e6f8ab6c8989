import CircuitReceipts.Codec.Hex
import CircuitReceipts.CommandLine.Command
import CircuitReceipts.Pipeline

/-!
# The command line

Carries out commands on a file tree: list the operations, run one and report on it, or write the
artifacts to a directory. What is answered is a status with the text on both channels. A reported
failure is status one; arguments that do not fit are status two.
-/

namespace CircuitReceipts

namespace CommandLine

/-- What a command prints and logs, and the files as it leaves them. -/
structure Output where
  status : Nat
  out : Text
  err : Text
  logged : List Text
  files : FileTree
deriving Inhabited

/-- Why a command has no output: its arguments do not fit, or it failed in a way that is not
reported. -/
inductive Abort where
  | stop (s : Arguments.Stop)
  | failure (f : Failure)
  | file (e : FileError)
deriving Inhabited

def misfit : Abort := .stop .misfit

def lines (ls : List Text) : Text :=
  ls.flatMap fun l => l ++ [.char '\n']

/-- The line on an operation in a list. -/
def listLine (op : Operation) : Text :=
  op.name.padRight 12 ++ s!" arity={op.arity}  image_id=" ++ op.artifact.imageId

/-- The value of hexadecimal texts, arranged in a shape. -/
def value (s : Shape) (texts : List Text) : Except Abort Value :=
  match texts.mapM ofHexText with
  | .error _ => .error misfit
  | .ok ns => (s.group ns).mapError fun _ => misfit

/-- The prover options of a name: one of two sets of standard options, or those in a file. A file
that cannot be read, or whose options are refused, does not fit. -/
def options (h : Host) (t : FileTree) (name : Text) : Except Abort ProverOptions :=
  if name = Text.ofString "fast" then .ok .fast
  else if name = Text.ofString "default" then .ok .standard
  else
    match t.readNamed name with
    | .error _ => .error misfit
    | .ok b =>
      match Json.ofFile h b with
      | .error .tooDeep => .error (.failure (.misuse .tooDeep))
      | .error _ => .error misfit
      | .ok j =>
        (ProverOptions.ofJson j).mapError fun
          | .misuse .notAnObject => .failure (.misuse .notAnObject)
          | _ => misfit

def registry (h : Host) (t : FileTree) (manifest : Option Text) : Except Failure Registry :=
  match manifest with
  | none => .ok .standard
  | some m =>
    if m.isEmpty then .ok .standard else (Registry.ofManifest h t (.ofText m)).mapError .manifest

/-- A value in hexadecimal, as it is printed. -/
def shown (v : Value) : Text :=
  match v.hexForm with
  | .ok w => w.display
  | .error _ => []

def reportLines (r : Report) : List Text :=
  [r.operation.name ++ ": " ++ shown r.value,
    Text.ofString "  exit code:   " ++ r.exitCode.written,
    Text.ofString s!"  user cycles: {r.userCycles}"] ++
    match r.proof with
    | none => []
    | some p =>
      [Text.ofString "  po2:         " ++ p.stats.po2.display,
        Text.ofString s!"  seal:        {p.receipt.evidence.length} bytes (verified)"]

/-- The output of a failure, if it is reported. -/
def failed (t : FileTree) (logged : List Text) (f : Failure) : Except Abort Output :=
  match f.isReported, f.message? with
  | true, some m => .ok ⟨1, [], "Error: " ++ m, logged, t⟩
  | _, _ => .error (.failure f)

def list (t : FileTree) : Output :=
  ⟨0, lines (Operation.all.map listLine), [], [], t⟩

/-- Runs an operation. The arguments are judged before anything is run. -/
def run (h : Host) (t : FileTree) (a : RunArguments) : Except Abort Output := do
  match Operation.ofName? a.operation with
  | none => throw misfit
  | some op =>
    let operands ← value op.inputShape a.operands
    let expected ← a.expected.mapM (value op.outputShape)
    let prover ←
      match a.noProof, a.options with
      | true, _ => pure none
      | false, some name => some <$> options h t name
      | false, none => throw misfit
    match registry h t a.manifest with
    | .error f => failed t [] f
    | .ok r =>
      let manner : Manner := if a.concurrent then .scheduled [] else .sequential
      let job : Job := ⟨op.name, operands, expected⟩
      let (result, o) := (Pipeline.verify ⟨h, r, .standard⟩ prover manner job).runFrom .empty
      match result with
      | .ok report => return ⟨0, lines (reportLines report), [], o.logged, t⟩
      | .error f => failed t o.logged f

def exportTo (t : FileTree) (directory : Text) : Except Abort Output := do
  let (t, path) ← (Registry.standard.exportTo t (.ofText directory)).mapError .file
  return ⟨0, lines ["Wrote manifest: " ++ path.written], [], [], t⟩

def carryOut (h : Host) (t : FileTree) (c : Command) : Except Abort Output :=
  match c with
  | .list _ => .ok (list t)
  | .run _ a => run h t a
  | .exportTo _ d => exportTo t d

/-- Whether a command asks for what is logged. -/
def isVerbose : Command → Bool
  | .list v => v
  | .run v _ => v
  | .exportTo v _ => v

/-- Carries out the command of a list of arguments. -/
def main (h : Host) (t : FileTree) (args : List Text) : Except Abort Output := do
  let c ← (Command.parse args).mapError .stop
  let output ← carryOut h t c
  return if isVerbose c then output else { output with logged := [] }

/-- The paths that a command reads, as far as the files are known: more of them may follow once the
manifest is there. -/
def reads (h : Host) (t : FileTree) : Command → List Path
  | .list _ => []
  | .exportTo _ d => [.ofText d]
  | .run _ a =>
    let files : List Path := if a.noProof then [] else a.options.toList.map .ofText
    match a.manifest with
    | none => files
    | some m =>
      let path := (Manifest.locate t (.ofText m)).toOption.getD (.ofText m)
      files ++ .ofText m :: path :: Manifest.blobPaths h t path

end CommandLine

end CircuitReceipts
