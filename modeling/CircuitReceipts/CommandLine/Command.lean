import CircuitReceipts.Circuit.Operation
import CircuitReceipts.CommandLine.Arguments

/-!
# Commands

The three commands, and how they are read from a list of arguments. The arguments before the name
of the command are read under a grammar with nothing but an explanation to ask for, and those after
it under the grammar of the command.
-/

namespace CircuitReceipts

open Arguments

/-- The arguments of a run. -/
structure RunArguments where
  operation : Text
  operands : List Text
  expected : Option (List Text)
  noProof : Bool
  /-- The name of prover options, or of a file with them, if a value is left for it. -/
  options : Option Text
  /-- Where to find the artifacts, if not among the built-in ones. -/
  manifest : Option Text
  concurrent : Bool
deriving DecidableEq, Inhabited

/-- A command. -/
inductive Command where
  | list (verbose : Bool)
  | run (verbose : Bool) (arguments : RunArguments)
  | exportTo (verbose : Bool) (directory : Text)
deriving DecidableEq, Inhabited

namespace Command

def help : OptionRule := ⟨"--help", some 'h', .help⟩

def verbose : OptionRule := ⟨"--verbose", some 'v', .switch⟩

def long (name : Text) (kind : OptionKind) : OptionRule := ⟨name, none, kind⟩

/-- The grammar of the arguments before the name of a command. -/
def outerGrammar : Grammar := ⟨[help], []⟩

def listGrammar : Grammar := ⟨[help, verbose], []⟩

def runGrammar : Grammar :=
  ⟨[help, verbose, long "--expect" .several, long "--no-prove" .switch, long "--opts" .single,
      long "--manifest" .single, long "--concurrent" .switch],
    [⟨false, some (Operation.all.map Operation.name)⟩, ⟨true, none⟩]⟩

def exportGrammar : Grammar := ⟨[help, verbose], [⟨false, none⟩]⟩

/-- The only value of an option, as last given. -/
def value? (p : Parsed) (name : Text) : Option Text :=
  (p.values? name).bind List.head?

/-- The name of prover options: a standard one, if the option is not given. -/
def optionsName? (p : Parsed) : Option Text :=
  if p.has "--opts" then value? p "--opts" else some "fast"

/-- The arguments of a run among what was read. -/
def runArguments (p : Parsed) : RunArguments :=
  ⟨(p.group 0).headD [], p.group 1, p.values? "--expect", p.has "--no-prove",
    optionsName? p, value? p "--manifest", p.has "--concurrent"⟩

/-- The command of a name and the arguments after it. -/
def named (name : Text) (args : List Text) : Except Stop Command := do
  if name = Text.ofString "list" then
    return .list ((← listGrammar.parse args).has verbose.long)
  else if name = Text.ofString "run" then
    let p ← runGrammar.parse args
    return .run (p.has verbose.long) (runArguments p)
  else if name = Text.ofString "export" then
    let p ← exportGrammar.parse args
    return .exportTo (p.has verbose.long) ((p.group 0).headD [])
  else throw .misfit

/-- Reads the arguments from the name of a command on; something unfitting may have been met before
it. -/
def fromName (misfits : Bool) : List Text → Except Stop Command
  | [] => .error .misfit
  | name :: args => do
    let c ← named name args
    if misfits then throw .misfit else return c

/-- Reads the arguments up to the name of a command, and the command. The two hyphens that end the
options stand for no command. -/
def parseFrom (misfits : Bool) : List Text → Except Stop Command
  | [] => .error .misfit
  | arg :: rest =>
    if arg = separator then .error .misfit
    else do
      match ← outerGrammar.mark arg with
      | .known o attached =>
        let _ ← State.option outerGrammar default o attached []
        parseFrom misfits rest
      | .unknown => parseFrom true rest
      | _ => fromName misfits (arg :: rest)

def parse (args : List Text) : Except Stop Command :=
  parseFrom false args

end Command

end CircuitReceipts
