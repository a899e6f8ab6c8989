import CircuitReceipts.Session.Row

/-!
# Sessions

The record of one run of a circuit. A run succeeds, stops itself, or is stopped by the engine for
exceeding a limit; the trace holds a row for each instruction executed until then.
-/

namespace CircuitReceipts

/-- How a run ended, without its number. -/
inductive ExitKind where
  | halted
  | sessionLimit
  | fault
deriving DecidableEq, Inhabited

def ExitKind.name : ExitKind → Text
  | halted => "Halted"
  | sessionLimit => "SessionLimit"
  | fault => "Fault"

/-- How a run ended; the number says with which code a circuit halted. -/
structure ExitCode where
  kind : ExitKind
  userCode : Int
deriving DecidableEq, Inhabited

namespace ExitCode

/-- The end of a circuit that halted with a code. -/
def halted (code : Int) : ExitCode := ⟨.halted, code⟩

def isSuccess (e : ExitCode) : Bool :=
  e.kind == .halted && e.userCode == 0

def written (e : ExitCode) : Text :=
  if e.kind = .halted then "Halted(" ++ Numeral.decimal e.userCode ++ ")" else e.kind.name

/-- The numbers that the written form shows. -/
def numbers (e : ExitCode) : List Int :=
  if e.kind = .halted then [e.userCode] else []

theorem isSuccess_iff {e : ExitCode} : e.isSuccess = true ↔ e = halted 0 := by
  cases e with
  | mk kind code => simp [isSuccess, halted]

end ExitCode

/-- The exit code of a circuit whose input cannot be read. -/
def exitInputError : Int := 1

/-- The exit code of a circuit that meets a number without an inverse. -/
def exitNotInvertible : Int := 2

/-- The exit code of a circuit that reduces modulo zero. -/
def exitZeroModulus : Int := 3

/-- The exit code of a circuit whose difference would be negative. -/
def exitUnderflow : Int := 4

/-- Why a circuit stops itself. -/
inductive Halt where
  | unreadableInput
  | noInverse (lhs rhs : Nat)
  | zeroModulus
  | underflow
  /-- The circuit asks for it. -/
  | asked (code : Int)
deriving DecidableEq, Inhabited

namespace Halt

def code : Halt → Int
  | unreadableInput => exitInputError
  | noInverse _ _ => exitNotInvertible
  | zeroModulus => exitZeroModulus
  | underflow => exitUnderflow
  | asked code => code

/-- The numbers that the reason shows, apart from positions and codes. -/
def numbers : Halt → List Int
  | noInverse lhs rhs => [(lhs : Int), (rhs : Int)]
  | _ => []

end Halt

/-- Why the engine stopped a run. -/
inductive Fault where
  | sessionLimit (limit : Int)
  | registerSize (bits : Nat) (pc : Nat) (limit : Int)
  /-- A reason that the engine does not give, as a record may hold that no run has left. -/
  | other (text : Text)
deriving DecidableEq, Inhabited

namespace Fault

/-- The reason of a record that names none. -/
def unknown : Fault := .other "unknown fault"

def message : Fault → Text
  | sessionLimit n => "Session limit of " ++ Numeral.decimal n ++ " cycles exceeded"
  | registerSize bits pc limit =>
    s!"Register value of {bits} bits at pc {pc} exceeds limit of " ++ Numeral.decimal limit
  | other text => text

/-- The numbers that the message shows, apart from positions and numbers of bits. -/
def numbers : Fault → List Int
  | sessionLimit limit => [limit]
  | registerSize _ _ limit => [limit]
  | other _ => []

/-- The exit code of a run stopped by a fault. -/
def exitCode : Fault → ExitCode
  | sessionLimit _ => ⟨.sessionLimit, 0⟩
  | _ => ⟨.fault, 0⟩

end Fault

/-- The three ways a run can end. -/
inductive Ending where
  | success
  | abnormalHalt
  | fault (cause : Fault)
deriving DecidableEq, Inhabited

/-- The record of a run. -/
structure Session where
  ending : Ending
  imageId : Text
  trace : List Row
  journal : Bytes
  exitCode : ExitCode
deriving Inhabited

namespace Session

def userCycles (s : Session) : Nat :=
  s.trace.length

def success (imageId : Text) (trace : List Row) (journal : Bytes) : Session :=
  ⟨.success, imageId, trace, journal, .halted 0⟩

/-- A run that halted with a code other than zero. -/
def abnormalHalt (imageId : Text) (trace : List Row) (code : Int) (journal : Bytes) : Session :=
  ⟨.abnormalHalt, imageId, trace, journal, .halted code⟩

/-- A run stopped by the engine, which has no journal. -/
def fault (imageId : Text) (trace : List Row) (cause : Fault) : Session :=
  ⟨.fault cause, imageId, trace, [], cause.exitCode⟩

end Session

end CircuitReceipts
