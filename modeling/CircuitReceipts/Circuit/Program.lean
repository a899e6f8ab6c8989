import CircuitReceipts.Circuit.Instruction
import CircuitReceipts.Text.Quoted

/-!
# Programs

A program is a number of registers and a straight line of instructions. A valid program has between
one and 64 registers, names only registers it has, and halts at its last instruction and nowhere
else.
-/

namespace CircuitReceipts

/-- A circuit program. -/
structure Program where
  registers : Int
  instructions : Array Instruction
deriving DecidableEq, Inhabited

/-- Why an artifact is no program, or a program is not valid. -/
inductive LoadError where
  | badMagic (got : Bytes)
  | truncated (bytes : Nat)
  | unsupportedVersion (got : Nat)
  | wrongLength (declared : Nat) (words : Nat)
  | invalidOpcode (op : Nat) (pc : Nat)
  | registerCount (got : Int)
  | empty
  | noFinalHalt
  | registerOutOfRange (register : Int) (pc : Nat) (instruction : Instruction)
  | earlyHalt (pc : Nat)
deriving DecidableEq, Inhabited

namespace Program

def magic : Bytes := Bytes.ofAscii "BIG2"

def version : Nat := 1

def maxRegisters : Nat := 64

def size (p : Program) : Nat :=
  p.instructions.size

/-- The refusal of the first register of an instruction that the program does not have. -/
def checkRegisters (p : Program) (pc : Nat) (i : Instruction) : Except LoadError Unit :=
  match i.registers.find? (p.registers ≤ ·) with
  | some r => .error (.registerOutOfRange r pc i)
  | none => .ok ()

def checkFrom (p : Program) (pc : Nat) : List Instruction → Except LoadError Unit
  | [] => .ok ()
  | i :: rest => do
    p.checkRegisters pc i
    if i.op = .halt ∧ !rest.isEmpty then throw (.earlyHalt pc)
    p.checkFrom (pc + 1) rest

def validate (p : Program) : Except LoadError Unit := do
  if p.registers < 1 ∨ (maxRegisters : Int) < p.registers then throw (.registerCount p.registers)
  match p.instructions.back? with
  | none => throw .empty
  | some i => if i.op ≠ .halt then throw .noFinalHalt
  p.checkFrom 0 p.instructions.toList

end Program

def LoadError.message : LoadError → Text
  | badMagic got =>
    "Invalid magic: expected " ++ Program.magic.quoted ++ ", got " ++ got.quoted
  | truncated n => s!"Truncated artifact: {n} bytes"
  | unsupportedVersion v => s!"Unsupported version: expected 1, got {v}"
  | wrongLength n words => s!"Artifact declares {n} instructions but holds {words} words"
  | invalidOpcode op pc => s!"Invalid opcode {op} at pc {pc}"
  | registerCount n => "Register count must be in [1, 64], got " ++ Numeral.decimal n
  | empty => "Empty program"
  | noFinalHalt => "Program must end with HALT"
  | registerOutOfRange r pc i =>
    "Register r" ++ Numeral.decimal r ++ s!" out of range at pc {pc} (" ++ i.written ++ ")"
  | earlyHalt pc => s!"HALT before end of program at pc {pc}"

end CircuitReceipts
