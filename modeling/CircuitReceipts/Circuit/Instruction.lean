import CircuitReceipts.Numeral

/-!
# Instructions

A circuit is a straight line of instructions over registers that hold natural numbers of any size.
An instruction has an operation code and three fields; which fields name registers, which registers
it reads and which it writes depends on the code. Fields are kept as written, whether or not an
artifact has room for them.
-/

namespace CircuitReceipts

/-- An operation code. -/
inductive Opcode where
  /-- `a` becomes the next integer of the input. -/
  | read
  /-- `a` becomes the number `b`. -/
  | const
  /-- `a` becomes `b + c`. -/
  | add
  /-- `a` becomes `b - c`; the run halts if that is negative. -/
  | sub
  /-- `a` becomes `b * c`. -/
  | mul
  /-- `a` becomes `b` modulo `c`; the run halts if `c` is zero. -/
  | mod
  /-- `a` becomes the inverse of `b` modulo `c`; the run halts if there is none. -/
  | inv
  /-- The integer in `a` is appended to the journal. -/
  | commit
  /-- The run ends with the exit code `a`. -/
  | halt
deriving DecidableEq, Inhabited

namespace Opcode

/-- All codes, in the order of their numbers. -/
def all : List Opcode := [read, const, add, sub, mul, mod, inv, commit, halt]

/-- The number of a code in an artifact. -/
def number : Opcode → Nat
  | read => 1
  | const => 2
  | add => 3
  | sub => 4
  | mul => 5
  | mod => 6
  | inv => 7
  | commit => 8
  | halt => 9

def ofNumber? (n : Int) : Option Opcode :=
  all.find? fun op => (op.number : Int) = n

def name : Opcode → Text
  | read => "READ"
  | const => "CONST"
  | add => "ADD"
  | sub => "SUB"
  | mul => "MUL"
  | mod => "MOD"
  | inv => "INV"
  | commit => "COMMIT"
  | halt => "HALT"

def ofName? (t : Text) : Option Opcode :=
  all.find? fun op => op.name = t

def isBinary : Opcode → Bool
  | add | sub | mul | mod | inv => true
  | _ => false

@[simp] theorem ofNumber?_number (op : Opcode) : ofNumber? op.number = some op := by
  cases op <;> decide

theorem eq_of_ofNumber? {n : Int} {op : Opcode} (h : ofNumber? n = some op) : n = op.number := by
  have := List.find?_some h
  simpa using (of_decide_eq_true this).symm

/-- The numbers of operation codes are those from one to nine. -/
theorem exists_ofNumber?_iff {n : Int} :
    (∃ op, ofNumber? n = some op) ↔ 1 ≤ n ∧ n ≤ 9 := by
  constructor
  · rintro ⟨op, hop⟩
    rw [eq_of_ofNumber? hop]
    cases op <;> decide
  · rintro ⟨hlow, hhigh⟩
    have h : ∀ k : Fin 9, (ofNumber? ((k : Nat) + 1)).isSome = true := by decide
    have hplace : ((n.toNat - 1 : Nat) : Int) + 1 = n := by omega
    rw [← Option.isSome_iff_exists, ← hplace]
    exact h ⟨n.toNat - 1, by omega⟩

end Opcode

/-- One instruction. -/
structure Instruction where
  op : Opcode
  a : Int
  b : Int
  c : Int
deriving DecidableEq, Inhabited

namespace Instruction

/-- The written form of an instruction in messages. -/
def written (i : Instruction) : Text :=
  i.op.name ++ " " ++ Numeral.decimal i.a ++ " " ++ Numeral.decimal i.b ++ " " ++
    Numeral.decimal i.c

/-- The registers an instruction names, in the order of its fields. -/
def registers (i : Instruction) : List Int :=
  match i.op with
  | .read | .const | .commit => [i.a]
  | .halt => []
  | _ => [i.a, i.b, i.c]

def reads (i : Instruction) : List Int :=
  if i.op.isBinary then [i.b, i.c] else if i.op = .commit then [i.a] else []

def writes (i : Instruction) : Option Int :=
  if i.op.isBinary ∨ i.op = .read ∨ i.op = .const then some i.a else none

end Instruction

end CircuitReceipts
