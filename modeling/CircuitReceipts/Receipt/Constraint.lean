import CircuitReceipts.Circuit.Dataflow
import CircuitReceipts.Session.Row

/-!
# Row constraints

What a row of a trace has to satisfy on its own: it repeats its instruction, and its values are
related as the instruction says. What it has to satisfy among the other rows: the register values
it consumed are those last written. Both are checked without running anything.
-/

namespace CircuitReceipts

namespace Row

/-- Whether the values of a row are related as an operation code with the constant `b` says. -/
def satisfies (r : Row) (op : Opcode) (b : Int) : Bool :=
  match op with
  | .read | .commit => r.lhs = 0 ∧ r.rhs = 0
  | .const => r.lhs = 0 ∧ r.rhs = 0 ∧ r.value = b
  | .halt => r.lhs = 0 ∧ r.rhs = 0 ∧ r.value = 0
  | .add => r.value = r.lhs + r.rhs
  | .sub => r.rhs ≤ r.lhs ∧ r.value = r.lhs - r.rhs
  | .mul => r.value = r.lhs * r.rhs
  | .mod => r.rhs ≠ 0 ∧ r.value = r.lhs.fmod r.rhs
  | .inv => r.rhs ≠ 0 ∧ r.value < r.rhs ∧ (r.lhs * r.value).fmod r.rhs = (1 : Int).fmod r.rhs

def repeats (r : Row) (i : Instruction) : Bool :=
  r.opcode = i.op.number ∧ r.a = i.a ∧ r.b = i.b ∧ r.c = i.c

/-- Whether a row executes an instruction correctly, taken on its own. -/
def executes (r : Row) (i : Instruction) : Bool :=
  r.repeats i && r.satisfies i.op i.b

/-- The register values a row consumed, in the order in which its instruction reads registers. -/
def consumed (r : Row) (op : Opcode) : List Int :=
  if op = .commit then [r.value] else [r.lhs, r.rhs]

/-- Whether a row appends its value to the journal. -/
def appends (r : Row) : Bool :=
  r.opcode = Opcode.commit.number

def endsWell (r : Row) : Bool :=
  r.opcode = Opcode.halt.number ∧ r.a = 0

theorem endsWell_iff {r : Row} :
    r.endsWell = true ↔ r.opcode = Opcode.halt.number ∧ r.a = 0 :=
  decide_eq_true_iff

end Row

namespace Code

/-- The instruction at a position; one below zero counts from the end. -/
def instructionAt (code : Code) (pc : Int) : Except Misuse Instruction :=
  let place := if pc < 0 then pc + code.size else pc
  match if 0 ≤ place then code[place.toNat]? else none with
  | some i => .ok i
  | none => .error .outOfRange

/-- The value of a register before `pc`, according to the rows: what the last writer wrote, and
zero if nothing wrote it. There is none if the row of the last writer is missing. -/
def defined? (code : Code) (rows : Int → Option Row) (pc : Int) (register : Int) : Option Int :=
  match code.lastWriter register pc.toNat with
  | none => some 0
  | some w => (rows w).map Row.value

/-- Whether a row at `pc` consumed the register values that the rows define. -/
def sourced (code : Code) (rows : Int → Option Row) (pc : Int) (r : Row) (i : Instruction) : Bool :=
  (i.reads.zip (r.consumed i.op)).all fun (register, seen) =>
    code.defined? rows pc register = some seen

/-- Whether a row consumed the register values that the rows define, for the instruction at
`pc`. -/
def checkSources (code : Code) (rows : Int → Option Row) (pc : Int) (r : Row) :
    Except Misuse Bool :=
  (code.instructionAt pc).map (code.sourced rows pc r)

theorem instructionAt_natCast (code : Code) (pc : Nat) :
    code.instructionAt pc =
      match code[pc]? with
      | some i => .ok i
      | none => .error .outOfRange := by
  simp [instructionAt, Int.not_lt.2 (Int.natCast_nonneg pc)]

end Code

end CircuitReceipts
