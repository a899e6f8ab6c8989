import CircuitReceipts.Circuit.Artifact
import CircuitReceipts.Field
import CircuitReceipts.Value.Shape

/-!
# Operations

The six built-in operations: modular addition, subtraction, multiplication and inversion, and
addition and subtraction of pairs. Each has the shape of its operands and of its result, a circuit
that computes it, and reference semantics that say what the circuit should compute.
-/

namespace CircuitReceipts

/-- Why a reference has no result. -/
inductive ReferenceError where
  /-- The operands have another shape than the operation. -/
  | wrongShape (operation : Text) (expected : Shape)
  | pair (e : PairError)
  | misuse (m : Misuse)
deriving Inhabited

/-- The text of a reference error, where it has one. -/
def ReferenceError.message? : ReferenceError → Option Text
  | wrongShape name s => some (name ++ " expects operands shaped " ++ s.written)
  | pair e => e.message?
  | misuse _ => none

/-- A built-in operation. -/
inductive Operation where
  | modadd
  | modsub
  | modmul
  | modinv
  | extfieldadd
  | extfieldsub
deriving DecidableEq, Inhabited

namespace Operation

/-- The operations, in the order they are listed. -/
def all : List Operation := [modadd, modsub, modmul, modinv, extfieldadd, extfieldsub]

def name : Operation → Text
  | modadd => "modadd"
  | modsub => "modsub"
  | modmul => "modmul"
  | modinv => "modinv"
  | extfieldadd => "extfieldadd"
  | extfieldsub => "extfieldsub"

def ofName? (t : Text) : Option Operation :=
  all.find? fun op => op.name = t

def pair : Shape := .tuple [.scalar, .scalar]

def parts : Operation → List Shape
  | modadd | modsub | modmul => [.scalar, .scalar, .scalar]
  | modinv => [.scalar, .scalar]
  | extfieldadd | extfieldsub => [pair, pair, .scalar]

/-- The shape of the operands as one value. -/
def inputShape (op : Operation) : Shape :=
  .tuple op.parts

def outputShape : Operation → Shape
  | modadd | modsub | modmul | modinv => .scalar
  | extfieldadd | extfieldsub => pair

def arity (op : Operation) : Nat :=
  op.parts.length

/-- Whether the operands have the shape of the operation. -/
def checkOperands (op : Operation) (operands : Value) : Except ReferenceError Unit :=
  if operands.shape = op.inputShape then .ok () else .error (.wrongShape op.name op.inputShape)

def reference (op : Operation) : List Value → Except ReferenceError Value
  | [a, b] =>
    match op with
    | modinv => (a.inverse b).mapError .misuse
    | _ => .error (.misuse .wrongKind)
  | [a, b, m] =>
    match op with
    | modadd => (do (← a.add b).mod m : Except Misuse Value).mapError .misuse
    | modsub => (do (← a.sub b).mod m : Except Misuse Value).mapError .misuse
    | modmul => (do (← a.mul b).mod m : Except Misuse Value).mapError .misuse
    | modinv => .error (.misuse .wrongKind)
    | extfieldadd => (Pair.add a b m).mapError .pair
    | extfieldsub => (Pair.sub a b m).mapError .pair
  | _ => .error (.misuse .wrongKind)

def operandsOf : Value → List Value
  | .tuple items => items
  | .list items => items
  | v => [v]

/-- The result that operands of the right shape should give. -/
def expected (op : Operation) (operands : Value) : Except ReferenceError Value := do
  op.checkOperands operands
  op.reference (operandsOf operands)

/-- Instructions that read the first `count` registers from the input. -/
def readAll (count : Nat) : List Instruction :=
  (List.range count).map fun (r : Nat) => ⟨.read, r, 0, 0⟩

/-- Instructions that append registers to the journal, and the successful end. -/
def commitAll (registers : List Int) : List Instruction :=
  registers.map (⟨.commit, ·, 0, 0⟩) ++ [⟨.halt, 0, 0, 0⟩]

def registers : Operation → Int
  | modadd | modsub | modmul => 4
  | modinv => 3
  | extfieldadd | extfieldsub => 7

def results : Operation → List Int
  | modadd | modsub | modmul => [3]
  | modinv => [2]
  | extfieldadd | extfieldsub => [5, 6]

/-- The instructions between reading the operands and committing the result. A difference is
computed as `a mod m + m - b mod m`, which is never negative. -/
def body : Operation → List Instruction
  | modadd => [⟨.add, 3, 0, 1⟩, ⟨.mod, 3, 3, 2⟩]
  | modsub =>
    [⟨.mod, 0, 0, 2⟩, ⟨.mod, 1, 1, 2⟩, ⟨.add, 3, 0, 2⟩, ⟨.sub, 3, 3, 1⟩, ⟨.mod, 3, 3, 2⟩]
  | modmul => [⟨.mul, 3, 0, 1⟩, ⟨.mod, 3, 3, 2⟩]
  | modinv => [⟨.inv, 2, 0, 1⟩]
  | extfieldadd => [⟨.add, 5, 0, 2⟩, ⟨.mod, 5, 5, 4⟩, ⟨.add, 6, 1, 3⟩, ⟨.mod, 6, 6, 4⟩]
  | extfieldsub =>
    [⟨.mod, 0, 0, 4⟩, ⟨.mod, 1, 1, 4⟩, ⟨.mod, 2, 2, 4⟩, ⟨.mod, 3, 3, 4⟩,
      ⟨.add, 5, 0, 4⟩, ⟨.sub, 5, 5, 2⟩, ⟨.mod, 5, 5, 4⟩,
      ⟨.add, 6, 1, 4⟩, ⟨.sub, 6, 6, 3⟩, ⟨.mod, 6, 6, 4⟩]

/-- The circuit of an operation: it reads the operands, computes, and commits the result. -/
def program (op : Operation) : Program :=
  ⟨op.registers, (readAll op.inputShape.size ++ op.body ++ commitAll op.results).toArray⟩

def blob (op : Operation) : Bytes :=
  match op.program.assemble with
  | .ok b => b
  | .error _ => []

/-- The artifact of an operation, under its name. -/
def artifact (op : Operation) : Artifact :=
  ⟨op.name, op.blob⟩

/-- Every built-in circuit is a valid program whose fields fit in words. -/
theorem assemble_program (op : Operation) : op.program.assemble = .ok op.blob := by
  cases op <;> rfl

@[simp] theorem ofName?_name (op : Operation) : ofName? op.name = some op := by
  cases op <;> decide

end Operation

end CircuitReceipts
