import CircuitReceipts.Circuit.Artifact
import CircuitReceipts.Host
import CircuitReceipts.Json
import CircuitReceipts.Session
import CircuitReceipts.Value.Arithmetic

/-!
# The engine

Runs an artifact on an input byte string under two limits: how many instructions may run, and how
many bits a register may hold. The session depends on nothing else. An instruction either produces
a row or stops the run, by a halt of the circuit's own or by a fault. What stops a run is put into
words before there is a session, and a host that cannot write the numbers in it gives none.
-/

namespace CircuitReceipts

/-- The limits of a run. -/
structure Limits where
  session : Int
  registerBits : Int
deriving DecidableEq, Inhabited

namespace Limits

def standard : Limits := ⟨65536, 65536⟩

/-- The integer a setting stands for: a whole number or boolean itself, a floating-point number its
integer part, a text the numeral it holds. -/
def setting (h : Host) : Json → Except Misuse Int
  | .int n => .ok n
  | .bool b => .ok (if b then 1 else 0)
  | .float x => x.truncate.mapError fun
    | .notANumber => .badValue
    | .infinite => .tooLarge
  | .str t =>
    match Numeral.read? .ten t with
    | some n => if h.Reads t then .ok n else .error .tooManyDigits
    | none => .error .badValue
  | _ => .error .wrongKind

/-- The limits after one member of a settings document; unknown names are passed over. -/
def apply (h : Host) (l : Limits) (m : Text × Json) : Except Misuse Limits :=
  if m.1 = Text.ofString "session_limit" then
    (setting h m.2).map fun n => { l with session := n }
  else if m.1 = Text.ofString "max_register_bits" then
    (setting h m.2).map fun n => { l with registerBits := n }
  else .ok l

def ofJson (h : Host) : Json → Except Misuse Limits
  | .obj members => members.foldlM (apply h) standard
  | _ => .error .notAnObject

end Limits

/-- The state of a run: the registers, the rest of the input, and the journal so far. -/
structure Machine where
  registers : List Nat
  input : WordReader
  journal : Bytes

namespace Machine

def start (registers : Nat) (input : WordReader) : Machine :=
  ⟨List.replicate registers 0, input, []⟩

def get (m : Machine) (r : Int) : Nat :=
  m.registers.getD r.toNat 0

def set (m : Machine) (r : Int) (v : Nat) : Machine :=
  { m with registers := m.registers.set r.toNat v }

end Machine

/-- Why a run stops before its last instruction, or with a code other than zero. -/
inductive Stop where
  | halt (reason : Halt)
  | fault (cause : Fault)
deriving DecidableEq

/-- The numbers that are written where a run stops. -/
def Stop.numbers : Stop → List Int
  | halt reason => reason.numbers
  | fault cause => cause.numbers

/-- The result of a computing instruction on its two source values, or why it halts. -/
def compute (op : Opcode) (lhs rhs : Nat) : Except Halt Nat :=
  match op with
  | .add => .ok (lhs + rhs)
  | .sub => if lhs < rhs then .error .underflow else .ok (lhs - rhs)
  | .mul => .ok (lhs * rhs)
  | .mod => if rhs = 0 then .error .zeroModulus else .ok (lhs % rhs)
  | .inv =>
    if rhs = 0 then .error .zeroModulus
    else
      match inverseMod? lhs rhs with
      | some v => .ok v
      | none => .error (.noInverse lhs rhs)
  | _ => .ok 0

/-- The row of an instruction that runs at `pc` in cycle `pc`. -/
def Instruction.row (i : Instruction) (pc : Nat) (lhs rhs value : Nat) : Row :=
  ⟨pc, pc, i.op.number, i.a, i.b, i.c, lhs, rhs, value⟩

namespace Engine

/-- Writes a register, unless the value has more bits than a register may hold. -/
def store (l : Limits) (m : Machine) (pc : Nat) (r : Int) (v : Nat) : Except Stop Machine :=
  if l.registerBits < bitLength v then
    .error (.fault (.registerSize (bitLength v) pc l.registerBits))
  else .ok (m.set r v)

def step (l : Limits) (m : Machine) (pc : Nat) (i : Instruction) : Except Stop (Row × Machine) :=
  match i.op with
  | .read =>
    match m.input.integer with
    | (.error _, _) => .error (.halt .unreadableInput)
    | (.ok v, input) => do
      let m ← store l { m with input } pc i.a v
      return (i.row pc 0 0 v, m)
  | .const => .ok (i.row pc 0 0 i.b.toNat, m.set i.a i.b.toNat)
  | .commit =>
    let v := m.get i.a
    .ok (i.row pc 0 0 v, { m with journal := m.journal ++ encodeNat v })
  | .halt => .ok (i.row pc 0 0 0, m)
  | op => do
    let lhs := m.get i.b
    let rhs := m.get i.c
    let v ← (compute op lhs rhs).mapError .halt
    let m ← store l m pc i.a v
    return (i.row pc lhs rhs v, m)

/-- Runs the instructions from `pc` on. The result is the rows, the journal, and the reason if the
run stopped before the end of the instructions or with a code other than zero. -/
def runFrom (l : Limits) (m : Machine) (pc : Nat) :
    List Instruction → List Row × Bytes × Option Stop
  | [] => ([], m.journal, none)
  | i :: rest =>
    if l.session ≤ pc then ([], m.journal, some (.fault (.sessionLimit l.session)))
    else
      match step l m pc i with
      | .error s => ([], m.journal, some s)
      | .ok (row, m) =>
        if i.op = .halt then
          ([row], m.journal, if i.a = 0 then none else some (.halt (.asked i.a)))
        else
          let (rows, journal, stop) := runFrom l m (pc + 1) rest
          (row :: rows, journal, stop)

/-- How the run of a program on an input goes. -/
def outcome (l : Limits) (p : Program) (input : Bytes) : List Row × Bytes × Option Stop :=
  match WordReader.ofBytes input with
  | .error _ => ([], [], some (.halt .unreadableInput))
  | .ok reader => runFrom l (.start p.registers.toNat reader) 0 p.instructions.toList

/-- The session of a run that has left rows and a journal, with the reason why it stopped. -/
def ended (imageId : Text) (rows : List Row) (journal : Bytes) : Option Stop → Session
  | none => .success imageId rows journal
  | some (.halt reason) => .abnormalHalt imageId rows reason.code journal
  | some (.fault cause) => .fault imageId rows cause

/-- The record of the run of a program on an input. -/
def run (l : Limits) (imageId : Text) (p : Program) (input : Bytes) : Session :=
  let (rows, journal, stop) := outcome l p input
  ended imageId rows journal stop

/-- The numbers that are written where the run of a program stops. -/
def shown (l : Limits) (p : Program) (input : Bytes) : List Int :=
  (outcome l p input).2.2.elim [] Stop.numbers

end Engine

/-- Why there is no session. -/
inductive EngineError where
  | load (e : LoadError)
  | misuse (m : Misuse)
deriving DecidableEq, Inhabited

/-- The session of an artifact on an input. -/
def Engine.execute (h : Host) (l : Limits) (a : Artifact) (input : Bytes) :
    Except EngineError Session := do
  let p ← (Program.load a.blob).mapError .load
  let (rows, journal, stop) := outcome l p input
  if h.Tells (stop.elim [] Stop.numbers) then return ended a.imageId rows journal stop
  else throw (.misuse .tooManyDigits)

end CircuitReceipts
