import CircuitReceipts.Proofs.Engine.Reach

/-!
# The guarded engine

The engine takes for granted that the registers an instruction names exist, that it never divides
by zero, that every number it commits has a count of limbs with room in a word, and that every
computing instruction is one it knows. The guarded engine takes nothing for granted: it tests each
of these where it relies on it and breaks off when the test fails. On loaded programs no test ever
fails, so the two engines agree.
-/

namespace CircuitReceipts

/-- What the engine relies on and does not find. -/
inductive Breach where
  | noRegister (register : Int)
  | zeroDivisor
  | noRoom (n : Nat)
  | unhandled (op : Opcode)
deriving DecidableEq

/-- Why a guarded step makes no row. -/
inductive Interrupt where
  | stop (s : Stop)
  | breach (b : Breach)
deriving DecidableEq

/-- Why there is no session of a guarded run. -/
inductive GuardedError where
  | engine (e : EngineError)
  | breach (b : Breach)
deriving DecidableEq

/-- A limit on registers under which a count of limbs has room in a word. -/
def Limits.Narrow (l : Limits) : Prop :=
  l.registerBits < 32 * 0xFFFFFFFF

namespace Engine

/-- Under narrow limits every number that a run deals with can be written. -/
theorem Reaches.writable {l : Limits} {p : Program} {reader : WordReader} {rows : List Row}
    {m : Machine} (h : Reaches l p reader rows m) (hp : p.Loaded) (hnarrow : l.Narrow) :
    (∀ v ∈ m.registers, Writable v) ∧
      ∀ row ∈ rows, ∀ v ∈ [row.lhs, row.rhs, row.value], 0 ≤ v ∧ Writable v.toNat := by
  refine h.forall_values (writable_of_lt (by decide)) (fun v hv => ?_) fun v hv =>
    writable_of_lt (hp.constant_lt hv)
  have hbits : bitLength v ≤ 32 * 0xFFFFFFFF := by
    rw [Limits.Narrow] at hnarrow
    omega
  exact Nat.lt_of_le_of_lt (length_limbs_le_of_bitLength hbits) (by decide)

namespace Guarded

def get (m : Machine) (r : Int) : Except Interrupt Nat :=
  if 0 ≤ r ∧ r < m.registers.length then .ok (m.get r) else .error (.breach (.noRegister r))

def set (m : Machine) (r : Int) (v : Nat) : Except Interrupt Machine :=
  if 0 ≤ r ∧ r < m.registers.length then .ok (m.set r v) else .error (.breach (.noRegister r))

def encode (n : Nat) : Except Interrupt Bytes :=
  if (limbs n).length < 0x100000000 then .ok (encodeNat n) else .error (.breach (.noRoom n))

def remainder (n divisor : Nat) : Except Interrupt Nat :=
  if divisor = 0 then .error (.breach .zeroDivisor) else .ok (n % divisor)

def compute (op : Opcode) (lhs rhs : Nat) : Except Interrupt Nat :=
  match op with
  | .add => .ok (lhs + rhs)
  | .sub => if lhs < rhs then .error (.stop (.halt .underflow)) else .ok (lhs - rhs)
  | .mul => .ok (lhs * rhs)
  | .mod => if rhs = 0 then .error (.stop (.halt .zeroModulus)) else remainder lhs rhs
  | .inv =>
    if rhs = 0 then .error (.stop (.halt .zeroModulus))
    else
      match inverseMod? lhs rhs with
      | some v => .ok v
      | none => .error (.stop (.halt (.noInverse lhs rhs)))
  | op => .error (.breach (.unhandled op))

def store (l : Limits) (m : Machine) (pc : Nat) (r : Int) (v : Nat) : Except Interrupt Machine :=
  if l.registerBits < bitLength v then
    .error (.stop (.fault (.registerSize (bitLength v) pc l.registerBits)))
  else set m r v

def step (l : Limits) (m : Machine) (pc : Nat) (i : Instruction) :
    Except Interrupt (Row × Machine) :=
  match i.op with
  | .read =>
    match m.input.integer with
    | (.error _, _) => .error (.stop (.halt .unreadableInput))
    | (.ok v, input) => do
      let m ← store l { m with input } pc i.a v
      return (i.row pc 0 0 v, m)
  | .const => do
    let m ← set m i.a i.b.toNat
    return (i.row pc 0 0 i.b.toNat, m)
  | .commit => do
    let v ← get m i.a
    let bytes ← encode v
    return (i.row pc 0 0 v, { m with journal := m.journal ++ bytes })
  | .halt => .ok (i.row pc 0 0 0, m)
  | op => do
    let lhs ← get m i.b
    let rhs ← get m i.c
    let v ← compute op lhs rhs
    let m ← store l m pc i.a v
    return (i.row pc lhs rhs v, m)

def runFrom (l : Limits) (m : Machine) (pc : Nat) :
    List Instruction → Except Breach (List Row × Bytes × Option Stop)
  | [] => .ok ([], m.journal, none)
  | i :: rest =>
    if l.session ≤ pc then .ok ([], m.journal, some (.fault (.sessionLimit l.session)))
    else
      match step l m pc i with
      | .error (.stop s) => .ok ([], m.journal, some s)
      | .error (.breach b) => .error b
      | .ok (row, m) =>
        if i.op = .halt then
          .ok ([row], m.journal, if i.a = 0 then none else some (.halt (.asked i.a)))
        else do
          let (rows, journal, stop) ← runFrom l m (pc + 1) rest
          return (row :: rows, journal, stop)

def outcome (l : Limits) (p : Program) (input : Bytes) :
    Except Breach (List Row × Bytes × Option Stop) :=
  match WordReader.ofBytes input with
  | .error _ => .ok ([], [], some (.halt .unreadableInput))
  | .ok reader => runFrom l (.start p.registers.toNat reader) 0 p.instructions.toList

/-- The session of an artifact on an input. -/
def execute (h : Host) (l : Limits) (a : Artifact) (input : Bytes) :
    Except GuardedError Session := do
  let p ← (Program.load a.blob).mapError (.engine ∘ .load)
  let (rows, journal, stop) ← (outcome l p input).mapError .breach
  if h.Tells (stop.elim [] Stop.numbers) then return ended a.imageId rows journal stop
  else throw (.engine (.misuse .tooManyDigits))

variable {l : Limits} {m : Machine} {p : Program} {pc : Nat} {i : Instruction} {registers : Int}
  {reader : WordReader} {rows : List Row}

theorem lt_length (hfits : i.Fits registers) (hlen : m.registers.length = registers.toNat) {r : Int}
    (hr : r ∈ i.registers) : 0 ≤ r ∧ r < m.registers.length := by
  have hnonneg := nonneg_of_mem_registers hfits hr
  have hlt := hfits.lt r hr
  omega

theorem get_eq_ok {r : Int} (hr : 0 ≤ r ∧ r < m.registers.length) : get m r = .ok (m.get r) :=
  if_pos hr

theorem set_eq_ok {r : Int} (hr : 0 ≤ r ∧ r < m.registers.length) (v : Nat) :
    set m r v = .ok (m.set r v) :=
  if_pos hr

theorem store_eq (l : Limits) {m : Machine} (pc : Nat) {r : Int}
    (hr : 0 ≤ r ∧ r < m.registers.length) (v : Nat) :
    store l m pc r v = (Engine.store l m pc r v).mapError .stop := by
  rw [store, Engine.store, set_eq_ok hr]
  split <;> rfl

theorem encode_eq_ok {n : Nat} (h : Writable n) : encode n = .ok (encodeNat n) :=
  if_pos h

/-- A computing instruction is handled, and divides by no zero. -/
theorem compute_eq {op : Opcode} (hop : op.isBinary = true) (lhs rhs : Nat) :
    compute op lhs rhs =
      (CircuitReceipts.compute op lhs rhs).mapError fun reason => .stop (.halt reason) := by
  cases op with
  | read | const | commit | halt => cases hop
  | add | mul => rfl
  | sub =>
    rw [compute, CircuitReceipts.compute]
    split <;> rfl
  | mod =>
    rw [compute, CircuitReceipts.compute, remainder]
    by_cases hzero : rhs = 0
    · rw [if_pos hzero, if_pos hzero]
      rfl
    · rw [if_neg hzero, if_neg hzero, if_neg hzero]
      rfl
  | inv =>
    rw [compute, CircuitReceipts.compute]
    by_cases hzero : rhs = 0
    · rw [if_pos hzero, if_pos hzero]
      rfl
    · rw [if_neg hzero, if_neg hzero]
      cases inverseMod? lhs rhs <;> rfl

/-- At a fitting instruction, on a machine with all its registers whose numbers can be written, no
test fails. -/
theorem step_eq (hfits : i.Fits registers) (hlen : m.registers.length = registers.toNat)
    (hwritable : ∀ v ∈ m.registers, Writable v) :
    step l m pc i = (Engine.step l m pc i).mapError .stop := by
  have hregister {r : Int} (hr : r ∈ i.registers) : 0 ≤ r ∧ r < m.registers.length :=
    lt_length hfits hlen hr
  cases hop : i.op with
  | read =>
    have ha : i.a ∈ i.registers := by simp [Instruction.registers, hop]
    simp only [step, Engine.step, hop]
    rcases m.input.integer with ⟨_ | v, input⟩
    · rfl
    · have hstore := store_eq l (m := { m with input }) pc (hregister ha) v
      simp only [hstore]
      cases Engine.store l { m with input } pc i.a v <;> rfl
  | const =>
    have ha : i.a ∈ i.registers := by simp [Instruction.registers, hop]
    simp only [step, Engine.step, hop, set_eq_ok (hregister ha)]
    rfl
  | commit =>
    have ha : i.a ∈ i.registers := by simp [Instruction.registers, hop]
    have hroom : Writable (m.get i.a) :=
      forall_get (writable_of_lt (by decide)) hwritable i.a
    simp only [step, Engine.step, hop, get_eq_ok (hregister ha), ok_bind, encode_eq_ok hroom]
    rfl
  | halt =>
    simp only [step, Engine.step, hop]
    rfl
  | add | sub | mul | mod | inv =>
    have ha : i.a ∈ i.registers := by simp [Instruction.registers, hop]
    have hb : i.b ∈ i.registers := by simp [Instruction.registers, hop]
    have hc : i.c ∈ i.registers := by simp [Instruction.registers, hop]
    have hbinary : i.op.isBinary = true := by rw [hop]; rfl
    have hcompute := compute_eq hbinary (m.get i.b) (m.get i.c)
    rw [hop] at hcompute
    simp only [step, Engine.step, hop, get_eq_ok (hregister hb), get_eq_ok (hregister hc), ok_bind,
      hcompute]
    rcases CircuitReceipts.compute _ (m.get i.b) (m.get i.c) with reason | v
    · rfl
    · have hstore := store_eq l pc (hregister ha) v
      simp only [mapError_ok, ok_bind, hstore]
      cases Engine.store l m pc i.a v <;> rfl

/-- What is left of a run that has come to a point is the same on both engines. -/
theorem runFrom_eq (hp : p.Loaded) (hnarrow : l.Narrow) {rest : List Instruction} :
    ∀ {rows : List Row} {m : Machine}, Reaches l p reader rows m →
      rest = p.code.toList.drop rows.length →
      runFrom l m rows.length rest = .ok (Engine.runFrom l m rows.length rest) := by
  -- by induction on the instructions left; that the point is reached is what each step keeps
  induction rest with
  | nil => intro rows m _ _; rfl
  | cons i rest ih =>
    intro rows m hreach hrest
    obtain ⟨hi, hrest'⟩ := of_drop_eq_cons hrest
    rw [runFrom, Engine.runFrom]
    by_cases hsession : l.session ≤ rows.length
    · rw [if_pos hsession, if_pos hsession]
    rw [if_neg hsession, if_neg hsession,
      step_eq (hp.fits hi) hreach.length_registers (hreach.writable hp hnarrow).1]
    rcases hstep : Engine.step l m rows.length i with s | ⟨row, m'⟩
    · rfl
    · have hreach' := hreach.step hi (Int.not_le.1 hsession) (step_eq_ok_iff.1 hstep)
      have hlen : (rows ++ [row]).length = rows.length + 1 := by
        rw [List.length_append, List.length_singleton]
      have hgoes := ih hreach' (by rwa [hlen])
      rw [hlen] at hgoes
      by_cases hop : i.op = .halt
      · simp only [mapError_ok, if_pos hop]
      · simp only [mapError_ok, if_neg hop, hgoes, ok_bind]
        rfl

theorem outcome_eq (hp : p.Loaded) (hnarrow : l.Narrow) (input : Bytes) :
    outcome l p input = .ok (Engine.outcome l p input) := by
  cases hreader : WordReader.ofBytes input with
  | error e =>
    rw [Engine.outcome_of_unreadable l p hreader]
    simp only [outcome, hreader]
  | ok reader =>
    have hstart : Reaches l p reader [] (.start p.registers.toNat reader) := .start
    have hruns := runFrom_eq hp hnarrow hstart rfl
    rw [List.length_nil, List.drop_zero] at hruns
    rw [Engine.outcome_eq l p hreader, ← hruns]
    simp only [outcome, hreader, Program.code]

/-- On narrow limits the guarded engine does what the engine does: it breaks off nowhere. -/
theorem execute_eq (hnarrow : l.Narrow) (host : Host) (a : Artifact) (input : Bytes) :
    execute host l a input = (Engine.execute host l a input).mapError .engine := by
  cases hload : Program.load a.blob with
  | error e =>
    rw [execute, Engine.execute, hload]
    rfl
  | ok p =>
    rw [execute, hload, mapError_ok, ok_bind,
      outcome_eq (Program.loaded_of_load hload) hnarrow, execute_of_load hload, mapError_ok,
      ok_bind]
    cases houtcome : Engine.outcome l p input with
    | mk rows tail =>
    obtain ⟨journal, stop⟩ := tail
    rw [shown_of_outcome houtcome, run_of_outcome houtcome]
    dsimp only
    split <;> rfl

/-- Of an instruction that loading would refuse, a test does fail. -/
example : step .standard (.start 1 ⟨0, []⟩) 0 ⟨.commit, 5, 0, 0⟩ =
    .error (.breach (.noRegister 5)) := rfl

end Guarded

end Engine

end CircuitReceipts
