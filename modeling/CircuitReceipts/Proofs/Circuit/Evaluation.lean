import CircuitReceipts.Engine
import CircuitReceipts.Proofs.Circuit.Closure

/-!
# Values along a circuit

A circuit relates the values that its positions produce: each value is computed from the values of
the positions that last wrote the registers it reads. `Code.Consistent values pc` says that the
value at `pc` is right, given the others; it is local, so it can be checked at some positions
without knowing anything about the rest. `Code.evaluate` computes the value at a position from the
numbers that the reading positions took in. Where a family of values is consistent on a set of
positions that contains its sources, evaluation gives just these values.
-/

namespace CircuitReceipts

namespace Code

/-- The value of a register before `pc`: what the last writer produced, and zero if nothing wrote
it. -/
def before (code : Code) (values : Nat → Nat) (register : Int) (pc : Nat) : Nat :=
  ((code.lastWriter register pc).map values).getD 0

/-- Whether an instruction at `pc` produces its value from the values of its sources. -/
def Produces (code : Code) (values : Nat → Nat) (pc : Nat) (i : Instruction) : Prop :=
  match i.op with
  | .read => True
  | .const => i.b = values pc
  | .commit => code.before values i.a pc = values pc
  | .halt => values pc = 0
  | op => compute op (code.before values i.b pc) (code.before values i.c pc) = .ok (values pc)

/-- Whether the value at a position is right, given the values at the other positions. -/
def Consistent (code : Code) (values : Nat → Nat) (pc : Nat) : Prop :=
  ∃ i, code[pc]? = some i ∧ code.Produces values pc i

/-- The row of an instruction at `pc` under given values. -/
def rowOf (code : Code) (values : Nat → Nat) (pc : Nat) (i : Instruction) : Row :=
  if i.op.isBinary then
    i.row pc (code.before values i.b pc) (code.before values i.c pc) (values pc)
  else i.row pc 0 0 (values pc)

/-- The value that a position produces when the reading positions take in the given numbers: an
instruction finds in a register what the last writer produced, and zero if nothing wrote it. There
is none if an instruction on the way has no result. -/
def evaluate (code : Code) (inputs : Nat → Nat) (pc : Nat) : Option Nat :=
  let source (register : Int) : Option Nat :=
    match _before : code.lastWriter register pc with
    | none => some 0
    | some w => evaluate code inputs w
  match code[pc]? with
  | none => none
  | some i =>
    match i.op with
    | .read => some (inputs pc)
    | .const => some i.b.toNat
    | .commit => source i.a
    | .halt => some 0
    | op => do
      let lhs ← source i.b
      let rhs ← source i.c
      (compute op lhs rhs).toOption
termination_by pc
decreasing_by
  all_goals exact (lastWriter_eq_some ‹_›).1

variable {code : Code} {inputs values : Nat → Nat} {pc : Nat} {i : Instruction}

theorem exists_instruction (hpc : pc < code.size) : ∃ i, code[pc]? = some i :=
  ⟨_, Array.getElem?_eq_getElem hpc⟩

/-- What an instruction at `pc` finds in a register when positions are evaluated. -/
def found (code : Code) (inputs : Nat → Nat) (register : Int) (pc : Nat) : Option Nat :=
  match code.lastWriter register pc with
  | none => some 0
  | some w => code.evaluate inputs w

/-- The equation of evaluation, without the reason why it ends. -/
theorem evaluate_eq (hi : code[pc]? = some i) :
    code.evaluate inputs pc =
      match i.op with
      | .read => some (inputs pc)
      | .const => some i.b.toNat
      | .commit => code.found inputs i.a pc
      | .halt => some 0
      | op => (code.found inputs i.b pc).bind fun lhs =>
          (code.found inputs i.c pc).bind fun rhs => (compute op lhs rhs).toOption := by
  have hfound (r : Int) :
      (match _before : code.lastWriter r pc with
        | none => some 0
        | some w => code.evaluate inputs w) = code.found inputs r pc := by
    rw [found]
    split <;> simp_all
  rw [evaluate, hi]
  simp only [hfound]
  rfl

theorem mem_sources {r : Int} {w : Nat} (hi : code[pc]? = some i) (hr : r ∈ i.reads)
    (hw : code.lastWriter r pc = some w) : w ∈ code.sources pc := by
  rw [sources, hi]
  exact List.mem_filterMap.2 ⟨r, hr, hw⟩

theorem found_eq_some (h : ∀ w ∈ code.sources pc, code.evaluate values w = some (values w))
    (hi : code[pc]? = some i) {r : Int} (hr : r ∈ i.reads) :
    code.found values r pc = some (code.before values r pc) := by
  rw [found, before]
  cases hw : code.lastWriter r pc with
  | none => rfl
  | some w => exact h w (mem_sources hi hr hw)

theorem evaluate_of_produces (hi : code[pc]? = some i) (h : code.Produces values pc i)
    (hsources : ∀ w ∈ code.sources pc, code.evaluate values w = some (values w)) :
    code.evaluate values pc = some (values pc) := by
  have hfound {r : Int} (hr : r ∈ i.reads) := found_eq_some hsources hi hr
  rw [evaluate_eq hi]
  rw [Produces] at h
  cases hop : i.op with
  | read => rfl
  | const =>
    simp only [hop] at h
    rw [h, Int.toNat_natCast]
  | halt =>
    simp only [hop] at h
    rw [h]
  | commit =>
    simp only [hop] at h
    have ha : i.a ∈ i.reads := by simp [Instruction.reads, hop, Opcode.isBinary]
    rw [hfound ha, h]
  | add | sub | mul | mod | inv =>
    simp only [hop] at h
    have hb : i.b ∈ i.reads := by simp [Instruction.reads, hop, Opcode.isBinary]
    have hc : i.c ∈ i.reads := by simp [Instruction.reads, hop, Opcode.isBinary]
    rw [hfound hb, hfound hc]
    simp only [Option.bind_some, h]
    rfl

/-- Values that are consistent on a set of positions that holds its sources are those that
evaluation gives on the set. -/
theorem evaluate_eq_some {S : Nat → Prop} (hS : ∀ {w}, S w → ∀ s ∈ code.sources w, S s)
    (hvalues : ∀ {w}, S w → code.Consistent values w) (hpc : S pc) :
    code.evaluate values pc = some (values pc) := by
  induction pc using Nat.strong_induction_on with
  | _ pc ih =>
    obtain ⟨i, hi, hproduces⟩ := hvalues hpc
    exact evaluate_of_produces hi hproduces fun w hw =>
      ih w (lt_of_mem_sources hw) (hS hpc w hw)

end Code

end CircuitReceipts
