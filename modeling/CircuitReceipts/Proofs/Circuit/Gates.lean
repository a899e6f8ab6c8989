import CircuitReceipts.Circuit.Operation
import CircuitReceipts.Proofs.Circuit.Evaluation
import CircuitReceipts.Proofs.Circuit.Loaded

/-!
# Circuits without registers

Once every register that an instruction reads is replaced by the position that last wrote it, a
circuit is a list of gates over positions, and its values are consistent when every gate holds. For
the built-in circuits the gates are written out, so that consistency becomes a list of equations.
-/

namespace CircuitReceipts

@[simp] theorem compute_add_eq_ok {lhs rhs v : Nat} :
    compute .add lhs rhs = .ok v ↔ lhs + rhs = v := by
  simp [compute]

@[simp] theorem compute_sub_eq_ok {lhs rhs v : Nat} :
    compute .sub lhs rhs = .ok v ↔ rhs ≤ lhs ∧ lhs - rhs = v := by
  simp [compute]

@[simp] theorem compute_mul_eq_ok {lhs rhs v : Nat} :
    compute .mul lhs rhs = .ok v ↔ lhs * rhs = v := by
  simp [compute]

@[simp] theorem compute_mod_eq_ok {lhs rhs v : Nat} :
    compute .mod lhs rhs = .ok v ↔ rhs ≠ 0 ∧ lhs % rhs = v := by
  simp [compute]

@[simp] theorem compute_inv_eq_ok {lhs rhs v : Nat} :
    compute .inv lhs rhs = .ok v ↔ inverseMod? lhs rhs = some v := by
  simp only [compute, guard_eq_ok]
  by_cases h : rhs = 0
  · simp [h, inverseMod?]
  · cases inverseMod? lhs rhs <;> simp [h]

/-- What stands at a position when registers are replaced by the positions that last wrote them, or
by nothing where none did. -/
inductive Gate where
  | read
  | const (n : Int)
  | compute (op : Opcode) (lhs rhs : Option Nat)
  | commit (source : Option Nat)
  | halt
deriving DecidableEq

/-- The value that comes from a position, and zero from nowhere. -/
def sourceValue (values : Nat → Nat) (source : Option Nat) : Nat :=
  (source.map values).getD 0

/-- Whether the value at the position of a gate is right, given the others. -/
def Gate.Holds (values : Nat → Nat) (value : Nat) : Gate → Prop
  | read => True
  | const n => n = value
  | compute op lhs rhs =>
    CircuitReceipts.compute op (sourceValue values lhs) (sourceValue values rhs) = .ok value
  | commit source => sourceValue values source = value
  | halt => value = 0

def Gate.HoldFrom (values : Nat → Nat) (pc : Nat) : List Gate → Prop
  | [] => True
  | g :: gs => g.Holds values (values pc) ∧ HoldFrom values (pc + 1) gs

namespace Code

def gate (code : Code) (pc : Nat) (i : Instruction) : Gate :=
  match i.op with
  | .read => .read
  | .const => .const i.b
  | .commit => .commit (code.lastWriter i.a pc)
  | .halt => .halt
  | op => .compute op (code.lastWriter i.b pc) (code.lastWriter i.c pc)

def gates (code : Code) : List Gate :=
  code.toList.mapIdx code.gate

variable {code : Code} {values : Nat → Nat} {pc : Nat} {i : Instruction}

theorem gate_holds_iff : (code.gate pc i).Holds values (values pc) ↔ code.Produces values pc i := by
  rw [gate, Produces]
  cases i.op <;> rfl

end Code

theorem Gate.holdFrom_iff {values : Nat → Nat} {start : Nat} {gs : List Gate} :
    HoldFrom values start gs ↔
      ∀ {k : Nat} {g : Gate}, gs[k]? = some g → g.Holds values (values (start + k)) := by
  induction gs generalizing start with
  | nil => simp [HoldFrom]
  | cons g gs ih =>
    rw [HoldFrom, ih]
    constructor
    · rintro ⟨hg, hgs⟩ k g' hk
      cases k with
      | zero =>
        cases hk
        exact hg
      | succ k =>
        rw [Nat.add_comm k 1, ← Nat.add_assoc]
        exact hgs hk
    · intro h
      refine ⟨h (k := 0) rfl, fun {k g'} hk => ?_⟩
      rw [Nat.add_assoc, Nat.add_comm 1]
      exact h (k := k + 1) hk

theorem Code.consistent_iff_holdFrom {code : Code} {values : Nat → Nat} {n : Nat}
    (hn : n ≤ code.size) :
    (∀ pc < n, code.Consistent values pc) ↔ Gate.HoldFrom values 0 (code.gates.take n) := by
  rw [Gate.holdFrom_iff]
  have hget (k : Nat) : (code.gates.take n)[k]? =
      if k < n then code[k]?.map (code.gate k) else none := by
    rw [List.getElem?_take, gates, List.getElem?_mapIdx, Array.getElem?_toList]
  constructor
  · intro h k g hk
    rw [hget] at hk
    split at hk
    · next hkn =>
      obtain ⟨i, hi, hproduces⟩ := h k hkn
      rw [hi, Option.map_some, Option.some.injEq] at hk
      subst hk
      rw [Nat.zero_add]
      exact gate_holds_iff.2 hproduces
    · exact absurd hk (by simp)
  · intro h pc hpc
    obtain ⟨i, hi⟩ := exists_instruction (Nat.lt_of_lt_of_le hpc hn)
    have hg := h (k := pc) (by rw [hget, if_pos hpc, hi]; rfl)
    rw [Nat.zero_add] at hg
    exact ⟨i, hi, gate_holds_iff.1 hg⟩

namespace Operation

def gates : Operation → List Gate
  | modadd =>
    [.read, .read, .read, .compute .add (some 0) (some 1), .compute .mod (some 3) (some 2),
      .commit (some 4), .halt]
  | modsub =>
    [.read, .read, .read, .compute .mod (some 0) (some 2), .compute .mod (some 1) (some 2),
      .compute .add (some 3) (some 2), .compute .sub (some 5) (some 4),
      .compute .mod (some 6) (some 2), .commit (some 7), .halt]
  | modmul =>
    [.read, .read, .read, .compute .mul (some 0) (some 1), .compute .mod (some 3) (some 2),
      .commit (some 4), .halt]
  | modinv => [.read, .read, .compute .inv (some 0) (some 1), .commit (some 2), .halt]
  | extfieldadd =>
    [.read, .read, .read, .read, .read, .compute .add (some 0) (some 2),
      .compute .mod (some 5) (some 4), .compute .add (some 1) (some 3),
      .compute .mod (some 7) (some 4), .commit (some 6), .commit (some 8), .halt]
  | extfieldsub =>
    [.read, .read, .read, .read, .read, .compute .mod (some 0) (some 4),
      .compute .mod (some 1) (some 4), .compute .mod (some 2) (some 4),
      .compute .mod (some 3) (some 4), .compute .add (some 5) (some 4),
      .compute .sub (some 9) (some 7), .compute .mod (some 10) (some 4),
      .compute .add (some 6) (some 4), .compute .sub (some 12) (some 8),
      .compute .mod (some 13) (some 4), .commit (some 11), .commit (some 14), .halt]

theorem gates_program (op : Operation) : op.program.code.gates = op.gates := by
  cases op <;> decide +kernel

/-- The values of a built-in circuit are consistent below a position exactly when its gates before
that position hold. -/
theorem consistent_iff_gates {op : Operation} {values : Nat → Nat} {n : Nat}
    (hn : n ≤ op.program.size) :
    (∀ pc < n, op.program.code.Consistent values pc) ↔
      Gate.HoldFrom values 0 (op.gates.take n) := by
  rw [Code.consistent_iff_holdFrom hn, gates_program]

end Operation

end CircuitReceipts
