import CircuitReceipts.Circuit.Instruction
import CircuitReceipts.Misuse

/-!
# Dataflow

Which instruction last wrote a register before a position, and which positions a set of positions
depends on. Since an instruction depends only on earlier ones, one walk from the last position to
the first finds all dependencies.
-/

namespace CircuitReceipts

abbrev Code := Array Instruction

namespace Code

/-- The last position before `pc` whose instruction writes the register. -/
def lastWriter (code : Code) (register : Int) : (pc : Nat) → Option Nat
  | 0 => none
  | pc + 1 =>
    if (code[pc]?.bind Instruction.writes) = some register then some pc
    else lastWriter code register pc

/-- The positions an instruction at `pc` depends on directly: for each register it reads, the
position that last wrote it. -/
def sources (code : Code) (pc : Nat) : List Nat :=
  ((code[pc]?.map Instruction.reads).getD []).filterMap (code.lastWriter · pc)

/-- The positions below `pc` that are wanted or that a wanted position depends on, followed by
`found`. -/
def closureBelow (code : Code) : (pc : Nat) → (wanted : List Nat) → (found : List Nat) → List Nat
  | 0, _, found => found
  | pc + 1, wanted, found =>
    if wanted.contains pc then code.closureBelow pc (code.sources pc ++ wanted) (pc :: found)
    else code.closureBelow pc wanted found

/-- The given positions and all that they depend on, in increasing order. -/
def closure (code : Code) (roots : List Nat) : List Nat :=
  code.closureBelow code.size roots []

/-- The last position before any `pc` whose instruction writes the register. Before a position
below zero there is none; a position beyond the end is refused. -/
def writerBefore (code : Code) (pc : Int) (register : Int) : Except Misuse (Option Nat) :=
  if (code.size : Int) < pc then .error .outOfRange else .ok (code.lastWriter register pc.toNat)

/-- The distinct members of a list of integers, in increasing order. -/
def distinct (ns : List Int) : List Int :=
  (ns.mergeSort (· ≤ ·)).eraseReps

/-- The closure of any integers. One below zero counts from the end and depends on nothing, for no
position is before it. -/
def closureOf (code : Code) (roots : List Int) : Except Misuse (List Int) :=
  let n : Int := code.size
  if roots.any fun r => r < -n || n ≤ r then .error .outOfRange
  else
    let below := distinct (roots.filter (· < 0))
    let rest := code.closure ((roots.filter (0 ≤ ·)).map Int.toNat)
    .ok (below ++ rest.map Int.ofNat)

/-- The positions of the instructions that append to the journal. -/
def commits (code : Code) : List Nat :=
  (List.range code.size).filter fun pc => (code[pc]?.map Instruction.op) = some .commit

@[simp] theorem lastWriter_zero (code : Code) (register : Int) :
    code.lastWriter register 0 = none := rfl

theorem lastWriter_succ (code : Code) (register : Int) (pc : Nat) :
    code.lastWriter register (pc + 1) =
      if (code[pc]?.bind Instruction.writes) = some register then some pc
      else code.lastWriter register pc := rfl

/-- A writer stands before the position and writes the register. -/
theorem lastWriter_eq_some {code : Code} {register : Int} {pc w : Nat}
    (h : code.lastWriter register pc = some w) :
    w < pc ∧ (code[w]?.bind Instruction.writes) = some register := by
  induction pc with
  | zero => simp at h
  | succ pc ih =>
    rw [lastWriter_succ] at h
    split at h
    · case isTrue hw =>
      cases h
      exact ⟨Nat.lt_succ_self _, hw⟩
    · obtain ⟨hlt, hw⟩ := ih h
      exact ⟨Nat.lt_succ_of_lt hlt, hw⟩

theorem lt_of_mem_sources {code : Code} {pc w : Nat} (h : w ∈ code.sources pc) : w < pc := by
  obtain ⟨r, -, hw⟩ := List.mem_filterMap.1 h
  exact (lastWriter_eq_some hw).1

end Code

end CircuitReceipts
