import CircuitReceipts.Circuit.Dataflow
import CircuitReceipts.Proofs.Circuit.Assembly

/-!
# Loaded programs

What loading an artifact establishes about its program, in the form in which the runs and the
checks of receipts rely on it: the fields of every instruction have room in a word, every named
register exists, and the program halts at its last instruction and nowhere else.
-/

namespace CircuitReceipts

/-- The straight line of instructions of a program. -/
abbrev Program.code (p : Program) : Code :=
  p.instructions

/-- Whether the three fields of an instruction are natural numbers with room in a word. -/
def Instruction.InWords (i : Instruction) : Prop :=
  ∃ a b c : Nat, (a < 0x100000000 ∧ b < 0x100000000 ∧ c < 0x100000000) ∧
    i.a = a ∧ i.b = b ∧ i.c = c

/-- What has to be known of an instruction to run it: its fields are natural numbers with room in
a word, and the registers it names exist. -/
structure Instruction.Fits (i : Instruction) (registers : Int) : Prop where
  inWords : i.InWords
  lt : ∀ r ∈ i.registers, r < registers

/-- Whether an instruction of a program sets a register to a constant. -/
def Program.HasConstant (p : Program) (v : Nat) : Prop :=
  ∃ (k : Nat) (i : Instruction), p.code[k]? = some i ∧ i.op = .const ∧ v = i.b.toNat

/-- A program as loading leaves it. -/
structure Program.Loaded (p : Program) : Prop where
  size_pos : 0 < p.size
  size_lt : p.size < 0x100000000
  fits : ∀ {pc : Nat} {i : Instruction}, p.code[pc]? = some i → i.Fits p.registers
  halt_iff : ∀ {pc : Nat} {i : Instruction}, p.code[pc]? = some i →
    (i.op = .halt ↔ pc + 1 = p.size)

theorem Program.Loaded.constant_lt {p : Program} (hp : p.Loaded) {v : Nat}
    (h : p.HasConstant v) : v < 0x100000000 := by
  obtain ⟨k, i, hi, -, rfl⟩ := h
  obtain ⟨a, b, c, ⟨-, hlt, -⟩, -, hb, -⟩ := (hp.fits hi).inWords
  rwa [hb, Int.toNat_natCast]

namespace Program

theorem of_checkFrom {p : Program} {start : Nat} {is : List Instruction}
    (h : p.checkFrom start is = .ok ()) {j : Nat} {i : Instruction} (hi : is[j]? = some i) :
    (∀ r ∈ i.registers, r < p.registers) ∧ (i.op = .halt → j + 1 = is.length) := by
  induction is generalizing start j with
  | nil => simp at hi
  | cons k rest ih =>
    simp only [checkFrom, checkRegisters, bind_eq_ok, throw_bind, guard_eq_ok] at h
    obtain ⟨_, hregs, hlast, hrest⟩ := h
    cases j with
    | zero =>
      simp only [List.getElem?_cons_zero, Option.some.injEq] at hi
      subst hi
      constructor
      · intro r hr
        cases hfind : k.registers.find? (p.registers ≤ ·) with
        | some s => simp [hfind] at hregs
        | none => simpa using List.find?_eq_none.1 hfind r hr
      · intro hop
        have hempty : rest = [] := by simpa [hop] using hlast
        simp [hempty]
    | succ j =>
      obtain ⟨hregs', hend⟩ := ih hrest hi
      exact ⟨hregs', fun hop => by rw [List.length_cons, hend hop]⟩

theorem of_validate {p : Program} (h : p.validate = .ok ()) :
    0 < p.size ∧ ∀ {pc : Nat} {i : Instruction}, p.code[pc]? = some i →
      (∀ r ∈ i.registers, r < p.registers) ∧ (i.op = .halt ↔ pc + 1 = p.size) := by
  simp only [validate, throw_bind, guard_eq_ok] at h
  obtain ⟨-, h⟩ := h
  cases hback : p.instructions.back? with
  | none => simp [hback] at h
  | some last =>
  simp only [hback, guard_eq_ok] at h
  obtain ⟨hlast, hcheck⟩ := h
  rw [Array.back?_eq_getElem?] at hback
  obtain ⟨hpos, -⟩ := Array.getElem?_eq_some_iff.1 hback
  refine ⟨Nat.zero_lt_of_lt hpos, fun {pc i} hi => ?_⟩
  obtain ⟨hregs, hend⟩ := of_checkFrom hcheck (j := pc) (i := i) (by simpa using hi)
  refine ⟨hregs, fun hop => by simpa [size] using hend hop, fun hpc => ?_⟩
  have hplace : p.instructions.size - 1 = pc := by
    rw [size] at hpc
    omega
  rw [hplace, hi] at hback
  cases hback
  exact not_not.1 hlast

theorem InWords.instruction {p : Program} (h : p.InWords) {i : Instruction}
    (hi : i ∈ p.instructions.toList) : i.InWords := by
  have hfield {n : Int} (hn : n ∈ fields i) : ∃ w : Nat, w < 0x100000000 ∧ n = w := by
    obtain ⟨hnonneg, hlt⟩ :=
      h n (List.mem_append_right _ (List.mem_flatMap.2 ⟨i, hi, hn⟩))
    exact ⟨n.toNat, by omega, (Int.toNat_of_nonneg hnonneg).symm⟩
  obtain ⟨a, ha, hia⟩ := hfield (n := i.a) (by simp [fields])
  obtain ⟨b, hb, hib⟩ := hfield (n := i.b) (by simp [fields])
  obtain ⟨c, hc, hic⟩ := hfield (n := i.c) (by simp [fields])
  exact ⟨a, b, c, ⟨ha, hb, hc⟩, hia, hib, hic⟩

theorem loaded_of_load {blob : Bytes} {p : Program} (h : load blob = .ok p) : p.Loaded := by
  obtain ⟨hvalid, hwritten⟩ := load_eq_ok_iff.1 h
  have hwords : p.InWords := inWords_iff.2 ⟨blob, hwritten⟩
  obtain ⟨hpos, hcode⟩ := of_validate hvalid
  refine ⟨hpos, ?_, fun {pc i} hi => ⟨?_, (hcode hi).1⟩, fun hi => (hcode hi).2⟩
  · have hsize := hwords p.size (by simp [numbers, header])
    omega
  · exact hwords.instruction (List.mem_of_getElem? (i := pc) (by simpa [code] using hi))

end Program

end CircuitReceipts
