import CircuitReceipts.Proofs.Circuit.Evaluation
import CircuitReceipts.Proofs.Circuit.Loaded
import CircuitReceipts.Proofs.Codec.Reading
import CircuitReceipts.Proofs.Success

/-!
# One step of the engine

A machine *holds* given values at a position if its registers are what the values say about the
instructions before it, its journal is what these have committed, and what is left of the input is
what these have not read. One step leads from a machine that holds values at a position to one that
holds them at the next, exactly when the value of the row is consistent with them.
-/

namespace CircuitReceipts

namespace Code

/-- The positions below `pc` whose instruction has the given operation code. -/
def positions (code : Code) (op : Opcode) (pc : Nat) : List Nat :=
  (List.range pc).filter fun k => (code[k]?.map Instruction.op) = some op

variable {code : Code} {values : Nat → Nat} {pc : Nat} {i : Instruction}

theorem commits_eq_positions : code.commits = code.positions .commit code.size := rfl

theorem positions_succ (hi : code[pc]? = some i) (op : Opcode) :
    code.positions op (pc + 1) = code.positions op pc ++ if i.op = op then [pc] else [] := by
  rw [positions, List.range_succ, List.filter_append, ← positions, List.filter_singleton, hi]
  simp

theorem positions_prefix (op : Opcode) {m n : Nat} (h : m ≤ n) :
    ∃ more, code.positions op n = code.positions op m ++ more := by
  obtain ⟨k, rfl⟩ := Nat.exists_eq_add_of_le h
  rw [positions, List.range_add, List.filter_append, ← positions]
  exact ⟨_, rfl⟩

theorem mem_positions {op : Opcode} {n : Nat} :
    pc ∈ code.positions op n ↔ pc < n ∧ (code[pc]?.map Instruction.op) = some op := by
  simp [positions]

/-- A register before the next position: what the instruction wrote, or what it was before. -/
theorem before_succ (hi : code[pc]? = some i) (r : Int) :
    code.before values r (pc + 1) =
      if i.writes = some r then values pc else code.before values r pc := by
  rw [before, lastWriter_succ, hi, Option.bind_some]
  split <;> rfl

end Code

namespace Machine

variable {m : Machine} {r s : Int} {v : Nat}

theorem get_set (hr : 0 ≤ r) (hs : 0 ≤ s) (hlt : r.toNat < m.registers.length) :
    (m.set r v).get s = if r = s then v else m.get s := by
  rw [get, get, set, List.getD_eq_getElem?_getD, List.getD_eq_getElem?_getD, List.getElem?_set]
  by_cases h : r = s
  · subst h
    simp [hlt]
  · have hne : r.toNat ≠ s.toNat := by omega
    simp [h, hne]

/-- Whether a machine before position `pc` is what the values of the positions below `pc` say; the
words of the whole input are `stream`. -/
structure Holds (m : Machine) (code : Code) (values : Nat → Nat) (registers : Int)
    (stream : List UInt32) (pc : Nat) : Prop where
  length : m.registers.length = registers.toNat
  get : ∀ r, 0 ≤ r → r < registers → m.get r = code.before values r pc
  journal : m.journal = encodeNats ((code.positions .commit pc).map values)
  input : stream = wordsOfNats ((code.positions .read pc).map values) ++ m.input.rest

variable {code : Code} {values : Nat → Nat} {registers : Int} {stream : List UInt32} {pc : Nat}
  {i : Instruction}

theorem holds_start (registers : Int) (reader : WordReader) :
    (start registers.toNat reader).Holds code values registers reader.rest 0 where
  length := by simp [start]
  get r _ _ := by
    simp only [Machine.get, start, List.getD_eq_getElem?_getD, List.getElem?_replicate, Code.before,
      Code.lastWriter_zero]
    split <;> rfl
  journal := rfl
  input := rfl

/-- A machine whose registers, journal and input are kept holds the values at the next position if
the instruction does nothing else. -/
theorem Holds.next (h : m.Holds code values registers stream pc) (hi : code[pc]? = some i)
    (hwrites : i.writes = none) (hcommit : i.op ≠ .commit) (hread : i.op ≠ .read) :
    m.Holds code values registers stream (pc + 1) where
  length := h.length
  get r hr hlt := by
    rw [Code.before_succ hi, hwrites, if_neg (by simp)]
    exact h.get r hr hlt
  journal := by rw [Code.positions_succ hi, if_neg hcommit, List.append_nil, h.journal]
  input := by
    rw [Code.positions_succ hi, if_neg hread, List.append_nil]
    exact h.input

/-- A machine holds the values at the next position once the journal has taken the value of a
register that is to be committed. -/
theorem Holds.commit (h : m.Holds code values registers stream pc) (hi : code[pc]? = some i)
    (hop : i.op = .commit) :
    { m with journal := m.journal ++ encodeNat (values pc) }.Holds code values registers stream
      (pc + 1) where
  length := h.length
  get r hr hlt := by
    have hwrites : i.writes = none := by simp [Instruction.writes, hop, Opcode.isBinary]
    rw [Code.before_succ hi, hwrites, if_neg (by simp)]
    exact h.get r hr hlt
  journal := by
    rw [Code.positions_succ hi, if_pos hop, List.map_append, encodeNats_append, h.journal]
    simp
  input := by
    rw [Code.positions_succ hi, if_neg (by simp [hop]), List.append_nil]
    exact h.input

/-- A machine holds the values at the next position once the register of an instruction has taken
its value, and the input the number that was read. -/
theorem Holds.write (h : m.Holds code values registers stream pc) (hi : code[pc]? = some i)
    (hwrites : i.writes = some i.a) (ha : 0 ≤ i.a) (hlt : i.a < registers) (input : WordReader)
    (hinput : m.input.rest =
      (if i.op = .read then wordsOfNat (values pc) else []) ++ input.rest) :
    ({ m with input }.set i.a (values pc)).Holds code values registers stream (pc + 1) where
  length := by simpa [set] using h.length
  get r hr hr' := by
    have hlen : i.a.toNat < ({ m with input } : Machine).registers.length := by
      have := h.length
      simp only
      omega
    rw [get_set ha hr hlen, Code.before_succ hi, hwrites]
    by_cases hra : i.a = r
    · rw [if_pos hra, if_pos (by rw [hra])]
    · rw [if_neg hra, if_neg (by simpa using hra)]
      exact h.get r hr hr'
  journal := by
    have hcommit : i.op ≠ .commit := by
      intro hop
      simp [Instruction.writes, hop, Opcode.isBinary] at hwrites
    rw [Code.positions_succ hi, if_neg hcommit, List.append_nil]
    exact h.journal
  input := by
    rw [Code.positions_succ hi, h.input, hinput]
    by_cases hop : i.op = .read
    · simp [hop, set]
    · simp [hop, set]

end Machine

namespace Engine

variable {l : Limits} {m : Machine} {code : Code} {values : Nat → Nat} {registers : Int}
  {stream : List UInt32} {pc : Nat} {i : Instruction}

theorem nonneg_of_mem_registers (hfits : i.Fits registers) {r : Int} (hr : r ∈ i.registers) :
    0 ≤ r := by
  obtain ⟨a, b, c, -, ha, hb, hc⟩ := hfits.inWords
  have hfield : r = i.a ∨ r = i.b ∨ r = i.c := by
    rw [Instruction.registers] at hr
    split at hr <;> simp_all
  omega

theorem get_eq_before (hfits : i.Fits registers) (hm : m.Holds code values registers stream pc)
    {r : Int} (hr : r ∈ i.registers) : m.get r = code.before values r pc :=
  hm.get r (nonneg_of_mem_registers hfits hr) (hfits.lt r hr)

theorem store_eq_ok {m' : Machine} {r : Int} {v : Nat} :
    store l m pc r v = .ok m' ↔ (bitLength v : Int) ≤ l.registerBits ∧ m' = m.set r v := by
  rw [store]
  split
  · simp only [reduceCtorEq, false_iff, not_and]
    omega
  · simp only [Except.ok.injEq]
    constructor
    · rintro rfl
      exact ⟨by omega, rfl⟩
    · rintro ⟨-, rfl⟩
      rfl

/-- A step that gives a row has done what the instruction says: the row is that of its value, the
value is consistent with those before it, and the machine holds the values at the next position. -/
theorem step_sound {m' : Machine} {row : Row} (hi : code[pc]? = some i) (hfits : i.Fits registers)
    (hm : m.Holds code values registers stream pc) (hstep : step l m pc i = .ok (row, m'))
    (hvalue : row.value.toNat = values pc) :
    row = code.rowOf values pc i ∧ code.Produces values pc i ∧
      m'.Holds code values registers stream (pc + 1) := by
  rw [step] at hstep
  rw [Code.rowOf, Code.Produces]
  cases hop : i.op with
  | read =>
    simp only [hop] at hstep ⊢
    cases hint : m.input.integer with
    | mk result input =>
    cases result with
    | error e => simp [hint] at hstep
    | ok v =>
    simp only [hint, bind_eq_ok, store_eq_ok, pure_eq_ok, Prod.mk.injEq] at hstep
    obtain ⟨m₁, ⟨-, rfl⟩, rfl, rfl⟩ := hstep
    have hv : v = values pc := hvalue
    subst hv
    have ha : i.a ∈ i.registers := by simp [Instruction.registers, hop]
    have hwrites : i.writes = some i.a := by simp [Instruction.writes, hop]
    refine ⟨rfl, trivial, hm.write hi hwrites (nonneg_of_mem_registers hfits ha)
      (hfits.lt _ ha) input ?_⟩
    rw [if_pos hop]
    exact (WordReader.words_of_integer hint).2
  | const =>
    simp only [hop, Except.ok.injEq, Prod.mk.injEq] at hstep ⊢
    obtain ⟨rfl, rfl⟩ := hstep
    have hv : i.b.toNat = values pc := hvalue
    have ha : i.a ∈ i.registers := by simp [Instruction.registers, hop]
    have hwrites : i.writes = some i.a := by simp [Instruction.writes, hop]
    obtain ⟨a, b, c, -, -, hb, -⟩ := hfits.inWords
    rw [hv]
    refine ⟨rfl, by omega, hm.write hi hwrites (nonneg_of_mem_registers hfits ha)
      (hfits.lt _ ha) m.input ?_⟩
    simp [hop]
  | commit =>
    simp only [hop, Except.ok.injEq, Prod.mk.injEq] at hstep ⊢
    obtain ⟨rfl, rfl⟩ := hstep
    have hv : m.get i.a = values pc := hvalue
    have ha : i.a ∈ i.registers := by simp [Instruction.registers, hop]
    rw [hv]
    refine ⟨rfl, ?_, hm.commit hi hop⟩
    rw [← hv, get_eq_before hfits hm ha]
  | halt =>
    simp only [hop, Except.ok.injEq, Prod.mk.injEq] at hstep ⊢
    obtain ⟨rfl, rfl⟩ := hstep
    have hv : 0 = values pc := hvalue
    refine ⟨by rw [← hv]; rfl, hv.symm, hm.next hi ?_ (by simp [hop]) (by simp [hop])⟩
    simp [Instruction.writes, hop, Opcode.isBinary]
  | add | sub | mul | mod | inv =>
    simp only [hop, bind_eq_ok, mapError_eq_ok, store_eq_ok, pure_eq_ok, Prod.mk.injEq]
      at hstep ⊢
    obtain ⟨v, hcompute, m₁, ⟨-, rfl⟩, rfl, rfl⟩ := hstep
    have hv : v = values pc := hvalue
    subst hv
    have ha : i.a ∈ i.registers := by simp [Instruction.registers, hop]
    have hb : i.b ∈ i.registers := by simp [Instruction.registers, hop]
    have hc : i.c ∈ i.registers := by simp [Instruction.registers, hop]
    have hwrites : i.writes = some i.a := by simp [Instruction.writes, hop, Opcode.isBinary]
    rw [get_eq_before hfits hm hb, get_eq_before hfits hm hc] at hcompute ⊢
    refine ⟨rfl, hcompute, hm.write hi hwrites (nonneg_of_mem_registers hfits ha)
      (hfits.lt _ ha) m.input ?_⟩
    simp [hop]

theorem store_or_fault (l : Limits) (m : Machine) (pc : Nat) (r : Int) (v : Nat) :
    store l m pc r v = .ok (m.set r v) ∨
      l.registerBits < bitLength v ∧ ∃ cause, store l m pc r v = .error (.fault cause) := by
  rw [store]
  split
  · next h => exact .inr ⟨h, _, rfl⟩
  · exact .inl rfl

/-- Where the value at a position is consistent with those before it, and a reading instruction
finds it next in the input, a step gives its row, unless the value has too many bits. -/
theorem step_of_produces (l : Limits) (hfits : i.Fits registers)
    (hm : m.Holds code values registers stream pc) (hproduces : code.Produces values pc i)
    (hread : i.op = .read →
      Writable (values pc) ∧ ∃ tail, m.input.rest = wordsOfNat (values pc) ++ tail) :
    (∃ m', step l m pc i = .ok (code.rowOf values pc i, m')) ∨
      l.registerBits < bitLength (values pc) ∧ ∃ cause, step l m pc i = .error (.fault cause) := by
  rw [step, Code.rowOf]
  rw [Code.Produces] at hproduces
  cases hop : i.op with
  | read =>
    obtain ⟨hw, tail, htail⟩ := hread hop
    have hint := WordReader.integer_words hw m.input.position tail
    rw [← htail] at hint
    simp only [hint]
    rcases store_or_fault l
      { m with input := ⟨m.input.position + (1 + (limbs (values pc)).length), tail⟩ } pc i.a
      (values pc) with hs | ⟨hbits, cause, hs⟩
    · rw [hs]
      exact .inl ⟨_, rfl⟩
    · rw [hs]
      exact .inr ⟨hbits, cause, rfl⟩
  | const =>
    simp only [hop] at hproduces ⊢
    rw [hproduces, Int.toNat_natCast]
    exact .inl ⟨_, rfl⟩
  | commit =>
    simp only [hop] at hproduces ⊢
    have ha : i.a ∈ i.registers := by simp [Instruction.registers, hop]
    rw [get_eq_before hfits hm ha, hproduces]
    exact .inl ⟨_, rfl⟩
  | halt =>
    simp only [hop] at hproduces ⊢
    rw [hproduces]
    exact .inl ⟨_, rfl⟩
  | add | sub | mul | mod | inv =>
    simp only [hop] at hproduces ⊢
    have hb : i.b ∈ i.registers := by simp [Instruction.registers, hop]
    have hc : i.c ∈ i.registers := by simp [Instruction.registers, hop]
    rw [get_eq_before hfits hm hb, get_eq_before hfits hm hc, hproduces, mapError_ok, ok_bind]
    rcases store_or_fault l m pc i.a (values pc) with hs | ⟨hbits, cause, hs⟩
    · rw [hs]
      exact .inl ⟨_, rfl⟩
    · rw [hs]
      exact .inr ⟨hbits, cause, rfl⟩

/-- A computing instruction without a result halts the run for the reason it gives. -/
theorem step_of_error (l : Limits) (hfits : i.Fits registers)
    (hm : m.Holds code values registers stream pc) (hop : i.op.isBinary = true) {reason : Halt}
    (h : compute i.op (code.before values i.b pc) (code.before values i.c pc) = .error reason) :
    step l m pc i = .error (.halt reason) := by
  have hb : i.b ∈ i.registers := by
    cases hi : i.op <;> simp_all [Instruction.registers, Opcode.isBinary]
  have hc : i.c ∈ i.registers := by
    cases hi : i.op <;> simp_all [Instruction.registers, Opcode.isBinary]
  rw [← get_eq_before hfits hm hb, ← get_eq_before hfits hm hc] at h
  rw [step]
  cases hi : i.op with
  | read | const | commit | halt => exact absurd hop (by rw [hi]; decide)
  | add | sub | mul | mod | inv =>
    rw [hi] at h
    simp only [h, mapError_error, error_bind]

end Engine

end CircuitReceipts
