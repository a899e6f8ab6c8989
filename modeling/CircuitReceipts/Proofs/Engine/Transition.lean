import CircuitReceipts.Proofs.Engine.Step

/-!
# Transitions of the engine

What one step can do, as rules: an instruction *makes* a number, which it takes from the input or
computes; a step *goes* to a row and a machine, or *stops*. A step of the engine goes exactly where
the rules say and stops exactly for the reasons they give, so whatever is to be shown of every step
is shown of each rule.
-/

namespace CircuitReceipts

namespace Engine

/-- Whether an instruction takes a number from the input or computes it, in which case the number
has to have room in a register. -/
inductive Makes (m : Machine) (i : Instruction) : Nat → Prop where
  | read {v : Nat} {input : WordReader} (hop : i.op = .read)
      (hread : m.input.integer = (.ok v, input)) : Makes m i v
  | computed {v : Nat} (hop : i.op.isBinary = true)
      (hcompute : compute i.op (m.get i.b) (m.get i.c) = .ok v) : Makes m i v

/-- The rules by which a step makes a row. -/
inductive Goes (l : Limits) (m : Machine) (pc : Nat) (i : Instruction) : Row → Machine → Prop where
  | read {v : Nat} {input : WordReader} (hop : i.op = .read)
      (hread : m.input.integer = (.ok v, input)) (hbits : (bitLength v : Int) ≤ l.registerBits) :
      Goes l m pc i (i.row pc 0 0 v) (({ m with input } : Machine).set i.a v)
  | const (hop : i.op = .const) :
      Goes l m pc i (i.row pc 0 0 i.b.toNat) (m.set i.a i.b.toNat)
  | commit (hop : i.op = .commit) :
      Goes l m pc i (i.row pc 0 0 (m.get i.a))
        { m with journal := m.journal ++ encodeNat (m.get i.a) }
  | halt (hop : i.op = .halt) : Goes l m pc i (i.row pc 0 0 0) m
  | computed {v : Nat} (hop : i.op.isBinary = true)
      (hcompute : compute i.op (m.get i.b) (m.get i.c) = .ok v)
      (hbits : (bitLength v : Int) ≤ l.registerBits) :
      Goes l m pc i (i.row pc (m.get i.b) (m.get i.c) v) (m.set i.a v)

/-- The rules by which a step stops a run. -/
inductive Stops (l : Limits) (m : Machine) (pc : Nat) (i : Instruction) : Stop → Prop where
  | unreadable {e : DecodeError} {input : WordReader} (hop : i.op = .read)
      (hread : m.input.integer = (.error e, input)) : Stops l m pc i (.halt .unreadableInput)
  | undefined {reason : Halt} (hop : i.op.isBinary = true)
      (hcompute : compute i.op (m.get i.b) (m.get i.c) = .error reason) :
      Stops l m pc i (.halt reason)
  | oversize {v : Nat} (hmakes : Makes m i v) (hbits : l.registerBits < bitLength v) :
      Stops l m pc i (.fault (.registerSize (bitLength v) pc l.registerBits))

variable {l : Limits} {m m' : Machine} {pc : Nat} {i : Instruction} {row : Row} {s : Stop}

theorem step_of_isBinary (l : Limits) (m : Machine) (pc : Nat) (hop : i.op.isBinary = true) :
    step l m pc i = (do
      let v ← (compute i.op (m.get i.b) (m.get i.c)).mapError .halt
      let m' ← store l m pc i.a v
      return (i.row pc (m.get i.b) (m.get i.c) v, m')) := by
  rw [step]
  cases hi : i.op with
  | read | const | commit | halt => exact absurd hop (by rw [hi]; decide)
  | add | sub | mul | mod | inv => rfl

theorem store_eq_error {r : Int} {v : Nat} :
    store l m pc r v = .error s ↔
      l.registerBits < bitLength v ∧
        s = .fault (.registerSize (bitLength v) pc l.registerBits) := by
  rw [store]
  split
  · next h => simp [h, eq_comm]
  · next h => simp [h]

theorem step_eq_ok_iff : step l m pc i = .ok (row, m') ↔ Goes l m pc i row m' := by
  constructor
  · intro h
    cases hop : i.op with
    | read =>
      simp only [step, hop] at h
      split at h
      · exact absurd h (by simp)
      next v input hread =>
      simp only [bind_eq_ok, store_eq_ok, pure_eq_ok, Prod.mk.injEq] at h
      obtain ⟨_, ⟨hbits, rfl⟩, rfl, rfl⟩ := h
      exact .read hop hread hbits
    | const =>
      simp only [step, hop, Except.ok.injEq, Prod.mk.injEq] at h
      obtain ⟨rfl, rfl⟩ := h
      exact .const hop
    | commit =>
      simp only [step, hop, Except.ok.injEq, Prod.mk.injEq] at h
      obtain ⟨rfl, rfl⟩ := h
      exact .commit hop
    | halt =>
      simp only [step, hop, Except.ok.injEq, Prod.mk.injEq] at h
      obtain ⟨rfl, rfl⟩ := h
      exact .halt hop
    | add | sub | mul | mod | inv =>
      have hbinary : i.op.isBinary = true := by rw [hop]; rfl
      simp only [step_of_isBinary l m pc hbinary, bind_eq_ok, mapError_eq_ok, store_eq_ok,
        pure_eq_ok, Prod.mk.injEq] at h
      obtain ⟨v, hcompute, _, ⟨hbits, rfl⟩, rfl, rfl⟩ := h
      exact .computed hbinary hcompute hbits
  · rintro (⟨hop, hread, hbits⟩ | hop | hop | hop | ⟨hop, hcompute, hbits⟩)
    · simp only [step, hop, hread, store_eq_ok.2 ⟨hbits, rfl⟩]
      rfl
    · simp only [step, hop]
    · simp only [step, hop]
    · simp only [step, hop]
    · rw [step_of_isBinary l m pc hop, hcompute, mapError_ok, ok_bind, store_eq_ok.2 ⟨hbits, rfl⟩]
      rfl

theorem step_eq_error_iff : step l m pc i = .error s ↔ Stops l m pc i s := by
  constructor
  · intro h
    cases hop : i.op with
    | read =>
      simp only [step, hop] at h
      split at h
      · next e input hread =>
        cases h
        exact .unreadable hop hread
      next v input hread =>
      rcases store_or_fault l { m with input } pc i.a v with hs | ⟨hbits, -⟩
      · rw [hs] at h
        cases h
      · rw [store_eq_error.2 ⟨hbits, rfl⟩, error_bind] at h
        cases h
        exact .oversize (.read hop hread) hbits
    | const | commit | halt => simp [step, hop] at h
    | add | sub | mul | mod | inv =>
      have hbinary : i.op.isBinary = true := by rw [hop]; rfl
      rw [step_of_isBinary l m pc hbinary] at h
      cases hcompute : compute i.op (m.get i.b) (m.get i.c) with
      | error reason =>
        rw [hcompute, mapError_error, error_bind] at h
        cases h
        exact .undefined hbinary hcompute
      | ok v =>
        rw [hcompute, mapError_ok, ok_bind] at h
        rcases store_or_fault l m pc i.a v with hs | ⟨hbits, -⟩
        · rw [hs] at h
          cases h
        · rw [store_eq_error.2 ⟨hbits, rfl⟩, error_bind] at h
          cases h
          exact .oversize (.computed hbinary hcompute) hbits
  · rintro (⟨hop, hread⟩ | ⟨hop, hcompute⟩ | ⟨hmakes, hbits⟩)
    · simp only [step, hop, hread]
    · rw [step_of_isBinary l m pc hop, hcompute, mapError_error, error_bind]
    · rcases hmakes with ⟨hop, hread⟩ | ⟨hop, hcompute⟩
      · simp only [step, hop, hread, store_eq_error.2 ⟨hbits, rfl⟩, error_bind]
      · rw [step_of_isBinary l m pc hop, hcompute, mapError_ok, ok_bind,
          store_eq_error.2 ⟨hbits, rfl⟩, error_bind]

theorem Goes.header (h : Goes l m pc i row m') :
    row.header = [(pc : Int), (pc : Int), (i.op.number : Int), i.a, i.b, i.c] := by
  cases h <;> rfl

variable {P : Nat → Prop}

theorem forall_get (hzero : P 0) (hm : ∀ v ∈ m.registers, P v) (r : Int) : P (m.get r) := by
  rw [Machine.get, List.getD_eq_getElem?_getD]
  cases hget : m.registers[r.toNat]? with
  | none => exact hzero
  | some v => exact hm v (List.mem_of_getElem? hget)

theorem forall_set {v : Nat} (hv : P v) (hm : ∀ v ∈ m.registers, P v) (r : Int) :
    ∀ w ∈ (m.set r v).registers, P w := fun w hw =>
  (List.mem_or_eq_of_mem_set hw).elim (hm w) fun h => h ▸ hv

/-- A property that zero, the constant of the instruction and all numbers within the limit have
passes from the registers before a step to those after it, and to the numbers in its row. -/
theorem Goes.forall_values (h : Goes l m pc i row m') (hzero : P 0)
    (hroom : ∀ v : Nat, (bitLength v : Int) ≤ l.registerBits → P v)
    (hconst : i.op = .const → P i.b.toNat) (hm : ∀ v ∈ m.registers, P v) :
    (∀ v ∈ m'.registers, P v) ∧ ∀ v ∈ [row.lhs, row.rhs, row.value], 0 ≤ v ∧ P v.toNat := by
  have hrow {lhs rhs value : Nat} (hlhs : P lhs) (hrhs : P rhs) (hvalue : P value) :
      ∀ v ∈ [(i.row pc lhs rhs value).lhs, (i.row pc lhs rhs value).rhs,
        (i.row pc lhs rhs value).value], 0 ≤ v ∧ P v.toNat := by
    intro v hv
    simp only [Instruction.row, List.mem_cons, List.not_mem_nil, or_false] at hv
    rcases hv with rfl | rfl | rfl
    · exact ⟨Int.natCast_nonneg _, hlhs⟩
    · exact ⟨Int.natCast_nonneg _, hrhs⟩
    · exact ⟨Int.natCast_nonneg _, hvalue⟩
  cases h with
  | read hop hread hbits =>
    exact ⟨forall_set (hroom _ hbits) hm _, hrow hzero hzero (hroom _ hbits)⟩
  | const hop => exact ⟨forall_set (hconst hop) hm _, hrow hzero hzero (hconst hop)⟩
  | commit hop => exact ⟨hm, hrow hzero hzero (forall_get hzero hm _)⟩
  | halt hop => exact ⟨hm, hrow hzero hzero hzero⟩
  | computed hop hcompute hbits =>
    exact ⟨forall_set (hroom _ hbits) hm _,
      hrow (forall_get hzero hm _) (forall_get hzero hm _) (hroom _ hbits)⟩

theorem Goes.length (h : Goes l m pc i row m') : m'.registers.length = m.registers.length := by
  cases h <;> simp [Machine.set]

end Engine

end CircuitReceipts
