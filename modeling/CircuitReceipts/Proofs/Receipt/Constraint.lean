import CircuitReceipts.Proofs.Circuit.Evaluation
import CircuitReceipts.Proofs.Value.Inverse
import CircuitReceipts.Receipt.Constraint

/-!
# Row constraints and consistent values

The two checks on a row, that it executes its instruction and that it consumed what its sources
wrote, hold exactly when it is the row of consistent values. So the checks say what a run of the
circuit does, row by row, without running it.
-/

namespace CircuitReceipts

/-- The constraint on the values of a computing instruction holds exactly when the engine computes
the one value from the other two. -/
theorem Row.satisfies_iff_compute {r : Row} {op : Opcode} {b : Int} {lhs rhs value : Nat}
    (hop : op.isBinary = true) (hlhs : r.lhs = lhs) (hrhs : r.rhs = rhs)
    (hvalue : r.value = value) : r.satisfies op b = true ↔ compute op lhs rhs = .ok value := by
  cases op with
  | read | const | commit | halt => exact absurd hop (by decide)
  | add =>
    simp only [satisfies, compute, hlhs, hrhs, hvalue, decide_eq_true_eq, Except.ok.injEq]
    omega
  | sub =>
    simp only [satisfies, compute, hlhs, hrhs, hvalue, decide_eq_true_eq]
    by_cases h : lhs < rhs
    · rw [if_pos h]
      simp only [reduceCtorEq, iff_false]
      omega
    · rw [if_neg h, Except.ok.injEq]
      omega
  | mul =>
    simp only [satisfies, compute, hlhs, hrhs, hvalue, decide_eq_true_eq, Except.ok.injEq]
    rw [← Int.natCast_mul, Int.natCast_inj]
    exact eq_comm
  | mod =>
    simp only [satisfies, compute, hlhs, hrhs, hvalue, decide_eq_true_eq]
    by_cases h : rhs = 0
    · simp [h]
    · rw [if_neg h, Except.ok.injEq, Int.fmod_eq_emod_of_nonneg _ (Int.natCast_nonneg rhs),
        ← Int.natCast_emod, Int.natCast_inj]
      simp only [ne_eq, Int.natCast_eq_zero, h, not_false_eq_true, true_and]
      exact eq_comm
  | inv =>
    simp only [satisfies, compute, hlhs, hrhs, hvalue, decide_eq_true_eq]
    by_cases h : rhs = 0
    · simp [h]
    · have hmod :
          (lhs * value : Int).fmod rhs = (1 : Int).fmod rhs ↔ lhs * value ≡ 1 [MOD rhs] := by
        rw [Int.fmod_eq_emod_of_nonneg _ (Int.natCast_nonneg rhs),
          Int.fmod_eq_emod_of_nonneg _ (Int.natCast_nonneg rhs), ← Int.natCast_modEq_iff]
        push_cast
        rfl
      rw [if_neg h, hmod]
      simp only [ne_eq, Int.natCast_eq_zero, h, not_false_eq_true, true_and, Int.ofNat_lt,
        ← inverseMod?_eq_some_iff]
      cases inverseMod? lhs rhs <;> simp

namespace Code

variable {code : Code} {values : Nat → Nat} {pc : Nat} {i : Instruction} {rows : Int → Option Row}

/-- Where the rows of the sources hold given values, the rows define the registers that an
instruction reads as they are before it. -/
theorem defined?_eq_some (hi : code[pc]? = some i)
    (hrows : ∀ w ∈ code.sources pc, ∃ s, rows (w : Int) = some s ∧ s.value = values w)
    {register : Int} (hr : register ∈ i.reads) :
    code.defined? rows pc register = some (code.before values register pc : Int) := by
  rw [defined?, before, Int.toNat_natCast]
  cases hw : code.lastWriter register pc with
  | none => rfl
  | some w =>
    obtain ⟨s, hs, hvalue⟩ := hrows w (mem_sources hi hr hw)
    simp [hs, hvalue]

/-- A row passes both checks exactly when it is the row of its instruction and its value is
consistent with the values of its sources. -/
theorem executes_and_sourced_iff {r : Row} {lhs rhs : Nat} (hi : code[pc]? = some i)
    (hcycle : r.cycle = pc) (hpc : r.pc = pc) (hlhs : r.lhs = lhs) (hrhs : r.rhs = rhs)
    (hvalue : r.value = values pc)
    (hrows : ∀ w ∈ code.sources pc, ∃ s, rows (w : Int) = some s ∧ s.value = values w) :
    (r.executes i = true ∧ code.sourced rows pc r i = true) ↔
      r = code.rowOf values pc i ∧ code.Produces values pc i := by
  have hdefined {register : Int} (hr : register ∈ i.reads) := defined?_eq_some hi hrows hr
  obtain ⟨cycle, place, opcode, a, b, c, l, r', v⟩ := r
  simp only at hcycle hpc hlhs hrhs hvalue
  subst hcycle hpc hlhs hrhs hvalue
  cases hbinary : i.op.isBinary with
  | true =>
    have hb : i.b ∈ i.reads := by simp [Instruction.reads, hbinary]
    have hc : i.c ∈ i.reads := by simp [Instruction.reads, hbinary]
    have hreads : i.reads = [i.b, i.c] := by simp [Instruction.reads, hbinary]
    have hcommit : i.op ≠ .commit := by
      intro h
      rw [h] at hbinary
      exact absurd hbinary (by decide)
    have hproduces : code.Produces values pc i ↔
        compute i.op (code.before values i.b pc) (code.before values i.c pc) = .ok (values pc) := by
      rw [Produces]
      cases hop : i.op <;> simp_all [Opcode.isBinary]
    rw [hproduces, Row.executes, Bool.and_eq_true, sourced, hreads]
    simp only [Row.consumed, if_neg hcommit, List.zip_cons_cons, List.zip_nil_left, List.all_cons,
      List.all_nil, Bool.and_true, Bool.and_eq_true, decide_eq_true_eq, hdefined hb, hdefined hc,
      Option.some.injEq, Int.natCast_inj]
    rw [Row.satisfies_iff_compute hbinary rfl rfl rfl, rowOf, if_pos hbinary]
    simp only [Row.repeats, decide_eq_true_eq, Instruction.row, Row.mk.injEq, true_and,
      Int.natCast_inj]
    constructor
    · rintro ⟨⟨⟨h1, h2, h3, h4⟩, h5⟩, rfl, rfl⟩
      exact ⟨⟨h1, h2, h3, h4, rfl, rfl, trivial⟩, h5⟩
    · rintro ⟨⟨h1, h2, h3, h4, rfl, rfl, -⟩, h5⟩
      exact ⟨⟨⟨h1, h2, h3, h4⟩, h5⟩, rfl, rfl⟩
  | false =>
    rw [Row.executes, Bool.and_eq_true, rowOf, hbinary, sourced, Produces]
    cases hop : i.op with
    | add | sub | mul | mod | inv => exact absurd hbinary (by rw [hop]; decide)
    | commit =>
      have ha : i.a ∈ i.reads := by simp [Instruction.reads, hop, Opcode.isBinary]
      have hreads : i.reads = [i.a] := by simp [Instruction.reads, hop, Opcode.isBinary]
      simp only [hop, hreads, hdefined ha, Row.repeats, Row.satisfies, Row.consumed, if_true,
        List.zip_cons_cons, List.zip_nil_right, List.all_cons, List.all_nil, Bool.and_true,
        decide_eq_true_eq, Option.some.injEq, Int.natCast_inj, Int.natCast_eq_zero,
        Bool.false_eq_true, if_false, Instruction.row, Nat.cast_zero, Row.mk.injEq]
      tauto
    | read | const | halt =>
      have hreads : i.reads = [] := by simp [Instruction.reads, hop, Opcode.isBinary]
      simp only [hop, hreads, Row.repeats, Row.satisfies, List.zip_nil_left, List.all_nil,
        decide_eq_true_eq, Int.natCast_eq_zero, Bool.false_eq_true, if_false, Instruction.row,
        Nat.cast_zero, Row.mk.injEq, eq_comm (a := i.b)]
      tauto

end Code

end CircuitReceipts
