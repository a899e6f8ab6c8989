import CircuitReceipts.Proofs.Engine.Run
import CircuitReceipts.Proofs.Engine.Transition

/-!
# The points of a run

A run comes to a *point* after each row: the rows made so far and the machine before the next
instruction. Every run on whole words ends at a point, for a reason that can be read off there, and
its session is made of the rows and the journal of that point; the points it comes to are just the
prefixes of its trace.
-/

namespace CircuitReceipts

namespace Engine

/-- Whether a run comes to a machine after making the given rows. -/
inductive Reaches (l : Limits) (p : Program) (reader : WordReader) : List Row → Machine → Prop where
  | start : Reaches l p reader [] (.start p.registers.toNat reader)
  | step {rows : List Row} {row : Row} {m m' : Machine} {i : Instruction}
      (hreach : Reaches l p reader rows m) (hi : p.code[rows.length]? = some i)
      (hsession : (rows.length : Int) < l.session) (hgoes : Goes l m rows.length i row m') :
      Reaches l p reader (rows ++ [row]) m'

/-- Why a run ends at a machine after so many rows. -/
inductive Ends (l : Limits) (p : Program) (rows : Nat) (m : Machine) : Option Stop → Prop where
  | succeeds {i : Instruction} (hrows : rows = p.size) (hi : p.code[p.size - 1]? = some i)
      (hop : i.op = .halt) (ha : i.a = 0) : Ends l p rows m none
  | halts {i : Instruction} (hrows : rows = p.size) (hi : p.code[p.size - 1]? = some i)
      (hop : i.op = .halt) (ha : i.a ≠ 0) : Ends l p rows m (some (.halt (.asked i.a)))
  | exhausted (hrows : rows < p.size) (hsession : l.session ≤ rows) :
      Ends l p rows m (some (.fault (.sessionLimit l.session)))
  | stopped {i : Instruction} {s : Stop} (hi : p.code[rows]? = some i)
      (hsession : (rows : Int) < l.session) (hstops : Stops l m rows i s) :
      Ends l p rows m (some s)

variable {l : Limits} {p : Program} {reader : WordReader} {rows : List Row} {m : Machine}
  {imageId : Text} {input : Bytes}

theorem Reaches.le_size (h : Reaches l p reader rows m) : rows.length ≤ p.size := by
  cases h with
  | start => exact Nat.zero_le _
  | step hreach hi =>
    rw [List.length_append]
    exact (Array.getElem?_eq_some_iff.1 hi).1

theorem Reaches.le_session (h : Reaches l p reader rows m) :
    (rows.length : Int) ≤ max l.session 0 := by
  cases h with
  | start => simp
  | step hreach hi hsession =>
    rw [List.length_append, List.length_singleton]
    omega

theorem Reaches.length_registers (h : Reaches l p reader rows m) :
    m.registers.length = p.registers.toNat := by
  induction h with
  | start => simp [Machine.start]
  | step hreach hi hsession hgoes ih => rw [hgoes.length, ih]

/-- A property that zero, the constants of the program and all numbers within the limit have is one
of every register at every point, and of every number in the rows made so far. -/
theorem Reaches.forall_values {P : Nat → Prop} (h : Reaches l p reader rows m) (hzero : P 0)
    (hroom : ∀ v : Nat, (bitLength v : Int) ≤ l.registerBits → P v)
    (hconst : ∀ v, p.HasConstant v → P v) :
    (∀ v ∈ m.registers, P v) ∧
      ∀ row ∈ rows, ∀ v ∈ [row.lhs, row.rhs, row.value], 0 ≤ v ∧ P v.toNat := by
  induction h with
  | start =>
    refine ⟨fun v hv => ?_, fun row hrow => absurd hrow List.not_mem_nil⟩
    rw [List.eq_of_mem_replicate hv]
    exact hzero
  | step hreach hi hsession hgoes ih =>
    obtain ⟨hregisters, hrow⟩ :=
      hgoes.forall_values hzero hroom (fun hop => hconst _ ⟨_, _, hi, hop, rfl⟩) ih.1
    refine ⟨hregisters, fun row hmem => ?_⟩
    rcases List.mem_append.1 hmem with hmem | hmem
    · exact ih.2 row hmem
    · rwa [List.mem_singleton.1 hmem]

theorem Reaches.value_nonneg (h : Reaches l p reader rows m) {row : Row} (hrow : row ∈ rows) :
    0 ≤ row.value :=
  -- the numbers in the rows are natural, whatever else holds of them
  ((h.forall_values (P := fun _ => True) trivial (fun _ _ => trivial) fun _ _ => trivial).2 row
    hrow row.value (by simp)).1

theorem Reaches.header (h : Reaches l p reader rows m) {k : Nat} {row : Row}
    (hk : rows[k]? = some row) : ∃ i, p.code[k]? = some i ∧
      row.header = [(k : Int), (k : Int), (i.op.number : Int), i.a, i.b, i.c] := by
  induction h with
  | start => exact absurd hk (by simp)
  | @step rows last m m' i hreach hi hsession hgoes ih =>
    rw [List.getElem?_append] at hk
    split at hk
    · exact ih hk
    · next hle =>
      rw [List.getElem?_singleton] at hk
      split at hk
      · next hzero =>
        cases hk
        obtain rfl : k = rows.length := by omega
        exact ⟨i, hi, hgoes.header⟩
      · cases hk

theorem Reaches.take (h : Reaches l p reader rows m) (k : Nat) :
    ∃ m, Reaches l p reader (rows.take k) m := by
  induction h with
  | start => exact ⟨_, by rw [List.take_nil]; exact .start⟩
  | @step rows row m m' i hreach hi hsession hgoes ih =>
    rw [List.take_append]
    by_cases hk : k ≤ rows.length
    · rw [Nat.sub_eq_zero_of_le hk, List.take_zero, List.append_nil]
      exact ih
    · rw [List.take_of_length_le (by omega), List.take_of_length_le (by simp; omega)]
      exact ⟨m', .step hreach hi hsession hgoes⟩

/-- A run that has come to a point goes on from there. -/
theorem Reaches.runFrom_eq (hp : p.Loaded) (h : Reaches l p reader rows m)
    (hlt : rows.length < p.size) :
    runFrom l (.start p.registers.toNat reader) 0 p.code.toList =
      (rows ++ (runFrom l m rows.length (p.code.toList.drop rows.length)).1,
        (runFrom l m rows.length (p.code.toList.drop rows.length)).2) := by
  induction h with
  | start => rw [List.length_nil, List.drop_zero, List.nil_append]
  | @step rows row m m' i hreach hi hsession hgoes ih =>
    rw [List.length_append, List.length_singleton] at hlt ⊢
    have hhalt : i.op ≠ .halt := fun hop => by
      have := (hp.halt_iff hi).1 hop
      omega
    rw [ih (by omega), drop_eq_cons hi, runFrom, if_neg (Int.not_le.2 hsession),
      step_eq_ok_iff.2 hgoes]
    simp only [if_neg hhalt, List.append_assoc, List.singleton_append]

/-- A run that comes past the last instruction ends with the code of its halt. -/
theorem Reaches.runFrom_eq_of_length (hp : p.Loaded) (h : Reaches l p reader rows m)
    (hrows : rows.length = p.size) {i : Instruction} (hi : p.code[p.size - 1]? = some i) :
    runFrom l (.start p.registers.toNat reader) 0 p.code.toList =
      (rows, m.journal, if i.a = 0 then none else some (.halt (.asked i.a))) := by
  cases h with
  | start => exact absurd hrows (Nat.ne_of_lt hp.size_pos)
  | @step rows row m m' i' hreach hi' hsession hgoes =>
    rw [List.length_append, List.length_singleton] at hrows
    rw [← hrows, Nat.add_sub_cancel, hi', Option.some.injEq] at hi
    subst hi
    rw [hreach.runFrom_eq hp (by omega), drop_eq_cons hi', runFrom,
      if_neg (Int.not_le.2 hsession), step_eq_ok_iff.2 hgoes]
    simp only [if_pos ((hp.halt_iff hi').2 hrows)]

/-- Where a run comes to a point at which it ends, its rows and journal are those of this point. -/
theorem Reaches.runFrom_eq_of_ends (hp : p.Loaded) (h : Reaches l p reader rows m)
    {stop : Option Stop} (hends : Ends l p rows.length m stop) :
    runFrom l (.start p.registers.toNat reader) 0 p.code.toList = (rows, m.journal, stop) := by
  cases hends with
  | succeeds hrows hi hop ha => rw [h.runFrom_eq_of_length hp hrows hi, if_pos ha]
  | halts hrows hi hop ha => rw [h.runFrom_eq_of_length hp hrows hi, if_neg ha]
  | exhausted hrows hsession =>
    obtain ⟨i, hi⟩ := Code.exists_instruction hrows
    rw [h.runFrom_eq hp hrows, drop_eq_cons hi, runFrom, if_pos hsession, List.append_nil]
  | stopped hi hsession hstops =>
    have hrows : rows.length < p.size := (Array.getElem?_eq_some_iff.1 hi).1
    rw [h.runFrom_eq hp hrows, drop_eq_cons hi, runFrom, if_neg (Int.not_le.2 hsession),
      step_eq_error_iff.2 hstops]
    simp only [List.append_nil]

theorem Reaches.exists_end (hp : p.Loaded) {n : Nat} :
    ∀ {rows : List Row} {m : Machine}, Reaches l p reader rows m → rows.length + n = p.size →
      ∃ rows' m' stop, Reaches l p reader rows' m' ∧ Ends l p rows'.length m' stop := by
  -- by induction on the number of instructions left
  induction n with
  | zero =>
    intro rows m hreach hrows
    obtain ⟨i, hi, hop⟩ := exists_last hp
    by_cases ha : i.a = 0
    · exact ⟨rows, m, _, hreach, .succeeds hrows hi hop ha⟩
    · exact ⟨rows, m, _, hreach, .halts hrows hi hop ha⟩
  | succ n ih =>
    intro rows m hreach hrows
    have hlt : rows.length < p.size := by omega
    obtain ⟨i, hi⟩ := Code.exists_instruction hlt
    by_cases hsession : l.session ≤ rows.length
    · exact ⟨rows, m, _, hreach, .exhausted hlt hsession⟩
    have hsession' : (rows.length : Int) < l.session := Int.not_le.1 hsession
    cases hstep : Engine.step l m rows.length i with
    | error s =>
      exact ⟨rows, m, _, hreach, .stopped hi hsession' (step_eq_error_iff.1 hstep)⟩
    | ok result =>
      refine ih (hreach.step hi hsession' (step_eq_ok_iff.1 hstep)) ?_
      rw [List.length_append, List.length_singleton]
      omega

/-- A run that comes to a point at which it ends goes so far. -/
theorem Reaches.outcome_eq (hp : p.Loaded) (hreader : WordReader.ofBytes input = .ok reader)
    (h : Reaches l p reader rows m) {stop : Option Stop} (hends : Ends l p rows.length m stop) :
    outcome l p input = (rows, m.journal, stop) := by
  rw [Engine.outcome_eq l p hreader, h.runFrom_eq_of_ends hp hends]

theorem Reaches.run_eq (hp : p.Loaded) (hreader : WordReader.ofBytes input = .ok reader)
    (h : Reaches l p reader rows m) {stop : Option Stop} (hends : Ends l p rows.length m stop) :
    run l imageId p input = ended imageId rows m.journal stop :=
  run_of_outcome (h.outcome_eq hp hreader hends)

/-- A run on whole words ends at a point that it comes to, with the rows and the journal there. -/
theorem exists_outcome_eq (l : Limits) (hp : p.Loaded)
    (hreader : WordReader.ofBytes input = .ok reader) :
    ∃ rows m stop, Reaches l p reader rows m ∧ Ends l p rows.length m stop ∧
      outcome l p input = (rows, m.journal, stop) := by
  have hstart : Reaches l p reader [] (.start p.registers.toNat reader) := .start
  obtain ⟨rows, m, stop, hreach, hends⟩ := hstart.exists_end hp (Nat.zero_add _)
  exact ⟨rows, m, stop, hreach, hends, hreach.outcome_eq hp hreader hends⟩

theorem exists_run_eq_ended (l : Limits) (imageId : Text) (hp : p.Loaded)
    (hreader : WordReader.ofBytes input = .ok reader) :
    ∃ rows m stop, Reaches l p reader rows m ∧ Ends l p rows.length m stop ∧
      run l imageId p input = ended imageId rows m.journal stop := by
  obtain ⟨rows, m, stop, hreach, hends, houtcome⟩ := exists_outcome_eq l hp hreader
  exact ⟨rows, m, stop, hreach, hends, run_of_outcome houtcome⟩

theorem Reaches.isPrefix (imageId : Text) (hp : p.Loaded)
    (hreader : WordReader.ofBytes input = .ok reader) (h : Reaches l p reader rows m) :
    rows <+: (run l imageId p input).trace := by
  rw [trace_run, Engine.outcome_eq l p hreader]
  rcases Nat.lt_or_eq_of_le h.le_size with hlt | hrows
  · rw [h.runFrom_eq hp hlt]
    exact List.prefix_append _ _
  · obtain ⟨i, hi, -⟩ := exists_last hp
    simp only [h.runFrom_eq_of_length hp hrows hi, List.prefix_refl]

theorem exists_reaches_iff (hp : p.Loaded) (hreader : WordReader.ofBytes input = .ok reader) :
    (∃ m, Reaches l p reader rows m) ↔ rows <+: (run l imageId p input).trace := by
  constructor
  · rintro ⟨m, h⟩
    exact h.isPrefix imageId hp hreader
  · intro h
    obtain ⟨rows', m, stop, hreach, -, hrun⟩ := exists_run_eq_ended l imageId hp hreader
    rw [hrun, trace_ended] at h
    rw [List.prefix_iff_eq_take.1 h]
    exact hreach.take _

end Engine

end CircuitReceipts
