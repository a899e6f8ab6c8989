import CircuitReceipts.Proofs.Receipt.Acceptance

/-!
# Traces and the checks on rows

The engine keeps registers and walks forward through a program; the checks on rows keep nothing and
look backward for the last writer of a register. Both describe the same rows. What a run leaves,
however it ends, passes the checks row by row, each row against those before it. And a whole trace
of rows that pass them is the one that a run leaves on the numbers the trace has read: the values
of its rows are consistent, so a run reproduces them.
-/

namespace CircuitReceipts

namespace Row

def Natural (r : Row) : Prop :=
  0 ≤ r.lhs ∧ 0 ≤ r.rhs ∧ 0 ≤ r.value

instance (r : Row) : Decidable r.Natural :=
  inferInstanceAs (Decidable (0 ≤ r.lhs ∧ 0 ≤ r.rhs ∧ 0 ≤ r.value))

/-- The rows of a trace under their places. -/
def numbered (rs : List Row) (index : Int) : Option Row :=
  if 0 ≤ index then rs[index.toNat]? else none

@[simp] theorem numbered_natCast (rs : List Row) (pc : Nat) :
    numbered rs pc = rs[pc]? := by
  rw [numbered, if_pos (Int.natCast_nonneg pc), Int.toNat_natCast]

/-- The numbers that the rows of a trace have read, in order. -/
def readings (rs : List Row) : List Nat :=
  (rs.filter fun r => r.opcode = (Opcode.read.number : Int)).map fun r => r.value.toNat

/-- The number that the row at a place of a trace produced. -/
def produced (rs : List Row) (pc : Nat) : Nat :=
  ((rs[pc]?.map Row.value).getD 0).toNat

theorem produced_eq {rs : List Row} {pc : Nat} {row : Row} (hrow : rs[pc]? = some row) :
    produced rs pc = row.value.toNat := by
  rw [produced, hrow]
  rfl

end Row

namespace Code

variable {code : Code} {values : Nat → Nat} {pc : Nat} {i : Instruction} {rows : Int → Option Row}
  {row : Row} {rs : List Row}

/-- Whether a row stands at its place, executes the instruction there, and consumed what the given
rows define. -/
structure Accepts (code : Code) (rows : Int → Option Row) (pc : Nat) (row : Row) : Prop where
  cycle_eq : row.cycle = pc
  pc_eq : row.pc = pc
  executes : ∃ i, code.instructionAt pc = .ok i ∧ row.executes i = true
  sources : code.checkSources rows pc row = .ok true

theorem instructionAt_eq_ok : code.instructionAt pc = .ok i ↔ code[pc]? = some i := by
  rw [instructionAt_natCast]
  cases code[pc]? <;> simp

theorem accepts_iff (hi : code[pc]? = some i) :
    code.Accepts rows pc row ↔ row.cycle = pc ∧ row.pc = pc ∧ row.executes i = true ∧
      code.sourced rows pc row i = true := by
  have hat := instructionAt_eq_ok.2 hi
  have hsources : code.checkSources rows pc row = .ok true ↔
      code.sourced rows pc row i = true := by
    rw [checkSources, hat, Except.map, Except.ok.injEq]
  constructor
  · rintro ⟨hcycle, hpc, ⟨i', hi', hexecutes⟩, hs⟩
    cases hat.symm.trans hi'
    exact ⟨hcycle, hpc, hexecutes, hsources.1 hs⟩
  · rintro ⟨hcycle, hpc, hexecutes, hs⟩
    exact ⟨hcycle, hpc, ⟨i, hat, hexecutes⟩, hsources.2 hs⟩

theorem accepts_rowOf (hi : code[pc]? = some i) (hproduces : code.Produces values pc i)
    (hrows : ∀ w ∈ code.sources pc, rows (w : Int) = some (code.rowAt values w)) :
    code.Accepts rows pc (code.rowOf values pc i) := by
  have hheader : (code.rowOf values pc i).header = _ := header_rowOf pc i
  simp only [Row.header, List.cons.injEq] at hheader
  have hchecks := Receipt.executes_and_sourced_rowAt rows hi hproduces hrows
  rw [rowAt_eq hi] at hchecks
  exact (accepts_iff hi).2 ⟨hheader.1, hheader.2.1, hchecks⟩

theorem getElem?_rows_eq_rowAt (hpc : pc < code.size) :
    (code.rows values)[pc]? = some (code.rowAt values pc) := by
  obtain ⟨i, hi⟩ := exists_instruction hpc
  rw [getElem?_rows, hi, Option.map_some, rowAt_eq hi]

theorem accepts_rows (hvalues : ∀ pc < code.size, code.Consistent values pc)
    (hrow : (code.rows values)[pc]? = some row) :
    code.Accepts (Row.numbered (code.rows values)) pc row := by
  have hpc : pc < code.size := by
    have := (List.getElem?_eq_some_iff.1 hrow).1
    rwa [length_rows] at this
  obtain ⟨i, hi, hproduces⟩ := hvalues pc hpc
  obtain rfl : code.rowOf values pc i = row := by
    rwa [getElem?_rows, hi, Option.map_some, Option.some.injEq] at hrow
  refine accepts_rowOf hi hproduces fun w hw => ?_
  rw [Row.numbered_natCast, getElem?_rows_eq_rowAt (Nat.lt_trans (lt_of_mem_sources hw) hpc)]

theorem readings_rows (code : Code) (values : Nat → Nat) :
    Row.readings (code.rows values) = (code.positions .read code.size).map values := by
  have hfilter : (List.range code.size).filter
      ((fun r => decide (r.opcode = (Opcode.read.number : Int))) ∘ code.rowAt values) =
        code.positions .read code.size := filter_rowAt code values .read
  rw [Row.readings, rows_eq_map_rowAt, List.filter_map, hfilter, List.map_map]
  refine List.map_congr_left fun pc _ => ?_
  rw [Function.comp_apply, value_rowAt, Int.toNat_natCast]

/-- A row of a trace of natural numbers that passes the checks against the trace is the row of what
the trace has produced. -/
theorem rowOf_of_accepts (hi : code[pc]? = some i) (hnatural : ∀ row ∈ rs, row.Natural)
    (hrow : rs[pc]? = some row) (haccepts : code.Accepts (Row.numbered rs) pc row) :
    row = code.rowOf (Row.produced rs) pc i ∧ code.Produces (Row.produced rs) pc i := by
  have hvalue {w : Nat} {r : Row} (hr : rs[w]? = some r) : r.value = Row.produced rs w := by
    rw [Row.produced_eq hr, Int.toNat_of_nonneg (hnatural r (List.mem_of_getElem? hr)).2.2]
  have hsources : ∀ w ∈ code.sources pc, ∃ s, Row.numbered rs (w : Int) = some s ∧
      s.value = Row.produced rs w := by
    intro w hw
    have hlt : w < rs.length :=
      Nat.lt_trans (lt_of_mem_sources hw) (List.getElem?_eq_some_iff.1 hrow).1
    rw [Row.numbered_natCast, List.getElem?_eq_getElem hlt]
    exact ⟨_, rfl, hvalue (List.getElem?_eq_getElem hlt)⟩
  obtain ⟨hlhs, hrhs, -⟩ := hnatural row (List.mem_of_getElem? hrow)
  obtain ⟨hcycle, hpc, hchecks⟩ := (accepts_iff hi).1 haccepts
  exact (executes_and_sourced_iff hi hcycle hpc (Int.toNat_of_nonneg hlhs).symm
    (Int.toNat_of_nonneg hrhs).symm (hvalue hrow) hsources).1 hchecks

/-- A whole trace of natural numbers whose rows pass the checks against each other is the trace of
consistent values. -/
theorem rows_of_accepts (hlen : rs.length = code.size) (hnatural : ∀ row ∈ rs, row.Natural)
    (haccepts : ∀ {pc : Nat} {row : Row}, rs[pc]? = some row →
      code.Accepts (Row.numbered rs) pc row) :
    rs = code.rows (Row.produced rs) ∧
      ∀ pc < code.size, code.Consistent (Row.produced rs) pc := by
  have hrow {pc : Nat} (hpc : pc < code.size) : ∃ row, rs[pc]? = some row :=
    ⟨_, List.getElem?_eq_getElem (hlen ▸ hpc)⟩
  constructor
  · refine List.ext_getElem? fun pc => ?_
    rcases Nat.lt_or_ge pc code.size with hpc | hpc
    · obtain ⟨i, hi⟩ := exists_instruction hpc
      obtain ⟨row, hrow⟩ := hrow hpc
      rw [hrow, getElem?_rows, hi, Option.map_some,
        (rowOf_of_accepts hi hnatural hrow (haccepts hrow)).1]
    · rw [List.getElem?_eq_none (by omega), List.getElem?_eq_none (by simpa using hpc)]
  · intro pc hpc
    obtain ⟨i, hi⟩ := exists_instruction hpc
    obtain ⟨row, hrow⟩ := hrow hpc
    exact ⟨i, hi, (rowOf_of_accepts hi hnatural hrow (haccepts hrow)).2⟩

end Code

namespace Engine

variable {l : Limits} {p : Program} {a : Artifact} {input : Bytes} {s : Session} {rs : List Row}

/-- Whatever ends a run, each row it has recorded passes the checks against the rows recorded
before. -/
theorem accepts_of_run (hp : p.Loaded) {imageId : Text} {pc : Nat} {row : Row}
    (hrow : (run l imageId p input).trace[pc]? = some row) :
    p.code.Accepts (Row.numbered ((run l imageId p input).trace.take pc)) pc row := by
  rw [trace_run] at hrow ⊢
  rcases hreader : WordReader.ofBytes input with e | reader
  · rw [outcome_of_unreadable l p hreader] at hrow
    exact absurd hrow (by simp)
  rw [outcome_eq l p hreader] at hrow ⊢
  cases hrun : runFrom l (.start p.registers.toNat reader) 0 p.code.toList with
  | mk rows tail =>
  obtain ⟨journal, stop⟩ := tail
  rw [hrun] at hrow
  dsimp only at hrow ⊢
  have hvalues {j : Nat} {r : Row} (hj : rows[j]? = some r) :
      r.value.toNat = Row.produced rows (0 + j) := by
    rw [Nat.zero_add, Row.produced_eq hj]
  obtain ⟨hfollows, -⟩ := runFrom_sound hp rfl (Nat.zero_le _)
    (Machine.holds_start p.registers reader) hrun hvalues
  obtain ⟨i, hi, hrowOf, hproduces⟩ := hfollows.rows hrow
  rw [Nat.zero_add] at hi hrowOf hproduces
  subst hrowOf
  refine Code.accepts_rowOf hi hproduces fun w hw => ?_
  -- A source was executed before, so its row stands among those recorded by then.
  have hwpc : w < pc := Code.lt_of_mem_sources hw
  have hwlen : w < rows.length := Nat.lt_trans hwpc (List.getElem?_eq_some_iff.1 hrow).1
  obtain ⟨k, hk, hsource, -⟩ := hfollows.rows (List.getElem?_eq_getElem hwlen)
  rw [Nat.zero_add] at hk hsource
  rw [Row.numbered_natCast, List.getElem?_take_of_lt hwpc, List.getElem?_eq_getElem hwlen, hsource,
    Code.rowAt_eq hk]

/-- A whole trace of rows with natural numbers passes the checks exactly if it is the trace of a
successful run on the numbers it has read. -/
theorem accepts_iff_run (hp : p.Loaded) (hend : EndsWell p) (imageId : Text)
    (hlen : rs.length = p.size)
    (hnatural : ∀ row ∈ rs, row.Natural)
    (hwritable : ∀ n ∈ Row.readings rs, Writable n) (hsession : (p.size : Int) ≤ l.session)
    (hbits : ∀ row ∈ rs, (bitLength row.value.toNat : Int) ≤ l.registerBits) :
    (∀ {pc : Nat} {row : Row}, rs[pc]? = some row →
        p.code.Accepts (Row.numbered rs) pc row) ↔
      ∃ journal, run l imageId p (encodeNats (Row.readings rs)) =
        .success imageId rs journal := by
  constructor
  · intro haccepts
    obtain ⟨htrace, hvalues⟩ := Code.rows_of_accepts hlen hnatural haccepts
    have hreadings : Row.readings rs =
        (p.code.positions .read p.size).map (Row.produced rs) := by
      conv_lhs => rw [htrace]
      exact Code.readings_rows p.code _
    have hallow : l.Allow (Row.produced rs) p.size := by
      refine ⟨hsession, fun k hk => ?_⟩
      have hrow := List.getElem?_eq_getElem (hlen ▸ hk : k < rs.length)
      rw [Row.produced_eq hrow]
      exact hbits _ (List.mem_of_getElem? hrow)
    rw [hreadings] at hwritable ⊢
    rcases run_of_consistent l imageId hp hend (WordReader.ofBytes_encodeNats _)
      (supplies_words hwritable) hvalues with hrun | ⟨hlimit, -⟩
    · rw [← htrace] at hrun
      exact ⟨_, hrun⟩
    · exact absurd hallow hlimit
  · rintro ⟨journal, hrun⟩ pc row hrow
    obtain ⟨-, values, hs, hvalues⟩ := of_run_success hp hrun rfl
    have htrace : rs = p.code.rows values := congrArg Session.trace hs
    rw [htrace] at hrow ⊢
    exact Code.accepts_rows hvalues hrow

/-- The checks on rows are the semantics of the engine. For a program that ends with a halt of code
zero, a trace of natural numbers that is as long as the program passes them, against all its rows,
exactly if it is the trace of a successful run on the numbers it has read, under all limits that
leave room for the program and its values; only the memory limits what is read, whose limbs have to
be counted in one word. And for every program, limits and input, each row that a run has recorded,
however it ended, passes them against the rows recorded before it; the record is the session, if the
host can tell how the run ended. -/
theorem accepts_iff_execute (hload : Program.load a.blob = .ok p) :
    (EndsWell p → ∀ (host : Host) (l : Limits) (rs : List Row), rs.length = p.size →
      (∀ row ∈ rs, row.Natural) →
      (∀ n ∈ Row.readings rs, Writable n) → (p.size : Int) ≤ l.session →
      (∀ row ∈ rs, (bitLength row.value.toNat : Int) ≤ l.registerBits) →
      ((∀ (pc : Nat) (row : Row), rs[pc]? = some row →
          p.code.Accepts (Row.numbered rs) pc row) ↔
        ∃ journal, execute host l a (encodeNats (Row.readings rs)) =
          .ok (.success a.imageId rs journal))) ∧
    ∀ (host : Host) (l : Limits) (input : Bytes),
      (execute host l a input = if host.Tells (shown l p input) then .ok (run l a.imageId p input)
        else .error (.misuse .tooManyDigits)) ∧
      ∀ (pc : Nat) (row : Row), (run l a.imageId p input).trace[pc]? = some row →
        p.code.Accepts (Row.numbered ((run l a.imageId p input).trace.take pc)) pc row := by
  have hp := Program.loaded_of_load hload
  refine ⟨fun hend host l rs hlen hnatural hwritable hsession hbits => ?_, fun host l input => ?_⟩
  · simp only [execute_eq_success_iff hload]
    exact ⟨fun h => (accepts_iff_run hp hend a.imageId hlen hnatural hwritable hsession hbits).1
        (h _ _),
      fun h _ _ => (accepts_iff_run hp hend a.imageId hlen hnatural hwritable hsession hbits).2 h⟩
  · exact ⟨execute_of_load hload host l input, fun pc row hrow => accepts_of_run hp hrow⟩

/-- The trace of the inverse of three modulo seven. -/
theorem accepts_iff_execute_modinv :
    let rs : List Row := [⟨0, 0, 1, 0, 0, 0, 0, 0, 3⟩, ⟨1, 1, 1, 1, 0, 0, 0, 0, 7⟩,
      ⟨2, 2, 7, 2, 0, 1, 3, 7, 5⟩, ⟨3, 3, 8, 2, 0, 0, 0, 0, 5⟩, ⟨4, 4, 9, 0, 0, 0, 0, 0, 0⟩]
    (∀ (pc : Nat) (row : Row), rs[pc]? = some row →
        Operation.modinv.program.code.Accepts (Row.numbered rs) pc row) ∧
      ∃ journal, execute .standard .standard Operation.modinv.artifact
          (encodeNats (Row.readings rs)) =
        .ok (.success Operation.modinv.artifact.imageId rs journal) := by
  intro rs
  have hnatural : ∀ row ∈ rs, row.Natural := by decide
  have hread : ∀ n ∈ Row.readings rs, n < 0x100000000 := by decide
  have hbits : ∀ row ∈ rs, (bitLength row.value.toNat : Int) ≤ Limits.standard.registerBits := by
    decide
  have haccepts (pc : Nat) (row : Row) (hrow : rs[pc]? = some row) :
      Operation.modinv.program.code.Accepts (Row.numbered rs) pc row := by
    rcases pc with _ | _ | _ | _ | _ | pc
    all_goals cases hrow
    all_goals exact ⟨rfl, rfl, ⟨_, rfl, by decide⟩, by rfl⟩
  exact ⟨haccepts, ((accepts_iff_execute Operation.modinv.load_blob).1
    Operation.modinv.endsWell_program .standard .standard rs rfl hnatural
    (fun n hn => writable_of_lt (hread n hn)) (by decide) hbits).1 haccepts⟩

end Engine

end CircuitReceipts
