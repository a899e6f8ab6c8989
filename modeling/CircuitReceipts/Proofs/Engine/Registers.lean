import CircuitReceipts.Proofs.Engine.Reach
import CircuitReceipts.Proofs.Receipt.Trace

/-!
# Registers and last writers

The engine overwrites registers as it walks forward and keeps nothing of what they held before. What
it finds in them can all the same be read off the rows made so far, by a search backward for the
last writer: a machine at a point of a run holds the values of these rows. So at every point a
register has the value of the row of its last writer, and zero if nothing has written it.
-/

namespace CircuitReceipts

namespace Engine

variable {l : Limits} {p : Program} {reader : WordReader} {rows : List Row} {m : Machine}
  {values : Nat → Nat} {r : Nat} {a : Artifact}

/-- At every point of a run the machine holds the values of the rows made so far, whatever values
come after them. -/
theorem Reaches.holds (hp : p.Loaded) (h : Reaches l p reader rows m)
    (hvalues : ∀ {k : Nat} {row : Row}, rows[k]? = some row → row.value.toNat = values k) :
    m.Holds p.code values p.registers reader.rest rows.length := by
  induction h with
  | start => exact Machine.holds_start p.registers reader
  | @step rows row m m' i hreach hi hsession hgoes ih =>
    have hbefore : m.Holds p.code values p.registers reader.rest rows.length := by
      refine ih fun {k row} hk => hvalues ?_
      rw [List.getElem?_append_left (List.getElem?_eq_some_iff.1 hk).1, hk]
    have hlast : row.value.toNat = values rows.length := hvalues (by simp)
    rw [List.length_append, List.length_singleton]
    exact (step_sound hi (hp.fits hi) hbefore (step_eq_ok_iff.2 hgoes) hlast).2.2

/-- At every point of a run a register is there, and has what the rows made so far say. -/
theorem Reaches.getElem?_registers (hp : p.Loaded) (h : Reaches l p reader rows m)
    (hr : (r : Int) < p.registers) :
    m.registers[r]? = some (p.code.before (Row.produced rows) r rows.length) := by
  have hholds : m.Holds p.code (Row.produced rows) p.registers reader.rest rows.length :=
    h.holds hp fun hk => (Row.produced_eq hk).symm
  have hlength : r < m.registers.length := by
    rw [hholds.length]
    omega
  rw [← hholds.get r (Int.natCast_nonneg r) hr, Machine.get, Int.toNat_natCast,
    List.getD_eq_getElem?_getD, List.getElem?_eq_getElem hlength, Option.getD_some]

/-- At every point of a run the last writer of a register has a row, whose value is in the register,
and a register that has no writer is zero. -/
theorem Reaches.exists_writer (hp : p.Loaded) (h : Reaches l p reader rows m)
    (hr : (r : Int) < p.registers) :
    ∃ v writer, m.registers[r]? = some v ∧ p.code.writerBefore rows.length r = .ok writer ∧
      (writer = none → v = 0) ∧
      ∀ w, writer = some w → ∃ row, rows[w]? = some row ∧ row.value = v := by
  have hsize : ¬(p.code.size : Int) < (rows.length : Int) :=
    Int.not_lt.2 (Int.ofNat_le.2 h.le_size)
  refine ⟨_, p.code.lastWriter r rows.length, h.getElem?_registers hp hr, ?_, fun hnone => ?_,
    fun w hw => ?_⟩
  · rw [Code.writerBefore, if_neg hsize, Int.toNat_natCast]
  · rw [Code.before, hnone, Option.map_none, Option.getD_none]
  · have hrow := List.getElem?_eq_getElem (Code.lastWriter_eq_some hw).1
    refine ⟨_, hrow, ?_⟩
    rw [Code.before, hw, Option.map_some, Option.getD_some, Row.produced_eq hrow,
      Int.toNat_of_nonneg (h.value_nonneg (List.mem_of_getElem? hrow))]

/-- The registers are what the search for the last writer says. In every run of a program that
loads, at every point it comes to, before the next instruction is executed, a register holds the
value of the row of its last writer, or zero if there is none. The points are the prefixes of the
trace, and from each the run goes on with the machine there (`Reaches.runFrom_eq`). On an input that
is no whole number of words no instruction is executed, and there is no row. The record of the run
is the session, if the host can tell how it ends. -/
theorem registers_eq_writer (host : Host) (l : Limits) (input : Bytes)
    (hload : Program.load a.blob = .ok p) :
    (execute host l a input = if host.Tells (shown l p input) then .ok (run l a.imageId p input)
      else .error (.misuse .tooManyDigits)) ∧
    (∀ e, WordReader.ofBytes input = .error e → (run l a.imageId p input).trace = []) ∧
    ∀ reader, WordReader.ofBytes input = .ok reader →
      (∀ rows, (∃ m, Reaches l p reader rows m) ↔ rows <+: (run l a.imageId p input).trace) ∧
      ∀ rows m, Reaches l p reader rows m → ∀ r : Nat, (r : Int) < p.registers →
        ∃ v writer, m.registers[r]? = some v ∧
          p.code.writerBefore rows.length r = .ok writer ∧ (writer = none → v = 0) ∧
          ∀ w, writer = some w →
            ∃ row, (run l a.imageId p input).trace[w]? = some row ∧ row.value = v := by
  have hp := Program.loaded_of_load hload
  refine ⟨execute_of_load hload host l input, fun e he => ?_,
    fun reader hreader => ⟨fun rows => exists_reaches_iff hp hreader, fun rows m hreach r hr => ?_⟩⟩
  · rw [trace_run, outcome_of_unreadable l p he]
  · obtain ⟨v, writer, hget, hwriter, hnone, hsome⟩ := hreach.exists_writer hp hr
    refine ⟨v, writer, hget, hwriter, hnone, fun w hw => ?_⟩
    obtain ⟨row, hrow, hvalue⟩ := hsome w hw
    obtain ⟨hlt, rfl⟩ := List.getElem?_eq_some_iff.1 hrow
    exact ⟨_, List.prefix_iff_getElem?.1 (hreach.isPrefix _ hp hreader) w hlt, hvalue⟩

/-- Before the circuit of differences commits its result, the register of the result has been
written three times, twice by an instruction that reads it. -/
theorem registers_eq_writer_modsub :
    Program.load Operation.modsub.artifact.blob = .ok Operation.modsub.program ∧
      ∃ reader, WordReader.ofBytes (encodeNats [3, 5, 7]) = .ok reader ∧
        ∃ rows m, Reaches .standard Operation.modsub.program reader rows m ∧ rows.length = 8 ∧
          Operation.modsub.program.code.writerBefore 8 3 = .ok (some 7) ∧
          m.registers[3]? = some 5 := by
  have hload : Program.load Operation.modsub.artifact.blob = .ok Operation.modsub.program :=
    Operation.load_blob .modsub
  have hreader := WordReader.ofBytes_encodeNats [3, 5, 7]
  let s := run .standard Operation.modsub.artifact.imageId Operation.modsub.program
    (encodeNats [3, 5, 7])
  obtain ⟨-, -, hruns⟩ := registers_eq_writer .standard .standard (encodeNats [3, 5, 7]) hload
  obtain ⟨hpoints, hregisters⟩ := hruns _ hreader
  obtain ⟨m, hreach⟩ := (hpoints (s.trace.take 8)).2 (List.take_prefix _ _)
  have hlength : (s.trace.take 8).length = 8 := by decide +kernel
  have hwriter : Operation.modsub.program.code.writerBefore 8 3 = .ok (some 7) := by decide
  have hmade : s.trace[7]?.map Row.value = some 5 := by decide +kernel
  obtain ⟨v, writer, hget, hwriter', -, hsome⟩ := hregisters _ m hreach 3 (by decide)
  rw [hlength] at hwriter'
  cases hwriter.symm.trans hwriter'
  obtain ⟨row, hrow, hvalue⟩ := hsome 7 rfl
  rw [show s.trace[7]? = some row from hrow, Option.map_some, hvalue, Option.some.injEq] at hmade
  obtain rfl : v = 5 := by omega
  exact ⟨hload, _, hreader, _, m, hreach, hlength, hwriter, hget⟩

end Engine

end CircuitReceipts
