import CircuitReceipts.Proofs.Engine.Guarded
import CircuitReceipts.Proofs.Engine.Untold
import CircuitReceipts.Proofs.Receipt.Acceptance

/-!
# Safety of runs

Every artifact that loads has a session for every input, and the session is a record of the run: its
rows are the instructions that ran, in order, its journal is what its committing rows append, and
how it ended can be read off its rows. Each of these is kept by every step, so it holds at the point
at which the run ends, whichever of the three ends it is.
-/

namespace CircuitReceipts

namespace Session

/-- Whether rows are those of the first instructions of a program, within the cycles of a run. -/
structure Traces (rows : List Row) (l : Limits) (p : Program) : Prop where
  header : ∀ {k : Nat} {row : Row}, rows[k]? = some row → ∃ i, p.code[k]? = some i ∧
    row.header = [(k : Int), (k : Int), (i.op.number : Int), i.a, i.b, i.c]
  length_le : (rows.length : Int) ≤ min (p.size : Int) (max l.session 0)

/-- Whether a session is the record of a run of a program under limits. -/
structure Records (s : Session) (l : Limits) (p : Program) : Prop where
  trace : Traces s.trace l p
  success_iff : s.ending = .success ↔ s.trace.length = p.size ∧ Engine.EndsWell p
  exitCode_success : s.ending = .success → s.exitCode = .halted 0
  exitCode_halt : s.ending = .abnormalHalt → ∃ code, code ≠ 0 ∧ s.exitCode = .halted code
  journal : (∀ cause, s.ending ≠ .fault cause) → committed s.trace = .ok s.journal
  fault : ∀ cause, s.ending = .fault cause → s.exitCode = cause.exitCode ∧ s.journal = [] ∧
    s.trace.length < p.size ∧ (s.exitCode.kind = .sessionLimit ↔ l.session ≤ s.trace.length)

variable {l : Limits} {p : Program} {rows : List Row} {journal : Bytes} {imageId : Text}

theorem traces_nil : Traces [] l p where
  header h := absurd h (by simp)
  length_le := le_min (Int.natCast_nonneg _) (le_max_right _ _)

theorem Traces.success (h : Traces rows l p) (hjournal : committed rows = .ok journal)
    (hlength : rows.length = p.size) (hend : Engine.EndsWell p) :
    (success imageId rows journal).Records l p where
  trace := h
  success_iff := iff_of_true rfl ⟨hlength, hend⟩
  exitCode_success _ := rfl
  exitCode_halt := nofun
  journal _ := hjournal
  fault := nofun

theorem Traces.abnormalHalt (h : Traces rows l p) (hjournal : committed rows = .ok journal)
    {code : Int} (hcode : code ≠ 0) (hend : ¬(rows.length = p.size ∧ Engine.EndsWell p)) :
    (abnormalHalt imageId rows code journal).Records l p where
  trace := h
  success_iff := iff_of_false nofun hend
  exitCode_success := nofun
  exitCode_halt _ := ⟨code, hcode, rfl⟩
  journal _ := hjournal
  fault := nofun

theorem Traces.fault (h : Traces rows l p) {cause : Fault} (hlength : rows.length < p.size)
    (hcause : cause.exitCode.kind = .sessionLimit ↔ l.session ≤ rows.length) :
    (fault imageId rows cause).Records l p where
  trace := h
  success_iff := iff_of_false nofun fun hend => absurd hend.1 (Nat.ne_of_lt hlength)
  exitCode_success := nofun
  exitCode_halt := nofun
  journal hending := absurd rfl (hending cause)
  fault := by
    rintro _ ⟨⟩
    exact ⟨rfl, rfl, hlength, hcause⟩

end Session

namespace Engine

variable {l : Limits} {p : Program} {reader : WordReader} {rows : List Row} {m m' : Machine}
  {pc : Nat} {i : Instruction} {row : Row} {imageId : Text} {input : Bytes} {stop : Option Stop}

theorem Goes.journal (h : Goes l m pc i row m') :
    m'.journal = m.journal ++ if row.appends then encodeNat row.value.toNat else [] := by
  have happends : row.appends = decide (i.op = .commit) := by
    have hop : row.opcode = i.op.number := by cases h <;> rfl
    rw [Row.appends, hop]
    cases i.op <;> decide
  rw [happends]
  cases h with
  | commit hop => simp [hop, Instruction.row]
  | read hop | const hop | halt hop => simp [hop, Machine.set]
  | computed hop =>
    have hcommit : i.op ≠ .commit := by
      intro h
      rw [h] at hop
      cases hop
    simp [hcommit, Machine.set]

theorem Reaches.committed (h : Reaches l p reader rows m) :
    Session.committed rows = .ok m.journal := by
  rw [Session.committed_of_nonneg fun row hrow => h.value_nonneg hrow]
  congr 1
  induction h with
  | start => rfl
  | @step rows row m m' i hreach hi hsession hgoes ih =>
    rw [hgoes.journal, ← ih, List.filter_append, List.map_append, encodeNats_append]
    cases happends : row.appends <;> simp [happends]

theorem code_ne_zero {op : Opcode} {lhs rhs : Nat} {reason : Halt}
    (h : compute op lhs rhs = .error reason) : reason.code ≠ 0 := by
  cases op with
  | read | const | commit | halt | add | mul => cases h
  | sub =>
    simp only [compute] at h
    split at h <;> cases h
    decide
  | mod =>
    simp only [compute] at h
    split at h <;> cases h
    decide
  | inv =>
    simp only [compute] at h
    split at h
    · cases h
      decide
    · split at h <;> cases h
      exact show exitNotInvertible ≠ 0 by decide

theorem Reaches.traces (h : Reaches l p reader rows m) : Session.Traces rows l p where
  header := h.header
  length_le := le_min (Int.ofNat_le.2 h.le_size) h.le_session

theorem Ends.records (hreach : Reaches l p reader rows m) (hends : Ends l p rows.length m stop) :
    (ended imageId rows m.journal stop).Records l p := by
  have htrace := hreach.traces
  have hjournal := hreach.committed
  cases hends with
  | succeeds hrows hi hop ha => exact htrace.success hjournal hrows ⟨_, hi, hop, ha⟩
  | @halts i hrows hi hop ha =>
    refine htrace.abnormalHalt hjournal ha ?_
    rintro ⟨-, i', hi', -, ha'⟩
    rw [hi] at hi'
    cases hi'
    exact ha ha'
  | exhausted hrows hsession => exact htrace.fault hrows (iff_of_true rfl hsession)
  | @stopped i s hi hsession hstops =>
    have hrows : rows.length < p.size := (Array.getElem?_eq_some_iff.1 hi).1
    have hnot : ¬(rows.length = p.size ∧ EndsWell p) := fun h => absurd h.1 (Nat.ne_of_lt hrows)
    cases hstops with
    | unreadable hop hread => exact htrace.abnormalHalt hjournal (by decide) hnot
    | undefined hop hcompute => exact htrace.abnormalHalt hjournal (code_ne_zero hcompute) hnot
    | oversize hmakes hbits =>
      exact htrace.fault hrows (iff_of_false nofun (Int.not_le.2 hsession))

/-- The session of a run is a record of it, also if its input is no whole number of words. -/
theorem records_run (l : Limits) (imageId : Text) (hp : p.Loaded) (input : Bytes) :
    (run l imageId p input).Records l p := by
  cases hreader : WordReader.ofBytes input with
  | error e =>
    rw [run_of_outcome (outcome_of_unreadable l p hreader)]
    refine Session.traces_nil.abnormalHalt rfl (by decide) fun h => ?_
    exact absurd h.1 (Nat.ne_of_lt hp.size_pos)
  | ok reader =>
    obtain ⟨rows, m, stop, hreach, hends, hrun⟩ := exists_run_eq_ended l imageId hp hreader
    rw [hrun]
    exact hends.records hreach

theorem imageId_run : (run l imageId p input).imageId = imageId := by
  cases h : outcome l p input with
  | mk rows tail =>
  obtain ⟨journal, _ | reason | cause⟩ := tail <;> rw [run_of_outcome h] <;> rfl

/-- How safe execution is. Under narrow limits an artifact that does not load is refused with the
error of loading it. One that loads has a record of its run on every input. The record is the
session, unless the host cannot tell how the run ends, which is the only other error, even of the
engine that takes nothing for granted; and it is always the session where the host writes the limits
and all that they leave room for. -/
theorem execute_safe (host : Host) (l : Limits) (a : Artifact) (input : Bytes)
    (hnarrow : l.Narrow) :
    (∀ e : GuardedError, Guarded.execute host l a input = .error e ↔
      (∃ cause, e = .engine (.load cause) ∧ Program.load a.blob = .error cause) ∨
      e = .engine (.misuse .tooManyDigits) ∧
        ∃ p, Program.load a.blob = .ok p ∧ Untold host l p input) ∧
    Guarded.execute host l a input = (execute host l a input).mapError .engine ∧
    ∀ p : Program, Program.load a.blob = .ok p →
      ∃ s : Session, s.imageId = a.imageId ∧ s.Records l p ∧
        (¬Untold host l p input → execute host l a input = .ok s) ∧
        (l.Modest host → execute host l a input = .ok s) := by
  have hguarded := Guarded.execute_eq hnarrow host a input
  refine ⟨fun e => ?_, hguarded, fun p hload => ?_⟩
  · rw [hguarded]
    cases hload : Program.load a.blob with
    | error cause => simp [execute, hload, eq_comm]
    | ok p =>
      rw [execute_of_load hload]
      simp only [untold_iff (Program.loaded_of_load hload), Except.ok.injEq, exists_eq_left']
      split <;> simp [*, eq_comm]
  · have hp := Program.loaded_of_load hload
    have htold (h : ¬Untold host l p input) :
        execute host l a input = .ok (run l a.imageId p input) :=
      execute_of_tells hload (not_not.1 (mt (untold_iff hp).2 h))
    exact ⟨run l a.imageId p input, imageId_run, records_run l a.imageId hp input, htold,
      fun hmodest => htold (not_untold_of_modest hp hmodest)⟩

/-- A run of the circuit that inverts, on whose two operands the limits leave no room for a third
instruction. -/
theorem execute_safe_modinv :
    (⟨2, 64⟩ : Limits).Narrow ∧
      Program.load Operation.modinv.artifact.blob = .ok Operation.modinv.program ∧
      ∃ s, execute .standard ⟨2, 64⟩ Operation.modinv.artifact (encodeNats [3, 7]) = .ok s ∧
        s.Records ⟨2, 64⟩ Operation.modinv.program ∧ s.exitCode.kind = .sessionLimit ∧
        s.trace.length = 2 := by
  have hnarrow : (⟨2, 64⟩ : Limits).Narrow := by
    rw [Limits.Narrow]
    decide
  have hload := Operation.load_blob .modinv
  have htold : ¬Untold .standard ⟨2, 64⟩ Operation.modinv.program (encodeNats [3, 7]) := by
    rw [untold_iff (Program.loaded_of_load hload), not_not]
    decide +kernel
  obtain ⟨s, -, hrecords, hs, -⟩ :=
    (execute_safe .standard ⟨2, 64⟩ Operation.modinv.artifact (encodeNats [3, 7]) hnarrow).2.2 _
      hload
  have hs := hs htold
  have hend : (execute .standard ⟨2, 64⟩ Operation.modinv.artifact
      (encodeNats [3, 7])).toOption.map (fun s => (s.exitCode.kind, s.trace.length)) =
        some (.sessionLimit, 2) := by
    decide +kernel
  rw [hs] at hend
  simp only [Except.toOption, Option.map_some, Option.some.injEq, Prod.mk.injEq] at hend
  exact ⟨hnarrow, hload, s, hs, hrecords, hend.1, hend.2⟩

/-- The circuit that inverts loads, and has no session under the standard limits on two powers of
two: there is no inverse, and the standard host cannot write the numbers to say so. -/
theorem no_session_of_untold :
    Limits.standard.Narrow ∧
      Program.load Operation.modinv.artifact.blob = .ok Operation.modinv.program ∧
      execute .standard .standard Operation.modinv.artifact (encodeNats [2 ^ 14285, 2 ^ 14286]) =
        .error (.misuse .tooManyDigits) := by
  have hload : Program.load Operation.modinv.artifact.blob = .ok Operation.modinv.program :=
    Operation.load_blob .modinv
  refine ⟨?_, hload, ?_⟩
  · rw [Limits.Narrow]
    decide
  · rw [execute_of_load hload, if_neg not_tells_powersOfTwo]

end Engine

end CircuitReceipts
