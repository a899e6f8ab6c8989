import CircuitReceipts.Pipeline
import CircuitReceipts.Proofs.Engine.Untold
import CircuitReceipts.Proofs.Receipt.Acceptance
import CircuitReceipts.Proofs.Validation

/-!
# The built-in operations from operands to report

A pipeline is a chain of steps whose results were worked out one by one: the operands are encoded,
the circuit runs on them, and the session is judged. On the registry of the built-in circuits the
chain can end in four ways only, and which of them it is depends on the limits and on the operands;
where it ends with numbers that the host cannot write, they are not told.
-/

namespace CircuitReceipts

namespace Operation

variable {op : Operation} {ns : List Nat} {reason : Halt}

/-- The operands on which a circuit fails make a run halt for that reason, unless a limit stops
it. -/
theorem outcome_of_fails (l : Limits) (imageId : Text) (hns : ∀ n ∈ ns, Writable n)
    (h : op.Fails ns reason) :
    (∃ rows journal, Engine.outcome l op.program (encodeNats ns) =
        (rows, journal, some (.halt reason))) ∨
      (Engine.run l imageId op.program (encodeNats ns)).IsFault := by
  obtain ⟨values, n, rfl, hvalues, i, hi, hop, hcompute⟩ := h
  exact (Engine.run_of_error l imageId (Program.loaded_of_load op.load_blob) hi hop hcompute
    (WordReader.ofBytes_encodeNats _) (Engine.supplies_words hns) hvalues).imp_right And.right

/-- On operands on which an operation is defined its circuit runs with consistent values to the end,
unless a limit stops it. -/
theorem run_of_admissible (l : Limits) (hlen : ns.length = op.inputShape.size)
    (hns : ∀ n ∈ ns, Writable n) (h : op.Admissible ns) :
    (∃ values, op.operandsIn values = ns ∧
        (∀ pc < op.program.size, op.program.code.Consistent values pc) ∧
        Engine.run l op.artifact.imageId op.program (encodeNats ns) =
          .ofValues op.artifact op.program values) ∨
      (Engine.run l op.artifact.imageId op.program (encodeNats ns)).IsFault := by
  obtain ⟨values, rfl, hvalues⟩ := exists_consistent hlen h
  rcases Engine.run_of_consistent l op.artifact.imageId (Program.loaded_of_load op.load_blob)
    op.endsWell_program (WordReader.ofBytes_encodeNats _) (Engine.supplies_words hns) hvalues with
    hrun | ⟨-, hfault⟩
  · exact .inl ⟨values, rfl, hvalues, hrun⟩
  · exact .inr hfault

end Operation

/-- Whether a report on a built-in operation is about a whole run with the given value, and has a
proof with an accepted receipt exactly if there was a prover. -/
structure Report.Attests (report : Report) (op : Operation) (prover : Option ProverOptions)
    (value : Value) : Prop where
  operation : report.operation = op
  value : report.value = value
  exitCode : report.exitCode = .halted 0
  userCycles : report.userCycles = op.program.size
  proof : match prover with
    | none => report.proof = none
    | some _ => ∃ proof, report.proof = some proof ∧ proof.receipt.verify op.artifact 1 = .ok ()

namespace Validator

variable {host : Host} {op : Operation} {values : Nat → Nat}

/-- A run of a built-in circuit with consistent values is judged by the value of its result. If that
is not the expected one, there is a mismatch; else there is a report, after the proof if one is
asked for. -/
theorem judgement_eq (host : Host) (proving : Option (ProverOptions × Artifact))
    (hvalues : ∀ pc < op.program.size, op.program.code.Consistent values pc)
    (hwritable : ∀ n ∈ op.operandsIn values, Writable n) (expected : Value) :
    judgement ⟨host, op, proving⟩ (.ofValues op.artifact op.program values) expected =
      if (op.outputShape.fill (op.outcome (op.operandsIn values))).alike expected then
        let report (proof : Option Proof) : Report :=
          ⟨op, op.outputShape.fill (op.outcome (op.operandsIn values)), .halted 0, op.program.size,
            proof⟩
        match proving with
        | none => .ok (report none)
        | some (o, a) =>
          (Progress.outcome (proved ⟨host, op, proving⟩ o (.ofValues op.artifact op.program values))
            fun proof => proof.receipt.accept a).map fun proof => report (some proof)
      else
        .error ((Failure.mismatch expected
          (op.outputShape.fill (op.outcome (op.operandsIn values)))).told host) := by
  have hlen : (op.outcome (op.operandsIn values)).length = op.outputShape.size :=
    Operation.length_outcome (by rw [Operation.operandsIn_eq, List.length_map, List.length_range])
  obtain ⟨hadmissible, hcommitted⟩ := Operation.of_consistent hvalues
  have houtcome : ∀ n ∈ op.outcome (op.operandsIn values), Writable n := fun n hn =>
    (Operation.writable_modulus hwritable).mono (Nat.le_of_lt (hadmissible.lt_modulus hn))
  have hjournal : decode (Session.ofValues op.artifact op.program values).journal op.outputShape =
      .ok (op.outputShape.fill (op.outcome (op.operandsIn values))) := by
    rw [Session.ofValues, Session.success, hcommitted]
    exact Shape.decode_encodeNats op.proper_outputShape hlen houtcome
  have hend : checkTermination host (.ofValues op.artifact op.program values) = .ok () := rfl
  have hcycles : (Session.ofValues op.artifact op.program values).userCycles = op.program.size :=
    Code.length_rows
  have hdecoded (expected : Value) : Progress.outcome
      (decoded ⟨host, op, proving⟩ (.ofValues op.artifact op.program values))
      (compare host expected) =
        (compare host expected (op.outputShape.fill (op.outcome (op.operandsIn values)))).map
          fun _ => op.outputShape.fill (op.outcome (op.operandsIn values)) := by
    rw [Progress.outcome, decoded, hjournal, mapError_ok, ok_bind]
    rfl
  rw [judgement, hend, ok_bind, hdecoded, compare]
  split
  · cases proving with
    | none =>
      rw [← hcycles]
      rfl
    | some proving =>
      rw [← hcycles]
      rfl
  · rfl

/-- A run of a built-in circuit with consistent values is judged valid when its result is
expected. -/
theorem judgement_ofValues (host : Host) {prover : Option ProverOptions}
    (hvalues : ∀ pc < op.program.size, op.program.code.Consistent values pc)
    (hwritable : ∀ n ∈ op.operandsIn values, Writable n)
    (hshort : prover ≠ none → ∀ n ∈ op.operandsIn values, Short n)
    (hprover : ∀ o, prover = some o → o.Valid) :
    ∃ report, judgement ⟨host, op, prover.map fun o => (o, op.artifact)⟩
        (.ofValues op.artifact op.program values)
        (op.outputShape.fill (op.outcome (op.operandsIn values))) = .ok report ∧
      report.Attests op prover (op.outputShape.fill (op.outcome (op.operandsIn values))) := by
  have hlen : (op.operandsIn values).length = op.inputShape.size := by
    rw [Operation.operandsIn_eq, List.length_map, List.length_range]
  have halike := Shape.alike_fill op.proper_outputShape (Operation.length_outcome hlen)
  rw [judgement_eq host _ hvalues hwritable, if_pos halike]
  cases prover with
  | none => exact ⟨_, rfl, rfl, rfl, rfl, rfl, rfl⟩
  | some o =>
    have hvalid := hprover o rfl
    have hrows := Operation.writable_of_consistent hvalues (hshort (Option.some_ne_none o))
    obtain ⟨n, hn, hpos, -⟩ := hvalid.queries
    obtain ⟨proof, hproof, hverify⟩ := Session.exists_proof (a := op.artifact) op.load_blob
      op.endsWell_program hvalues hrows hvalid hn
    have haccepted := (hverify 1).1 hpos
    have hprove : Progress.outcome (proved ⟨host, op, some (o, op.artifact)⟩ o
        (.ofValues op.artifact op.program values)) (fun proof => proof.receipt.accept op.artifact) =
          .ok proof := by
      rw [Progress.outcome, proved, Session.prove_of_attest hproof, mapError_ok, ok_bind,
        Receipt.accept, haccepted]
      rfl
    simp only [Option.map_some, hprove]
    exact ⟨_, rfl, rfl, rfl, rfl, rfl, proof, rfl, haccepted⟩

/-- A session that halted with a code that the host writes is refused with this code. -/
theorem checkTermination_abnormalHalt {imageId : Text} {rows : List Row} {code : Int}
    {journal : Bytes} (h : host.Writes code) :
    checkTermination host (.abnormalHalt imageId rows code journal) =
      .error (.termination (.halted code)) := by
  have htells : host.Tells (Failure.termination (.halted code)).numbers := Host.tells_cons.2
    ⟨h, Host.tells_nil⟩
  rw [checkTermination, Failure.told, Session.abnormalHalt, if_pos htells]

end Validator

namespace Pipeline

/-- What a pipeline gives, apart from what is seen of it. -/
def result (setup : Setup) (prover : Option ProverOptions) (job : Job) : Except Failure Report := do
  let (op, a) ← find setup job.operation
  (op.checkOperands job.operands).mapError .reference
  let s ← run setup.host setup.limits a job.operands
  let v ← Validator.of setup.host op (some a) prover
  let expected ← expectation setup.host op job s
  v.judgement s expected

/-- A pipeline gives its result in either manner, under every schedule. -/
theorem gives_verify (setup : Setup) (prover : Option ProverOptions) (manner : Manner) (job : Job) :
    (verify setup prover manner job).Gives (result setup prover job) := by
  refine (Observed.gives_of _).bind fun (op, a) => (Observed.gives_of _).bind fun _ =>
    (Observed.gives_during _ _ _).bind fun s => (Observed.gives_of _).bind fun v =>
      (Observed.gives_of _).bind fun expected => ?_
  cases manner with
  | sequential => exact v.gives_validate s expected
  | scheduled turns => exact v.gives_validateScheduled s expected turns

variable {host : Host} {l : Limits} {op : Operation} {operands : Value} {ns : List Nat}
  {prover : Option ProverOptions}

theorem find_standard (host : Host) (op : Operation) (l : Limits) :
    find ⟨host, .standard, l⟩ op.name = .ok (op, op.artifact) := by
  cases op <;> rfl

theorem run_of_flatten (host : Host) (l : Limits) (a : Artifact)
    (hflatten : operands.flatten = .ok ns) :
    run host l a operands = (Engine.execute host l a (encodeNats ns)).mapError failed := by
  rw [run, Value.encode, hflatten]
  rfl

theorem execute_artifact (host : Host) (op : Operation) (l : Limits) (input : Bytes) :
    Engine.execute host l op.artifact input =
      if host.Tells (Engine.shown l op.program input) then
        .ok (Engine.run l op.artifact.imageId op.program input)
      else .error (.misuse .tooManyDigits) :=
  Engine.execute_of_load op.load_blob host l input

/-- A built-in circuit has a session on operands unless the host cannot tell how its run ends. -/
theorem run_standard (host : Host) (op : Operation) (l : Limits)
    (hflatten : operands.flatten = .ok ns) :
    run host l op.artifact operands =
      if host.Tells (Engine.shown l op.program (encodeNats ns)) then
        .ok (Engine.run l op.artifact.imageId op.program (encodeNats ns))
      else .error (.misuse .tooManyDigits) := by
  rw [run_of_flatten host l _ hflatten, execute_artifact]
  split <;> rfl

/-- The result on operands that fit the operation of a name is the judgement on their session. -/
theorem result_of_find {setup : Setup} {name : Text} {a : Artifact} (prover : Option ProverOptions)
    (expected : Option Value) (hfind : find setup name = .ok (op, a))
    (hshape : operands.shape = op.inputShape) {s : Session}
    (hrun : run setup.host setup.limits a operands = .ok s) :
    result setup prover ⟨name, operands, expected⟩ = (do
      let v ← expectation setup.host op ⟨name, operands, expected⟩ s
      Validator.judgement ⟨setup.host, op, prover.map fun o => (o, a)⟩ s v) := by
  have hvalidator : Validator.of setup.host op (some a) prover =
      .ok ⟨setup.host, op, prover.map fun o => (o, a)⟩ := by
    cases prover <;> rfl
  simp only [result, hfind, ok_bind, Operation.checkOperands, if_pos hshape, mapError_ok, hrun,
    hvalidator]

/-- Where there is no session, there is no report, for the same reason. -/
theorem result_of_run_error {setup : Setup} {name : Text} {a : Artifact}
    (prover : Option ProverOptions) (expected : Option Value)
    (hfind : find setup name = .ok (op, a)) (hshape : operands.shape = op.inputShape) {f : Failure}
    (hrun : run setup.host setup.limits a operands = .error f) :
    result setup prover ⟨name, operands, expected⟩ = .error f := by
  simp only [result, hfind, ok_bind, Operation.checkOperands, if_pos hshape, mapError_ok, hrun]
  rfl

/-- Without an expected result the session of a built-in operation is compared with the
reference. -/
theorem result_standard (prover : Option ProverOptions) (hshape : operands.shape = op.inputShape)
    {s : Session} (hrun : run host l op.artifact operands = .ok s) :
    result ⟨host, .standard, l⟩ prover ⟨op.name, operands, none⟩ = (do
      Validator.checkTermination host s
      let expected ← (op.expected operands).mapError .reference
      Validator.judgement ⟨host, op, prover.map fun o => (o, op.artifact)⟩ s expected) := by
  rw [result_of_find prover none (find_standard host op l) hshape hrun]
  simp only [expectation, bind_assoc]

/-- A built-in operation whose run halts ends with the code of the halt, if the host writes this and
the numbers that the halt is about. -/
theorem result_of_halt (prover : Option ProverOptions) (hshape : operands.shape = op.inputShape)
    (hflatten : operands.flatten = .ok ns) {rows : List Row} {journal : Bytes} {reason : Halt}
    (houtcome : Engine.outcome l op.program (encodeNats ns) =
      (rows, journal, some (.halt reason))) (hcode : host.Writes reason.code) :
    result ⟨host, .standard, l⟩ prover ⟨op.name, operands, none⟩ =
      if host.Tells reason.numbers then .error (.termination (.halted reason.code))
      else .error (.misuse .tooManyDigits) := by
  have hrun := run_standard host op l hflatten
  rw [Engine.shown_of_halt houtcome, Engine.run_of_outcome houtcome] at hrun
  split
  · next htells =>
    rw [if_pos htells] at hrun
    rw [result_standard prover hshape hrun, Engine.ended,
      Validator.checkTermination_abnormalHalt hcode]
    rfl
  · next htells =>
    rw [if_neg htells] at hrun
    exact result_of_run_error prover none (find_standard host op l) hshape hrun

/-- A built-in operation whose run is stopped by a fault ends with this fault, if the host writes
the limit that was exceeded. -/
theorem result_of_fault (prover : Option ProverOptions) (hshape : operands.shape = op.inputShape)
    (hflatten : operands.flatten = .ok ns) {cause : Fault}
    (hending : (Engine.run l op.artifact.imageId op.program (encodeNats ns)).ending =
      .fault cause) :
    result ⟨host, .standard, l⟩ prover ⟨op.name, operands, none⟩ =
      if host.Tells cause.numbers then .error (.fault cause)
      else .error (.misuse .tooManyDigits) := by
  have hrun := run_standard host op l hflatten
  rw [Engine.shown_of_fault hending] at hrun
  split
  · next htells =>
    rw [if_pos htells] at hrun
    rw [result_standard prover hshape hrun, Validator.checkTermination, hending]
    rfl
  · next htells =>
    rw [if_neg htells] at hrun
    exact result_of_run_error prover none (find_standard host op l) hshape hrun

/-- A pipeline for a built-in operation, on the registry of the built-in circuits and without an
expected result, ends in one of four ways. A fault of the run is the failure; else a modulus of
zero, and then a number without an inverse, end the run with an exit code of their own; and in all
other cases there is a report whose value is the reference on the operands. Only where the host
cannot write the limit of a fault, or the number without an inverse and its modulus, is there a
misuse instead. This holds in either manner, for all limits and all valid options of a prover, and
whatever has been seen before. Only the memory limits the operands: the limbs of each have to be
counted in one word and, as a proof also stores products of them, with a bit to spare where there is
a prover. -/
theorem verify_standard (host : Host) (l : Limits) (manner : Manner) (observation : Observation)
    (hshape : operands.shape = op.inputShape) (hflatten : operands.flatten = .ok ns)
    (hwritable : ∀ n ∈ ns, Writable n) (hshort : prover ≠ none → ∀ n ∈ ns, Short n)
    (hprover : ∀ o, prover = some o → o.Valid) {result : Except Failure Report}
    (hresult : ((verify ⟨host, .standard, l⟩ prover manner ⟨op.name, operands, none⟩).runFrom
      observation).1 = result) :
    ∃ input s, operands.encode = .ok input ∧
      Engine.run l op.artifact.imageId op.program input = s ∧
      (Engine.execute host l op.artifact input =
        if host.Tells (Engine.shown l op.program input) then .ok s
        else .error (.misuse .tooManyDigits)) ∧
      (∀ cause, s.ending = .fault cause → result =
        if host.Tells cause.numbers then .error (.fault cause)
        else .error (.misuse .tooManyDigits)) ∧
      (¬s.IsFault →
        (Operation.modulus ns = 0 →
          result = .error (.termination (.halted exitZeroModulus))) ∧
        (Operation.modulus ns ≠ 0 → op = .modinv → (ns.headD 0).gcd (Operation.modulus ns) ≠ 1 →
          result =
            if host.Writes (ns.headD 0) ∧ host.Writes (Operation.modulus ns) then
              .error (.termination (.halted exitNotInvertible))
            else .error (.misuse .tooManyDigits)) ∧
        (op.Admissible ns → ∃ report, result = .ok report ∧
          op.expected operands = .ok (op.outputShape.fill (op.outcome ns)) ∧
          report.Attests op prover (op.outputShape.fill (op.outcome ns)))) := by
  have hlen := Operation.length_operands hshape hflatten
  have hgives := gives_verify ⟨host, .standard, l⟩ prover manner ⟨op.name, operands, none⟩
    observation
  rw [hresult] at hgives
  refine ⟨encodeNats ns, _, Value.encode_of_flatten hflatten, rfl, execute_artifact host op l _,
    fun cause hcause => ?_,
    fun hfault => ⟨fun hm => ?_, fun hm hop hgcd => ?_, fun hadmissible => ?_⟩⟩
  · rw [hgives, result_of_fault prover hshape hflatten hcause]
  · obtain ⟨rows, journal, hhalt⟩ := (Operation.outcome_of_fails l op.artifact.imageId hwritable
      (Operation.fails_of_modulus_eq_zero hlen hm)).resolve_right hfault
    have hcode : host.Writes exitZeroModulus := Host.writes_of_natAbs_lt (by decide)
    rw [hgives, result_of_halt prover hshape hflatten hhalt hcode]
    exact if_pos Host.tells_nil
  · subst hop
    obtain ⟨rows, journal, hhalt⟩ := (Operation.outcome_of_fails l
      Operation.modinv.artifact.imageId hwritable
      (Operation.fails_of_not_coprime hlen hm hgcd)).resolve_right hfault
    have hcode : host.Writes exitNotInvertible := Host.writes_of_natAbs_lt (by decide)
    rw [hgives, result_of_halt prover hshape hflatten hhalt hcode]
    simp only [Halt.numbers, Halt.code, Host.tells_cons, Host.tells_nil, and_true]
  · obtain ⟨values, rfl, hvalues, hsuccess⟩ :=
      (Operation.run_of_admissible l hlen hwritable hadmissible).resolve_right hfault
    obtain ⟨report, hjudgement, hattests⟩ :=
      Validator.judgement_ofValues host hvalues hwritable hshort hprover
    have hexpected := Operation.expected_eq_ok hshape hflatten hadmissible
    have hrun := run_standard host op l hflatten
    rw [Engine.shown_of_success (by rw [hsuccess]; rfl), if_pos Host.tells_nil] at hrun
    refine ⟨report, ?_, hexpected, hattests⟩
    rw [hgives, result_standard prover hshape hrun, hsuccess, hexpected]
    exact hjudgement

/-- The difference of two pairs modulo five, with a proof made by a worker that starts first. -/
theorem verify_standard_extfieldsub :
    ∃ report, ((verify ⟨.standard, .standard, .standard⟩ (some .standard) (.scheduled [.worker])
        ⟨"extfieldsub", .tuple [.tuple [.int 1, .int 2], .list [.int 3, .int 4], .int 5],
          none⟩).runFrom .empty).1 = .ok report ∧
      report.Attests .extfieldsub (some .standard) (.tuple [.int 3, .int 3]) := by
  have hlt : ∀ n ∈ [1, 2, 3, 4, 5], n < 0x100000000 := by decide
  have hflatten : (Value.tuple [.tuple [.int 1, .int 2], .list [.int 3, .int 4], .int 5]).flatten =
      .ok [1, 2, 3, 4, 5] := rfl
  have hshape : (Value.tuple [.tuple [.int 1, .int 2], .list [.int 3, .int 4], .int 5]).shape =
      Operation.extfieldsub.inputShape := rfl
  have hprover (o : ProverOptions) (ho : some .standard = some o) : o.Valid :=
    Option.some.inj ho ▸ ProverOptions.valid_standard
  obtain ⟨input, s, hinput, rfl, -, -, houtcomes⟩ := verify_standard .standard .standard
    (.scheduled [.worker]) .empty hshape hflatten (fun n hn => writable_of_lt (hlt n hn))
    (fun _ n hn => short_of_lt (hlt n hn)) hprover rfl
  obtain rfl : encodeNats [1, 2, 3, 4, 5] = input := Except.ok.inj hinput
  have hsuccess : (Engine.run .standard Operation.extfieldsub.artifact.imageId
      Operation.extfieldsub.program (encodeNats [1, 2, 3, 4, 5])).ending = .success := by
    decide +kernel
  have hfault : ¬(Engine.run .standard Operation.extfieldsub.artifact.imageId
      Operation.extfieldsub.program (encodeNats [1, 2, 3, 4, 5])).IsFault := by
    rintro ⟨cause, hcause⟩
    cases hsuccess.symm.trans hcause
  obtain ⟨report, hreport, -, hattests⟩ :=
    (houtcomes hfault).2.2 ⟨by decide, fun h => Operation.noConfusion h⟩
  exact ⟨report, hreport, hattests⟩

theorem flatten_pair (m n : Nat) : (Value.tuple [.int m, .int n]).flatten = .ok [m, n] := by
  simp [Value.flatten, Value.flattenEach, Value.natural]

/-- Two powers of two have room under the standard limits and no inverse, and the standard host
cannot write them to say so. -/
theorem result_powersOfTwo : result ⟨.standard, .standard, .standard⟩ none
    ⟨Operation.modinv.name, .tuple [.int (2 ^ 14285 : Nat), .int (2 ^ 14286 : Nat)], none⟩ =
      .error (.misuse .tooManyDigits) := by
  have hrun := run_standard .standard .modinv .standard (flatten_pair (2 ^ 14285) (2 ^ 14286))
  rw [if_neg Engine.not_tells_powersOfTwo] at hrun
  exact result_of_run_error none none (find_standard .standard .modinv .standard) rfl hrun

/-- Not every pipeline for a built-in operation ends so: two powers of two are operands of the
inverse with room under the standard limits, and on the standard host there is neither a report nor
an exit code. -/
theorem inverse_untold :
    (Value.tuple [.int (2 ^ 14285 : Nat), .int (2 ^ 14286 : Nat)]).shape =
        Operation.modinv.inputShape ∧
      (Value.tuple [.int (2 ^ 14285 : Nat), .int (2 ^ 14286 : Nat)]).flatten =
        .ok [2 ^ 14285, 2 ^ 14286] ∧
      ((verify ⟨.standard, .standard, .standard⟩ none .sequential
        ⟨"modinv", .tuple [.int (2 ^ 14285 : Nat), .int (2 ^ 14286 : Nat)], none⟩).runFrom
          .empty).1 = .error (.misuse .tooManyDigits) := by
  refine ⟨rfl, flatten_pair (2 ^ 14285) (2 ^ 14286), ?_⟩
  rw [gives_verify ⟨.standard, .standard, .standard⟩ none .sequential _ .empty]
  exact result_powersOfTwo

end Pipeline

end CircuitReceipts
