import CircuitReceipts.Proofs.Engine.Guarded
import CircuitReceipts.Proofs.Pipeline.Execution
import CircuitReceipts.Proofs.Pipeline.Reported
import CircuitReceipts.Proofs.Receipt.Options

/-!
# The built-in operations under the standard limits

A run of a built-in circuit succeeds exactly if the operation is defined on the operands and the
limits leave room for it. Under the standard limits every number of such a run can be encoded, so
whether there is a report depends on nothing else but the expected value and the prover's options;
and without a report there is a failure that is reported, or an option that cannot be used, or a
failure whose numbers the host cannot write.
-/

namespace CircuitReceipts

namespace Engine

variable {l : Limits} {p : Program} {values : Nat → Nat} {imageId : Text} {input journal : Bytes}

/-- Where a program has no constants, all values of a successful run are within the limit on
registers. -/
theorem within_of_success (hp : p.Loaded) (hbits : 0 ≤ l.registerBits)
    (hconstant : ∀ v, ¬p.HasConstant v)
    (h : run l imageId p input = .success imageId (p.code.rows values) journal) :
    ∀ pc < p.size, (bitLength (values pc) : Int) ≤ l.registerBits := by
  cases hreader : WordReader.ofBytes input with
  | error e =>
    rw [run_of_outcome (outcome_of_unreadable l p hreader)] at h
    cases congrArg Session.ending h
  | ok reader =>
    obtain ⟨rows, m, stop, hreach, -, hrun⟩ := exists_run_eq_ended l imageId hp hreader
    have hrows : rows = p.code.rows values := by
      have htrace := congrArg Session.trace (hrun.symm.trans h)
      rwa [trace_ended] at htrace
    intro pc hpc
    obtain ⟨i, hi⟩ := Code.exists_instruction hpc
    have hmem : p.code.rowOf values pc i ∈ rows := by
      rw [hrows]
      exact List.mem_of_getElem? (by rw [Code.getElem?_rows, hi]; rfl)
    have hvalue := ((hreach.forall_values (P := fun v => (bitLength v : Int) ≤ l.registerBits)
      hbits (fun _ hv => hv) fun v hv => absurd hv (hconstant v)).2 _ hmem
        (p.code.rowOf values pc i).value (by simp)).2
    rwa [Code.value_rowOf, Int.toNat_natCast] at hvalue

end Engine

namespace Operation

variable {op : Operation} {values : Nat → Nat} {ns : List Nat} {l : Limits}

theorem not_hasConstant (op : Operation) (v : Nat) : ¬op.program.HasConstant v := by
  have hnone : ∀ i ∈ op.program.instructions.toList, i.op ≠ .const := by
    cases op <;> decide +kernel
  rintro ⟨k, i, hi, hop, -⟩
  exact hnone i (Array.mem_toList_iff.2 (Array.mem_of_getElem? hi)) hop

theorem intermediates_eq (hvalues : ∀ pc < op.program.size, op.program.code.Consistent values pc) :
    op.intermediates (op.operandsIn values) = op.sums.map fun s => values s.2 := by
  rw [consistent_iff_equations] at hvalues
  rw [operandsIn_eq]
  cases op with
  | modadd | modmul =>
    obtain ⟨h3, -⟩ := hvalues
    rw [sums, List.map_singleton, ← h3]
    rfl
  | modsub =>
    obtain ⟨⟨-, h3⟩, -, h5, -⟩ := hvalues
    rw [sums, List.map_singleton, ← h5, ← h3]
    rfl
  | modinv => rfl
  | extfieldadd =>
    obtain ⟨h5, -, h7, -⟩ := hvalues
    rw [sums, List.map_cons, List.map_singleton, ← h5, ← h7]
    rfl
  | extfieldsub =>
    obtain ⟨⟨-, h5⟩, ⟨-, h6⟩, -, -, h9, -, -, h12, -⟩ := hvalues
    rw [sums, List.map_cons, List.map_singleton, ← h9, ← h12, ← h5, ← h6]
    rfl

/-- Values of a built-in circuit within the limits, of which there are as many as instructions,
leave room for its operation. -/
theorem roomFor_of_within (hsession : (op.program.size : Int) ≤ l.session)
    (hvalues : ∀ pc < op.program.size, op.program.code.Consistent values pc)
    (hwithin : ∀ pc < op.program.size, (bitLength (values pc) : Int) ≤ l.registerBits) :
    l.RoomFor op (op.operandsIn values) := by
  refine ⟨hsession, fun n hn => ?_, fun n hn => ?_⟩
  · obtain ⟨pc, hpc, rfl⟩ := List.mem_map.1 hn
    exact hwithin pc (Code.mem_positions.1 hpc).1
  · rw [intermediates_eq hvalues] at hn
    obtain ⟨s, hs, rfl⟩ := List.mem_map.1 hn
    have hlt : ∀ s ∈ op.sums, s.2 < op.program.size := by cases op <;> decide +kernel
    exact hwithin s.2 (hlt s hs)

/-- A run of a built-in circuit succeeds exactly if its operation is defined on the operands and the
limits leave room for it. Its values are then within the limit on registers. -/
theorem succeeds_or_not (hsession : (op.program.size : Int) ≤ l.session)
    (hbits : 0 ≤ l.registerBits) (hlen : ns.length = op.inputShape.size)
    (hns : ∀ n ∈ ns, Writable n) :
    ((op.Admissible ns ∧ l.RoomFor op ns) ∧ ∃ values, op.operandsIn values = ns ∧
        (∀ pc < op.program.size, op.program.code.Consistent values pc) ∧
        (∀ pc < op.program.size, (bitLength (values pc) : Int) ≤ l.registerBits) ∧
        Engine.run l op.artifact.imageId op.program (encodeNats ns) =
          .ofValues op.artifact op.program values) ∨
      ¬(op.Admissible ns ∧ l.RoomFor op ns) ∧
        (Engine.run l op.artifact.imageId op.program (encodeNats ns)).ending ≠ .success := by
  have hfault (h : (Engine.run l op.artifact.imageId op.program (encodeNats ns)).IsFault) :
      (Engine.run l op.artifact.imageId op.program (encodeNats ns)).ending ≠ .success := by
    obtain ⟨cause, hcause⟩ := h
    rw [hcause]
    exact Ending.noConfusion
  have hfails {reason : Halt} (h : op.Fails ns reason) :
      (Engine.run l op.artifact.imageId op.program (encodeNats ns)).ending ≠ .success := by
    rcases outcome_of_fails l op.artifact.imageId hns h with ⟨rows, journal, houtcome⟩ | h
    · rw [Engine.run_of_outcome houtcome]
      exact Ending.noConfusion
    · exact hfault h
  by_cases hadmissible : op.Admissible ns
  · rcases run_of_admissible l hlen hns hadmissible with ⟨values, hin, hvalues, hrun⟩ | h
    · have hwithin := Engine.within_of_success (Program.loaded_of_load op.load_blob) hbits
        op.not_hasConstant hrun
      exact .inl ⟨⟨hadmissible, hin ▸ roomFor_of_within hsession hvalues hwithin⟩, values, hin,
        hvalues, hwithin, hrun⟩
    · refine .inr ⟨fun hroom => ?_, hfault h⟩
      obtain ⟨rows, hrun⟩ :=
        succeeds_of_admissible op.artifact.imageId hlen hns hroom.2 hadmissible
      exact hfault h (by rw [hrun]; rfl)
  · refine .inr ⟨fun h => hadmissible h.1, ?_⟩
    rcases fails_or_admissible hlen with h | h | h
    · exact hfails h
    · exact hfails h
    · exact absurd h hadmissible

/-- Whether an operation passes on operands: it is defined there, the standard limits leave room for
it, and an expected value, if one is given, is that of its result. -/
structure Passes (op : Operation) (ns : List Nat) (expected : Option Value) : Prop where
  admissible : op.Admissible ns
  room : Limits.standard.RoomFor op ns
  alike : ∀ v, expected = some v → (op.outputShape.fill (op.outcome ns)).alike v = true

/-- Why a host cannot tell how an operation fails under the standard limits: a number without an
inverse, met by a run that no limit stops, or a result that is not the expected one. -/
inductive Untold (op : Operation) (host : Host) (ns : List Nat) (expected : Option Value) :
    Prop where
  | inverse (hop : op = .modinv) (hm : modulus ns ≠ 0)
      (hgcd : (ns.headD 0).gcd (modulus ns) ≠ 1)
      (hrun : ¬(Engine.run .standard op.artifact.imageId op.program (encodeNats ns)).IsFault)
      (hwrites : ¬(host.Writes (ns.headD 0) ∧ host.Writes (modulus ns)))
  | mismatch {v : Value} (hexpected : expected = some v) (hadmissible : op.Admissible ns)
      (hroom : Limits.standard.RoomFor op ns)
      (hdiffer : (op.outputShape.fill (op.outcome ns)).alike v = false)
      (htells : ¬host.Tells (Failure.mismatch v (op.outputShape.fill (op.outcome ns))).numbers)

variable {host : Host} {expected : Option Value}

theorem Untold.not_passes (h : op.Untold host ns expected) : ¬op.Passes ns expected := by
  intro hpasses
  cases h with
  | inverse hop hm hgcd => exact hgcd (hpasses.admissible.coprime hop)
  | mismatch hexpected _ _ hdiffer => simp [hpasses.alike _ hexpected] at hdiffer

/-- Under the standard limits only a number without an inverse may be too long to be told of. -/
theorem untold_of_not_tells (hlen : ns.length = op.inputShape.size) (hns : ∀ n ∈ ns, Writable n)
    (htells : ¬host.Tells (Engine.shown .standard op.program (encodeNats ns))) :
    op.Untold host ns expected := by
  have hp := Program.loaded_of_load op.load_blob
  have hfault : ¬(Engine.run .standard op.artifact.imageId op.program (encodeNats ns)).IsFault :=
    fun hfault => htells (Engine.tells_of_isFault hp (Host.writes_of_natAbs_lt (by decide))
      (Host.writes_of_natAbs_lt (by decide)) hfault)
  by_cases hm : modulus ns = 0
  · obtain ⟨rows, journal, houtcome⟩ := (outcome_of_fails .standard op.artifact.imageId hns
      (fails_of_modulus_eq_zero hlen hm)).resolve_right hfault
    rw [Engine.shown_of_halt houtcome] at htells
    exact absurd Host.tells_nil htells
  by_cases hcoprime : op = .modinv → (ns.headD 0).gcd (modulus ns) = 1
  · obtain ⟨values, -, -, hrun⟩ :=
      (run_of_admissible .standard hlen hns ⟨hm, hcoprime⟩).resolve_right hfault
    rw [Engine.shown_of_success (by rw [hrun]; rfl)] at htells
    exact absurd Host.tells_nil htells
  · obtain ⟨rfl, hgcd⟩ := Classical.not_imp.1 hcoprime
    obtain ⟨rows, journal, houtcome⟩ := (outcome_of_fails .standard modinv.artifact.imageId hns
      (fails_of_not_coprime hlen hm hgcd)).resolve_right hfault
    refine .inverse rfl hm hgcd hfault fun hwrites => htells ?_
    rw [Engine.shown_of_halt houtcome, Halt.numbers, Host.tells_cons, Host.tells_cons]
    exact ⟨hwrites.1, hwrites.2, Host.tells_nil⟩

/-- A number without an inverse that is too long is not told of. -/
theorem not_tells_of_inverse (hlen : ns.length = modinv.inputShape.size)
    (hns : ∀ n ∈ ns, Writable n) (hm : modulus ns ≠ 0)
    (hgcd : (ns.headD 0).gcd (modulus ns) ≠ 1)
    (hrun : ¬(Engine.run .standard modinv.artifact.imageId modinv.program
      (encodeNats ns)).IsFault)
    (hwrites : ¬(host.Writes (ns.headD 0) ∧ host.Writes (modulus ns))) :
    ¬host.Tells (Engine.shown .standard modinv.program (encodeNats ns)) := by
  obtain ⟨rows, journal, houtcome⟩ := (outcome_of_fails .standard modinv.artifact.imageId hns
    (fails_of_not_coprime hlen hm hgcd)).resolve_right hrun
  rw [Engine.shown_of_halt houtcome, Halt.numbers, Host.tells_cons, Host.tells_cons]
  exact fun h => hwrites ⟨h.1, h.2.1⟩

end Operation

namespace Pipeline

variable {host : Host} {op : Operation} {operands : Value} {ns : List Nat}
  {expected : Option Value} {prover : Option ProverOptions}

/-- A pipeline for a run that did not succeed ends in a reported way, if the host can tell how the
run ended. -/
theorem reported_of_not_success (prover : Option ProverOptions) (expected : Option Value)
    (hshape : operands.shape = op.inputShape) (hflatten : operands.flatten = .ok ns)
    (htells : host.Tells (Engine.shown .standard op.program (encodeNats ns)))
    (hending : (Engine.run .standard op.artifact.imageId op.program (encodeNats ns)).ending ≠
      .success) :
    ∃ f, result ⟨host, .standard, .standard⟩ prover ⟨op.name, operands, expected⟩ = .error f ∧
      f.isReported = true := by
  have hrun := run_standard host op .standard hflatten
  have hexecute := execute_artifact host op .standard (encodeNats ns)
  rw [if_pos htells] at hrun hexecute
  have hended := mt (Engine.checkTermination_of_execute hexecute).1 hending
  cases hend : Validator.checkTermination host
      (Engine.run .standard op.artifact.imageId op.program (encodeNats ns)) with
  | ok => exact absurd hend hended
  | error f =>
    refine ⟨f, ?_, Engine.isReported_of_checkTermination hexecute hend⟩
    rw [result_of_find prover expected (find_standard host op .standard) hshape hrun, expectation]
    cases expected with
    | none => rw [hend]; rfl
    | some v => rw [ok_bind, Validator.judgement, hend]; rfl

/-- A run that is compared with the value of its result alone, if at all, has a report, unless it is
to be proved under options that are not usable. -/
theorem report_or_misuse {values : Nat → Nat} (host : Host)
    (hvalues : ∀ pc < op.program.size, op.program.code.Consistent values pc)
    (hwritable : ∀ pc < op.program.size, Writable (values pc))
    (hchecked : ∀ o, prover = some o → o.Checked) {v : Value}
    (halike : (op.outputShape.fill (op.outcome (op.operandsIn values))).alike v = true) :
    (∃ report, Validator.judgement ⟨host, op, prover.map fun o => (o, op.artifact)⟩
        (.ofValues op.artifact op.program values) v = .ok report ∧ report.operation = op ∧
        report.value = op.outputShape.fill (op.outcome (op.operandsIn values))) ∨
      ∃ o m, prover = some o ∧ ¬o.Usable op.program.size ∧
        Validator.judgement ⟨host, op, prover.map fun o => (o, op.artifact)⟩
          (.ofValues op.artifact op.program values) v = .error (.misuse m) := by
  have hoperands : ∀ n ∈ op.operandsIn values, Writable n := by
    intro n hn
    obtain ⟨pc, hpc, rfl⟩ := List.mem_map.1 hn
    exact hwritable pc (Code.mem_positions.1 hpc).1
  rw [Validator.judgement_eq host _ hvalues hoperands, if_pos halike]
  cases prover with
  | none => exact .inl ⟨_, rfl, rfl, rfl⟩
  | some o =>
    have hsize : 1 < op.program.size := by cases op <;> decide +kernel
    rcases Session.proved_or_misuse (a := op.artifact) host op.load_blob op.endsWell_program hvalues
      hwritable hsize (hchecked o rfl) with ⟨-, proof, hproof, hverify⟩ | ⟨husable, m, hmisuse⟩
    · left
      have hprove : Validator.Progress.outcome (Validator.proved
          ⟨host, op, some (o, op.artifact)⟩ o (.ofValues op.artifact op.program values))
            (fun proof => proof.receipt.accept op.artifact) = .ok proof := by
        rw [Validator.Progress.outcome, Validator.proved, hproof, mapError_ok, ok_bind,
          Receipt.accept, hverify]
        rfl
      simp only [Option.map_some, hprove]
      exact ⟨_, rfl, rfl, rfl⟩
    · refine .inr ⟨o, m, rfl, husable, ?_⟩
      have hprove : Validator.Progress.outcome (Validator.proved
          ⟨host, op, some (o, op.artifact)⟩ o (.ofValues op.artifact op.program values))
            (fun proof => proof.receipt.accept op.artifact) = .error (.misuse m) := by
        rw [Validator.Progress.outcome, Validator.proved, hmisuse]
        rfl
      simp only [Option.map_some, hprove]
      rfl

/-- A successful run is compared with the expected value or, without one, with the reference. -/
theorem exists_expectation (host : Host) (values : Nat → Nat) (expected : Option Value)
    (hshape : operands.shape = op.inputShape) (hflatten : operands.flatten = .ok ns)
    (hadmissible : op.Admissible ns) :
    ∃ v, expectation host op ⟨op.name, operands, expected⟩
        (.ofValues op.artifact op.program values) = .ok v ∧
      (expected = some v ∨ expected = none ∧ v = op.outputShape.fill (op.outcome ns)) := by
  cases expected with
  | some v => exact ⟨v, rfl, .inl rfl⟩
  | none =>
    refine ⟨_, ?_, .inr ⟨rfl, rfl⟩⟩
    rw [expectation, Operation.expected_eq_ok hshape hflatten hadmissible]
    rfl

/-- A pipeline for a built-in operation, under the standard limits and checked options, has a report
on the value of the result if the operation passes, unless the options are not usable. If the
operation does not pass, it ends in a reported way, unless the host cannot tell how it fails. -/
theorem result_standard_cases (host : Host) (hshape : operands.shape = op.inputShape)
    (hflatten : operands.flatten = .ok ns) (hns : ∀ n ∈ ns, Writable n)
    (hchecked : ∀ o, prover = some o → o.Checked) :
    (op.Passes ns expected ∧
      ((∃ report, result ⟨host, .standard, .standard⟩ prover ⟨op.name, operands, expected⟩ =
            .ok report ∧
          report.operation = op ∧ report.value = op.outputShape.fill (op.outcome ns)) ∨
        ∃ o m, prover = some o ∧ ¬o.Usable op.program.size ∧
          result ⟨host, .standard, .standard⟩ prover ⟨op.name, operands, expected⟩ =
            .error (.misuse m))) ∨
      (¬op.Passes ns expected ∧ ¬op.Untold host ns expected ∧ ∃ f,
        result ⟨host, .standard, .standard⟩ prover ⟨op.name, operands, expected⟩ = .error f ∧
          f.isReported = true) ∨
      op.Untold host ns expected ∧
        result ⟨host, .standard, .standard⟩ prover ⟨op.name, operands, expected⟩ =
          .error (.misuse .tooManyDigits) := by
  have hlen := Operation.length_operands hshape hflatten
  have hrun := run_standard host op .standard hflatten
  have hsession : (op.program.size : Int) ≤ Limits.standard.session := by
    cases op <;> decide +kernel
  rcases Operation.succeeds_or_not hsession (by decide) hlen hns with
    ⟨⟨hadmissible, hroom⟩, values, rfl, hvalues, hwithin, hsuccess⟩ | ⟨hnot, hending⟩
  · have hwritable : ∀ pc < op.program.size, Writable (values pc) := by
      intro pc hpc
      have hbits : (bitLength (values pc) : Int) ≤ 65536 := hwithin pc hpc
      have hlimbs : (limbs (values pc)).length ≤ 2048 := length_limbs_le_of_bitLength (by omega)
      exact Nat.lt_of_le_of_lt hlimbs (by decide)
    rw [Engine.shown_of_success (by rw [hsuccess]; rfl), if_pos Host.tells_nil, hsuccess] at hrun
    obtain ⟨v, hv, hcompared⟩ := exists_expectation host values expected hshape hflatten hadmissible
    rw [result_of_find prover expected (find_standard host op .standard) hshape hrun, hv, ok_bind]
    by_cases halike : (op.outputShape.fill (op.outcome (op.operandsIn values))).alike v = true
    · have hlike (w : Value) (hw : expected = some w) :
          (op.outputShape.fill (op.outcome (op.operandsIn values))).alike w = true := by
        rcases hcompared with h | ⟨h, -⟩
        · rwa [← Option.some.inj (h.symm.trans hw)]
        · cases h.symm.trans hw
      exact .inl ⟨⟨hadmissible, hroom, hlike⟩,
        report_or_misuse host hvalues hwritable hchecked halike⟩
    · -- the reference would be alike, so it is the expected value that differs
      obtain rfl : expected = some v := hcompared.resolve_right fun h =>
        halike (h.2 ▸ Shape.alike_fill op.proper_outputShape (Operation.length_outcome hlen))
      right
      rw [Validator.judgement_eq host _ hvalues hns, if_neg halike, Failure.told]
      split
      · next htells =>
        refine .inl ⟨fun h => halike (h.alike v rfl), ?_, _, rfl, rfl⟩
        rintro (⟨hop, -, hgcd, -, -⟩ | ⟨hexpected, -, -, -, huntold⟩)
        · exact hgcd (hadmissible.coprime hop)
        · cases hexpected
          exact huntold htells
      · next htells =>
        exact .inr ⟨.mismatch rfl hadmissible hroom (Bool.eq_false_iff.2 halike) htells, rfl⟩
  · by_cases htells : host.Tells (Engine.shown .standard op.program (encodeNats ns))
    · refine .inr (.inl ⟨fun h => hnot ⟨h.admissible, h.room⟩, ?_,
        reported_of_not_success prover expected hshape hflatten htells hending⟩)
      rintro (⟨rfl, hm, hgcd, hrun, hwrites⟩ | ⟨-, hadmissible, hroom, -, -⟩)
      · exact Operation.not_tells_of_inverse hlen hns hm hgcd hrun hwrites htells
      · exact hnot ⟨hadmissible, hroom⟩
    · rw [if_neg htells] at hrun
      exact .inr (.inr ⟨Operation.untold_of_not_tells hlen hns htells,
        result_of_run_error prover expected (find_standard host op .standard) hshape hrun⟩)

end Pipeline

end CircuitReceipts
