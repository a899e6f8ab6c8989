import CircuitReceipts.Proofs.Engine.RegisterSize
import CircuitReceipts.Proofs.Pipeline

/-!
# Reported failures

A pipeline is meant to fail only with a judgement on the artifact, the run or the result. Any
artifact may be registered under the name of an operation, though, and one that succeeds where the
operation is not defined sends the pipeline to a reference that has no result. And a judgement that
has to be put into words with numbers is none where the host cannot write them. These are the only
ways in which operands of the right shape end in a failure that is not reported.
-/

namespace CircuitReceipts

/-- A failure is told as it is, or there are too many digits in it. -/
theorem Failure.told_eq_or (host : Host) (f : Failure) :
    f.told host = f ∨ f.told host = .misuse .tooManyDigits ∧ ¬host.Tells f.numbers := by
  rw [told]
  split
  · exact .inl rfl
  · next htells => exact .inr ⟨rfl, htells⟩

namespace Engine

variable {host : Host} {l : Limits} {a : Artifact} {input : Bytes} {s : Session}

theorem checkTermination_of_execute (h : execute host l a input = .ok s) :
    Validator.checkTermination host s = .ok () ↔ s.ending = .success := by
  constructor
  · intro hend
    rw [Validator.checkTermination] at hend
    split at hend
    · cases hend
    · cases hend
    · assumption
  · intro hending
    obtain ⟨p, hload, -, hrun⟩ := execute_eq_ok_iff.1 h
    obtain ⟨-, values, rfl, -⟩ := of_run_success (Program.loaded_of_load hload) hrun hending
    rfl

/-- How the session of an artifact ended is told by the host that has it. -/
theorem isReported_of_checkTermination {f : Failure} (h : execute host l a input = .ok s)
    (hend : Validator.checkTermination host s = .error f) : f.isReported = true := by
  obtain ⟨p, hload, -, rfl⟩ := execute_eq_ok_iff.1 h
  have hwrites := writes_exitCode (Program.loaded_of_load hload) host l a.imageId input
  have htells : host.Tells (Failure.termination (run l a.imageId p input).exitCode).numbers := by
    rw [Failure.numbers, ExitCode.numbers]
    split
    · exact Host.tells_cons.2 ⟨hwrites, Host.tells_nil⟩
    · exact Host.tells_nil
  rw [Validator.checkTermination, Failure.told, if_pos htells] at hend
  split at hend
  · cases hend
    rfl
  · cases hend
    rfl
  · split at hend
    · cases hend
    · cases hend
      rfl

end Engine

namespace Validator

variable {v : Validator} {s : Session} {expected : Value} {f : Failure}

/-- A journal that is not that of the expected value is reported, or has a value that cannot be told
apart from it in words. -/
theorem error_of_compare_decoded
    (h : Progress.outcome (v.decoded s) (compare v.host expected) = .error f) :
    f.isReported = true ∨ f = .misuse .tooManyDigits ∧
      ∃ got, decode s.journal v.operation.outputShape = .ok got ∧ got.alike expected = false ∧
        ¬v.host.Tells (Failure.mismatch expected got).numbers := by
  rw [Progress.outcome] at h
  cases hread : decode s.journal v.operation.outputShape with
  | error cause =>
    obtain ⟨cause, rfl⟩ := Shape.error_of_decode v.operation.proper_outputShape hread
    rw [decoded, hread] at h
    cases h
    exact .inl rfl
  | ok got =>
    rw [decoded, hread, mapError_ok, ok_bind, compare] at h
    split at h
    · cases h
    next hdiffer =>
    cases h
    rcases Failure.told_eq_or v.host (.mismatch expected got) with htold | ⟨htold, htells⟩
    · rw [htold]
      exact .inl rfl
    · exact .inr ⟨htold, got, rfl, Bool.eq_false_iff.2 hdiffer, htells⟩

/-- Without a proof the judgement on a session that ended well is that on its journal. -/
theorem judgement_of_ended (hended : checkTermination v.host s = .ok ())
    (hproving : v.proving = none) : v.judgement s expected =
      (Progress.outcome (v.decoded s) (compare v.host expected)).map
        fun value => v.report s value none := by
  rw [judgement, hended, hproving, ok_bind]
  cases Progress.outcome (v.decoded s) (compare v.host expected) <;> rfl

end Validator

namespace Pipeline

variable {setup : Setup} {name : Text} {op : Operation} {a : Artifact} {s : Session}
  {operands : Value} {ns : List Nat} {f : Failure}

theorem find_eq_ok : find setup name = .ok (op, a) ↔
    Operation.ofName? name = some op ∧ setup.registry.lookup? name = some a := by
  rw [find]
  split
  · simp_all
  · next hnone =>
    constructor
    · intro h
      cases h
    · rintro ⟨hop, ha⟩
      exact absurd ha (hnone op a hop)

theorem isReported_of_find (h : find setup name = .error f) : f.isReported = true := by
  rw [find] at h
  split at h
  · cases h
  · cases h
    rfl

/-- The failures of a pipeline without a prover and an expected result that are not reported: the
reference is asked for a result that it does not have, or what there is to report has too many
digits for the host, be it the end of the run or two results that differ. -/
inductive Unreported (setup : Setup) (name : Text) (operands : Value) (ns : List Nat) :
    Failure → Prop where
  | undefined {op : Operation} {a : Artifact} {s : Session} (hfind : find setup name = .ok (op, a))
      (hexecute : Engine.execute setup.host setup.limits a (encodeNats ns) = .ok s)
      (hending : s.ending = .success) (hadmissible : ¬op.Admissible ns) :
      Unreported setup name operands ns (.reference op.undefinedness)
  | untold {op : Operation} {a : Artifact} {p : Program} (hfind : find setup name = .ok (op, a))
      (hload : Program.load a.blob = .ok p)
      (huntold : Engine.Untold setup.host setup.limits p (encodeNats ns)) :
      Unreported setup name operands ns (.misuse .tooManyDigits)
  | mismatch {op : Operation} {a : Artifact} {s : Session} {expected got : Value}
      (hfind : find setup name = .ok (op, a))
      (hexecute : Engine.execute setup.host setup.limits a (encodeNats ns) = .ok s)
      (hending : s.ending = .success) (hexpected : op.expected operands = .ok expected)
      (hgot : decode s.journal op.outputShape = .ok got) (hdiffer : got.alike expected = false)
      (htells : ¬setup.host.Tells (Failure.mismatch expected got).numbers) :
      Unreported setup name operands ns (.misuse .tooManyDigits)

theorem Unreported.isReported_eq_false (h : Unreported setup name operands ns f) :
    f.isReported = false := by
  cases h with
  | undefined => rfl
  | untold => rfl
  | mismatch => rfl

/-- The judgement on a session that ended well, where the reference has a result. -/
theorem result_of_success (hfind : find setup name = .ok (op, a))
    (hshape : operands.shape = op.inputShape) (hflatten : operands.flatten = .ok ns)
    (hexecute : Engine.execute setup.host setup.limits a (encodeNats ns) = .ok s)
    (hending : s.ending = .success) {expected : Value}
    (hexpected : op.expected operands = .ok expected) :
    result setup none ⟨name, operands, none⟩ =
      (Validator.Progress.outcome (Validator.decoded ⟨setup.host, op, none⟩ s)
        (Validator.compare setup.host expected)).map
          fun value => Validator.report ⟨setup.host, op, none⟩ s value none := by
  have hrun := run_of_flatten setup.host setup.limits a hflatten
  rw [hexecute, mapError_ok] at hrun
  have hended := (Engine.checkTermination_of_execute hexecute).2 hending
  rw [result_of_find none none hfind hshape hrun]
  simp only [expectation, hended, hexpected, mapError_ok, ok_bind]
  exact Validator.judgement_of_ended (v := ⟨setup.host, op, none⟩) hended rfl

/-- A failure that is not reported is one of those. -/
theorem unreported_of_result
    (hshape : ∀ op, Operation.ofName? name = some op → operands.shape = op.inputShape)
    (hflatten : operands.flatten = .ok ns)
    (h : result setup none ⟨name, operands, none⟩ = .error f) (hnot : ¬f.isReported = true) :
    Unreported setup name operands ns f := by
  cases hfind : find setup name with
  | error e =>
    rw [result, hfind] at h
    cases h
    exact absurd (isReported_of_find hfind) hnot
  | ok found =>
  obtain ⟨op, a⟩ := found
  have hshape := hshape op (find_eq_ok.1 hfind).1
  have hrun := run_of_flatten setup.host setup.limits a hflatten
  cases hload : Program.load a.blob with
  | error e =>
    rw [Engine.execute, hload] at hrun
    rw [result_of_run_error none none hfind hshape hrun] at h
    cases h
    exact absurd rfl hnot
  | ok p =>
  by_cases htells : setup.host.Tells (Engine.shown setup.limits p (encodeNats ns))
  swap
  · rw [Engine.execute_of_load hload, if_neg htells] at hrun
    rw [result_of_run_error none none hfind hshape hrun] at h
    cases h
    exact .untold hfind hload ((Engine.untold_iff (Program.loaded_of_load hload)).2 htells)
  have hexecute := Engine.execute_of_tells hload htells
  by_cases hending : (Engine.run setup.limits a.imageId p (encodeNats ns)).ending = .success
  swap
  · rw [hexecute, mapError_ok] at hrun
    rw [result_of_find none none hfind hshape hrun] at h
    simp only [expectation, bind_assoc] at h
    cases hend : Validator.checkTermination setup.host
        (Engine.run setup.limits a.imageId p (encodeNats ns)) with
    | ok => exact absurd ((Engine.checkTermination_of_execute hexecute).1 hend) hending
    | error e =>
      rw [hend] at h
      cases h
      exact absurd (Engine.isReported_of_checkTermination hexecute hend) hnot
  by_cases hadmissible : op.Admissible ns
  · have hexpected := Operation.expected_eq_ok hshape hflatten hadmissible
    rw [result_of_success hfind hshape hflatten hexecute hending hexpected] at h
    rcases Validator.error_of_compare_decoded (v := ⟨setup.host, op, none⟩) (map_eq_error.1 h) with
      hreported | ⟨rfl, got, hgot, hdiffer, htells⟩
    · exact absurd hreported hnot
    · exact .mismatch hfind hexecute hending hexpected hgot hdiffer htells
  · rw [hexecute, mapError_ok] at hrun
    rw [result_of_find none none hfind hshape hrun] at h
    simp only [expectation, (Engine.checkTermination_of_execute hexecute).2 hending, ok_bind,
      Operation.expected_eq_error hshape hflatten hadmissible] at h
    cases h
    exact .undefined hfind hexecute hending hadmissible

theorem result_of_unreported
    (hshape : ∀ op, Operation.ofName? name = some op → operands.shape = op.inputShape)
    (hflatten : operands.flatten = .ok ns) (h : Unreported setup name operands ns f) :
    result setup none ⟨name, operands, none⟩ = .error f := by
  cases h with
  | @undefined op a s hfind hexecute hending hadmissible =>
    have hshape := hshape op (find_eq_ok.1 hfind).1
    have hrun := run_of_flatten setup.host setup.limits a hflatten
    rw [hexecute, mapError_ok] at hrun
    rw [result_of_find none none hfind hshape hrun]
    simp only [expectation, bind_assoc]
    rw [(Engine.checkTermination_of_execute hexecute).2 hending, ok_bind,
      Operation.expected_eq_error hshape hflatten hadmissible]
    rfl
  | @untold op a p hfind hload huntold =>
    have hshape := hshape op (find_eq_ok.1 hfind).1
    have hrun := run_of_flatten setup.host setup.limits a hflatten
    rw [Engine.execute_of_load hload,
      if_neg ((Engine.untold_iff (Program.loaded_of_load hload)).1 huntold)] at hrun
    exact result_of_run_error none none hfind hshape hrun
  | @mismatch op a s expected got hfind hexecute hending hexpected hgot hdiffer htells =>
    have hshape := hshape op (find_eq_ok.1 hfind).1
    have hcompare :
        Validator.compare setup.host expected got = .error (.misuse .tooManyDigits) := by
      rw [Validator.compare, if_neg (by simp [hdiffer]), Failure.told, if_neg htells]
    rw [result_of_success hfind hshape hflatten hexecute hending hexpected,
      Validator.Progress.outcome, Validator.decoded, hgot, mapError_ok, ok_bind, hcompare]
    rfl

/-- Whatever artifacts are registered, a pipeline without a prover and an expected result fails in a
way that is not reported exactly if the artifact succeeds on operands on which the operation is not
defined, and the failure is that of the reference, or if there is something to report that the host
cannot write. All that is asked of the operands is that they are natural numbers in the shape of the
operation. -/
theorem error_not_reported_iff (setup : Setup) (manner : Manner) (observation : Observation)
    (hshape : ∀ op, Operation.ofName? name = some op → operands.shape = op.inputShape)
    (hflatten : operands.flatten = .ok ns) :
    (((verify setup none manner ⟨name, operands, none⟩).runFrom observation).1 = .error f ∧
        f.isReported = false) ↔ Unreported setup name operands ns f := by
  rw [gives_verify setup none manner ⟨name, operands, none⟩ observation]
  constructor
  · rintro ⟨h, hreported⟩
    exact unreported_of_result hshape hflatten h (by simp [hreported])
  · intro h
    exact ⟨result_of_unreported hshape hflatten h, h.isReported_eq_false⟩

def constantArtifact (op : Operation) : Artifact :=
  { Engine.committedConstantArtifact with name := op.name }

def constantSetup (op : Operation) : Setup :=
  ⟨.standard, ⟨[(op.name, constantArtifact op)]⟩, .standard⟩

theorem find_constantSetup (op : Operation) :
    find (constantSetup op) op.name = .ok (op, constantArtifact op) := by
  cases op <;> rfl

theorem execute_constantArtifact (op : Operation) (ns : List Nat) :
    ∃ s, Engine.execute .standard .standard (constantArtifact op) (encodeNats ns) = .ok s ∧
      s.ending = .success := by
  have hload : Program.load Engine.committedConstantArtifact.blob =
      .ok Engine.committedConstant := by decide +kernel
  have hending : (Engine.run .standard (constantArtifact op).imageId Engine.committedConstant
      (encodeNats ns)).ending = .success := by
    rw [Engine.run, Engine.outcome, WordReader.ofBytes_encodeNats]
    rfl
  exact ⟨_, Engine.execute_of_success (a := constantArtifact op) hload hending, hending⟩

/-- Two has no inverse modulo four, which only the reference notices. -/
theorem error_not_reported_modinv :
    Registry.ofEntries [("modinv", constantArtifact .modinv)] =
        .ok (constantSetup .modinv).registry ∧
      (∀ op, Operation.ofName? "modinv" = some op →
        (Value.tuple [.int 2, .int 4]).shape = op.inputShape) ∧
      (Value.tuple [.int 2, .int 4]).flatten = .ok [2, 4] ∧
      ((verify (constantSetup .modinv) none .sequential
        ⟨"modinv", .tuple [.int 2, .int 4], none⟩).runFrom .empty).1 =
          .error (.reference (.misuse .badValue)) := by
  have hshape (op : Operation) (hop : Operation.ofName? "modinv" = some op) :
      (Value.tuple [.int 2, .int 4]).shape = op.inputShape := by
    obtain rfl : .modinv = op := Option.some.inj ((Operation.ofName?_name .modinv).symm.trans hop)
    rfl
  have hflatten : (Value.tuple [.int 2, .int 4]).flatten = .ok [2, 4] := rfl
  have hadmissible : ¬Operation.modinv.Admissible [2, 4] :=
    fun h => absurd (h.coprime rfl) (by decide)
  obtain ⟨s, hexecute, hending⟩ := execute_constantArtifact .modinv [2, 4]
  exact ⟨rfl, hshape, hflatten, ((error_not_reported_iff (constantSetup .modinv) .sequential .empty
    hshape hflatten).2 (.undefined (find_constantSetup .modinv) hexecute hending hadmissible)).1⟩

/-- Not every failure is reported: a registered artifact succeeds on a modulus of zero, and the
reference then divides by it. -/
theorem reference_divides_by_zero :
    Registry.ofEntries [("modmul", constantArtifact .modmul)] =
        .ok (constantSetup .modmul).registry ∧
      (Value.tuple [.int 4, .int 7, .int 0]).shape = Operation.modmul.inputShape ∧
      (Value.tuple [.int 4, .int 7, .int 0]).flatten = .ok [4, 7, 0] ∧
      ∃ f, ((verify (constantSetup .modmul) none .sequential
        ⟨"modmul", .tuple [.int 4, .int 7, .int 0], none⟩).runFrom .empty).1 = .error f ∧
          f.isReported = false := by
  have hshape : (Value.tuple [.int 4, .int 7, .int 0]).shape = Operation.modmul.inputShape := rfl
  have hflatten : (Value.tuple [.int 4, .int 7, .int 0]).flatten = .ok [4, 7, 0] := rfl
  have hshapes (op : Operation) (hop : Operation.ofName? "modmul" = some op) :
      (Value.tuple [.int 4, .int 7, .int 0]).shape = op.inputShape := by
    obtain rfl : .modmul = op := Option.some.inj ((Operation.ofName?_name .modmul).symm.trans hop)
    exact hshape
  have hadmissible : ¬Operation.modmul.Admissible [4, 7, 0] := fun h => h.modulus_ne_zero rfl
  obtain ⟨s, hexecute, hending⟩ := execute_constantArtifact .modmul [4, 7, 0]
  refine ⟨rfl, hshape, hflatten, .reference (.misuse .divisionByZero), ?_, rfl⟩
  rw [gives_verify (constantSetup .modmul) none .sequential _ .empty]
  exact result_of_unreported hshapes hflatten
    (.undefined (find_constantSetup .modmul) hexecute hending hadmissible)

end Pipeline

end CircuitReceipts
