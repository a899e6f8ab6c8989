import CircuitReceipts.CommandLine
import CircuitReceipts.Proofs.CommandLine.Parsing
import CircuitReceipts.Proofs.Pipeline.Standard

/-!
# What a run ends with

A run is a chain of readings, of its operands, of an expected result and of the options of a prover,
and then a pipeline on the built-in circuits. A text that cannot be read does not fit; options can
also be misused while they are read; and a failure of the pipeline is an output of status one if it
is reported, and ends the run else.
-/

namespace CircuitReceipts

namespace RunArguments

variable (op : Operation) (operands : List Text) (os : List RunOption)

theorem operation_ofOptions : (ofOptions op operands os).operation = op.name :=
  List.foldlRecOn (motive := fun a => a.operation = op.name) os RunOption.apply rfl
    fun _ ha o _ => by cases o <;> exact ha

theorem operands_ofOptions : (ofOptions op operands os).operands = operands :=
  List.foldlRecOn (motive := fun a => a.operands = operands) os RunOption.apply rfl
    fun _ ha o _ => by cases o <;> exact ha

theorem manifest_ofOptions : (ofOptions op operands os).manifest = none :=
  List.foldlRecOn (motive := fun a => a.manifest = none) os RunOption.apply rfl
    fun _ ha o _ => by cases o <;> exact ha

end RunArguments

namespace Failure

variable {f : Failure}

theorem exists_message (h : f.isReported = true) : ∃ m, f.message? = some m := by
  cases f with
  | manifest e =>
    cases e with
    | unreadable | unreadableArtifact | noPath | imageMismatch => exact ⟨_, rfl⟩
    | misnamed | file | misuse => cases h
  | unknownOperation | load | fault | termination | read | mismatch => exact ⟨_, rfl⟩
  | unproved | unverified | operand | noArtifact => exact ⟨_, rfl⟩
  | reference | options | misuse => cases h

end Failure

namespace CommandLine

variable {host : Host} {t : FileTree} {s : Shape} {texts : List Text} {zs : List Int} {f : Failure}
  {e : Abort}

theorem exists_failed (t : FileTree) (logged : List Text) (h : f.isReported = true) :
    ∃ out, failed t logged f = .ok out ∧ out.status = 1 := by
  obtain ⟨m, hm⟩ := f.exists_message h
  rw [failed, h, hm]
  exact ⟨_, rfl, rfl⟩

theorem failed_of_not_reported (t : FileTree) (logged : List Text) (h : f.isReported = false) :
    failed t logged f = .error (.failure f) := by
  rw [failed, h]

/-- Texts have a value exactly if each of them is an integer and there are as many as the shape has
places. -/
theorem value_eq_ok {v : Value} : value s texts = .ok v ↔
    ∃ zs, texts.mapM ofHexText = .ok zs ∧ zs.length = s.size ∧ s.arrange zs = v := by
  rw [value]
  cases texts.mapM ofHexText with
  | error => simp
  | ok zs =>
    simp only [mapError_eq_ok, Shape.group, Except.ok.injEq, exists_eq_left']
    split
    · next hlen => simp [hlen, Shape.arrange]
    · next hlen => simp [hlen]

theorem eq_misfit_of_value (h : value s texts = .error e) : e = misfit := by
  rw [value] at h
  split at h
  · cases h
    rfl
  · cases hgroup : s.group _ with
    | ok v =>
      rw [hgroup] at h
      cases h
    | error =>
      rw [hgroup] at h
      cases h
      rfl

theorem eq_misfit_of_mapM_value {expected : Option (List Text)}
    (h : expected.mapM (value s) = .error e) : e = misfit := by
  cases expected with
  | none => cases h
  | some texts =>
    rw [Option.mapM_some] at h
    cases hvalue : value s texts with
    | ok v =>
      rw [hvalue] at h
      cases h
    | error e =>
      rw [hvalue] at h
      cases h
      exact eq_misfit_of_value hvalue

theorem value_eq_misfit {x : Text} (hx : x ∈ texts) {cause : HexError}
    (h : ofHexText x = .error cause) : value s texts = .error misfit := by
  cases hvalue : value s texts with
  | error e => rw [eq_misfit_of_value hvalue]
  | ok v =>
    obtain ⟨zs, hzs, -⟩ := value_eq_ok.1 hvalue
    obtain ⟨z, -, hz⟩ := exists_of_mem_of_mapM hzs hx
    cases h.symm.trans hz

/-- Options are read and have passed their checks, or the name does not fit, or the document in the
file is no object or too deep. -/
theorem options_cases (host : Host) (t : FileTree) (name : Text) :
    (∃ o, options host t name = .ok o ∧ o.Checked) ∨ options host t name = .error misfit ∨
      ∃ m ∈ [Misuse.notAnObject, .tooDeep],
        options host t name = .error (.failure (.misuse m)) := by
  rw [options]
  split
  · exact .inl ⟨_, rfl, by decide, by decide⟩
  split
  · exact .inl ⟨_, rfl, by decide, by decide⟩
  split
  · exact .inr (.inl rfl)
  split
  · exact .inr (.inr ⟨_, by simp, rfl⟩)
  · exact .inr (.inl rfl)
  · next j _ =>
    cases hj : ProverOptions.ofJson j with
    | ok o => exact .inl ⟨o, rfl, ProverOptions.checked_of_ofJson hj⟩
    | error e =>
      rw [mapError_error]
      split
      · exact .inr (.inr ⟨_, by simp, rfl⟩)
      · exact .inr (.inl rfl)

/-- The options of the prover of a run, if it is to be proved. -/
def proverOptions (host : Host) (t : FileTree) (a : RunArguments) :
    Except Abort (Option ProverOptions) :=
  match a.noProof, a.options with
  | true, _ => .ok none
  | false, some name => some <$> options host t name
  | false, none => .error misfit

/-- What a run of a built-in operation ends with, when its arguments have been read. -/
def ended (host : Host) (t : FileTree) (op : Operation) (prover : Option ProverOptions)
    (operands : Value) (expected : Option Value) : Except Abort Output :=
  match Pipeline.result ⟨host, .standard, .standard⟩ prover ⟨op.name, operands, expected⟩ with
  | .ok report => .ok ⟨0, lines (reportLines report), [], [], t⟩
  | .error f => failed t [] f

/-- What a run of a built-in operation ends with does not depend on the manner, nor on what is
logged. -/
theorem ended_of_verify (host : Host) (t : FileTree) (op : Operation)
    (prover : Option ProverOptions) (manner : Manner) (operands : Value) (expected : Option Value) :
    let seen := (Pipeline.verify ⟨host, .standard, .standard⟩ prover manner
      ⟨op.name, operands, expected⟩).runFrom .empty
    ((match seen.1 with
      | .ok report => pure ⟨0, lines (reportLines report), [], seen.2.logged, t⟩
      | .error f => failed t seen.2.logged f) >>= fun output =>
        pure { output with logged := [] }) = ended host t op prover operands expected := by
  have hgives := Pipeline.gives_verify ⟨host, .standard, .standard⟩ prover manner
    ⟨op.name, operands, expected⟩ .empty
  simp only [hgives, ended]
  cases Pipeline.result ⟨host, .standard, .standard⟩ prover ⟨op.name, operands, expected⟩ with
  | ok report => rfl
  | error f =>
    simp only [failed]
    split <;> rfl

/-- A run whose operands are natural numbers has the output of a report exactly if the operation
passes, unless the options of its prover are not usable; and the output of a failure if it does not,
unless the host cannot tell how it fails. -/
theorem ended_cases (host : Host) (t : FileTree) {op : Operation} {prover : Option ProverOptions}
    {operands : Value} (expected : Option Value) {ns : List Nat}
    (hshape : operands.shape = op.inputShape) (hflatten : operands.flatten = .ok ns)
    (hns : ∀ n ∈ ns, Writable n) (hchecked : ∀ o, prover = some o → o.Checked) :
    (op.Passes ns expected ∧
      ((∃ out ls, ended host t op prover operands expected = .ok out ∧ out.status = 0 ∧ out.out =
          lines ((op.name ++ ": " ++ shown (op.outputShape.fill (op.outcome ns))) :: ls)) ∨
        ∃ o m, prover = some o ∧ ¬o.Usable op.program.size ∧
          ended host t op prover operands expected = .error (.failure (.misuse m)))) ∨
      (¬op.Passes ns expected ∧ ¬op.Untold host ns expected ∧
        ∃ out, ended host t op prover operands expected = .ok out ∧ out.status = 1) ∨
      op.Untold host ns expected ∧
        ended host t op prover operands expected = .error (.failure (.misuse .tooManyDigits)) := by
  rw [ended]
  rcases Pipeline.result_standard_cases host hshape hflatten hns hchecked with
    ⟨hpasses, ⟨report, hreport, rfl, hvalue⟩ | ⟨o, m, hprover, husable, hmisuse⟩⟩ |
    ⟨hfails, htold, f, hf, hreported⟩ | ⟨huntold, hmisuse⟩
  · rw [hreport, ← hvalue]
    exact .inl ⟨hpasses, .inl ⟨_, _, rfl, rfl, rfl⟩⟩
  · rw [hmisuse]
    exact .inl ⟨hpasses, .inr ⟨o, m, hprover, husable, rfl⟩⟩
  · rw [hf]
    exact .inr (.inl ⟨hfails, htold, exists_failed t [] hreported⟩)
  · rw [hmisuse]
    exact .inr (.inr ⟨huntold, rfl⟩)

/-- A negative operand ends a run in a way that is not reported. -/
theorem ended_of_flatten_eq_error (host : Host) (t : FileTree) {op : Operation}
    (prover : Option ProverOptions) {operands : Value} (expected : Option Value)
    {cause : OperandError} (hshape : operands.shape = op.inputShape)
    (hflatten : operands.flatten = .error cause) :
    ended host t op prover operands expected = .error (.failure (.operand cause)) := by
  have hresult : Pipeline.result ⟨host, .standard, .standard⟩ prover ⟨op.name, operands, expected⟩ =
      .error (.operand cause) := by
    simp only [Pipeline.result, Pipeline.find_standard, ok_bind, Operation.checkOperands,
      if_pos hshape, mapError_ok, Pipeline.run, Value.encode, hflatten]
    rfl
  rw [ended, hresult]
  exact failed_of_not_reported t [] rfl

variable {operands : List Text} {os : List RunOption}

/-- A command line of a run that can be read is carried out in four steps. -/
theorem main_runLine (host : Host) (t : FileTree) (op : Operation)
    (hoperands : ∀ x ∈ operands, x.Bare) (hbare : ∀ o ∈ os, o.Bare) (hne : operands ≠ [])
    (hfits : ∀ o ∈ os, o.Fits) :
    main host t (runLine op operands os) = (do
      let v ← value op.inputShape operands
      let expected ← (RunArguments.ofOptions op operands os).expected.mapM (value op.outputShape)
      let prover ← proverOptions host t (.ofOptions op operands os)
      ended host t op prover v expected) := by
  rw [main, Command.parse_runLine op hoperands hbare hne hfits, mapError_ok, ok_bind, carryOut, run]
  simp only [RunArguments.operation_ofOptions, RunArguments.operands_ofOptions,
    RunArguments.manifest_ofOptions, Operation.ofName?_name, registry, proverOptions]
  cases value op.inputShape operands with
  | error e => rfl
  | ok v =>
    cases Option.mapM (value op.outputShape) (RunArguments.ofOptions op operands os).expected with
    | error e => rfl
    | ok expected =>
      cases (RunArguments.ofOptions op operands os).noProof with
      | true => exact ended_of_verify host t op none _ v expected
      | false =>
        cases (RunArguments.ofOptions op operands os).options with
        | none => rfl
        | some name =>
          simp only [ok_bind]
          cases options host t name with
          | error e => rfl
          | ok o => exact ended_of_verify host t op (some o) _ v expected

/-- A command line of a run that cannot be read does not fit. -/
theorem main_eq_misfit (host : Host) (t : FileTree) (op : Operation)
    (hoperands : ∀ x ∈ operands, x.Bare) (hbare : ∀ o ∈ os, o.Bare)
    (h : ¬(operands ≠ [] ∧ ∀ o ∈ os, o.Fits)) :
    main host t (runLine op operands os) = .error misfit := by
  have hunfit : operands = [] ∨ ∃ o ∈ os, ¬o.Fits := by
    by_contra hnot
    rw [not_or] at hnot
    exact h ⟨hnot.1, fun o ho => not_not.1 fun hunfit => hnot.2 ⟨o, ho, hunfit⟩⟩
  rw [main, Command.parse_runLine_eq_misfit op hoperands hbare hunfit]
  rfl

end CommandLine

end CircuitReceipts
