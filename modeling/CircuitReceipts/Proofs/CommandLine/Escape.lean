import CircuitReceipts.Proofs.CommandLine.Run

/-!
# Failures that escape

A run is meant to end with an output or to refuse its arguments. Two kinds of arguments are let
through that are not fit for use: a numeral with a minus sign is read as an operand, and a file of
prover options is not looked at for all that it has to be. And where a run fails over numbers that
the host cannot write in base ten, it cannot be told. Nothing else ends a run with a failure that is
not reported.
-/

namespace CircuitReceipts

theorem naturalOfInt_cases (zs : List Int) :
    (∃ ns : List Nat, zs = ns.map Int.ofNat) ∨
      ∃ n ∈ zs, n < 0 ∧ zs.mapM naturalOfInt = .error (.negative n) := by
  induction zs with
  | nil => exact .inl ⟨[], rfl⟩
  | cons z zs ih =>
    by_cases hz : z < 0
    · refine .inr ⟨z, List.mem_cons_self .., hz, ?_⟩
      rw [List.mapM_cons, naturalOfInt, if_pos hz]
      rfl
    · rcases ih with ⟨ns, rfl⟩ | ⟨n, hmem, hn, hnegative⟩
      · refine .inl ⟨z.toNat :: ns, ?_⟩
        rw [List.map_cons, Int.ofNat_eq_natCast, Int.toNat_of_nonneg (by omega)]
      · refine .inr ⟨n, List.mem_cons_of_mem _ hmem, hn, ?_⟩
        rw [List.mapM_cons, naturalOfInt, if_neg hz, hnegative]
        rfl

namespace CommandLine

variable {host : Host} {t : FileTree} {op : Operation} {a : RunArguments}

/-- The failures that end a run without being reported. -/
inductive Escape (host : Host) (t : FileTree) (op : Operation) (a : RunArguments) :
    Failure → Prop where
  /-- An operand is negative. -/
  | negative {x : Text} {n : Int} : x ∈ a.operands → ofHexText x = .ok n → n < 0 →
      Escape host t op a (.operand (.negative n))
  /-- The document with the options is no object, or too deep. -/
  | document {name : Text} {m : Misuse} : a.noProof = false → a.options = some name →
      m ∈ [Misuse.notAnObject, .tooDeep] →
      options host t name = .error (.failure (.misuse m)) → Escape host t op a (.misuse m)
  /-- The options have passed their checks, but are of no use for a proof of the operation. -/
  | unusable {name : Text} {o : ProverOptions} {m : Misuse} : a.noProof = false →
      a.options = some name → options host t name = .ok o → ¬o.Usable op.program.size →
      Escape host t op a (.misuse m)
  /-- The host cannot write the numbers over which the operation fails. -/
  | untold {ns : List Nat} {expected : Option Value} :
      a.operands.mapM ofHexText = .ok (ns.map Int.ofNat) →
      a.expected.mapM (value op.outputShape) = .ok expected → op.Untold host ns expected →
      Escape host t op a (.misuse .tooManyDigits)

/-- Options that have been read have passed their checks, and a misuse of them escapes; else they do
not fit, or escape at once. -/
theorem proverOptions_cases (host : Host) (t : FileTree) (op : Operation) (a : RunArguments) :
    (∃ prover, proverOptions host t a = .ok prover ∧ ∀ o, prover = some o →
        o.Checked ∧ ∀ m, ¬o.Usable op.program.size → Escape host t op a (.misuse m)) ∨
      proverOptions host t a = .error misfit ∨
      ∃ f, Escape host t op a f ∧ proverOptions host t a = .error (.failure f) := by
  rw [proverOptions]
  split
  · exact .inl ⟨none, rfl, by simp⟩
  · next name hproof hname =>
    rcases options_cases host t name with ⟨o, ho, hchecked⟩ | hmisfit | ⟨m, hm, hmisuse⟩
    · rw [ho]
      refine .inl ⟨some o, rfl, ?_⟩
      rintro o' ⟨⟩
      exact ⟨hchecked, fun m => .unusable hproof hname ho⟩
    · rw [hmisfit]
      exact .inr (.inl rfl)
    · rw [hmisuse]
      exact .inr (.inr ⟨_, .document hproof hname hm hmisuse, rfl⟩)
  · exact .inr (.inl rfl)

/-- A run whose arguments have been read ends with an output or escapes, and with an output only if
its operands are natural numbers. -/
theorem ended_or_escapes (op : Operation) {prover : Option ProverOptions} {v : Value}
    {expected : Option Value}
    (hwritable : ∀ x ∈ a.operands, ∀ n : Nat, ofHexText x = .ok (n : Int) → Writable n)
    (hvalue : value op.inputShape a.operands = .ok v)
    (hexpected : a.expected.mapM (value op.outputShape) = .ok expected)
    (hprover : ∀ o, prover = some o →
      o.Checked ∧ ∀ m, ¬o.Usable op.program.size → Escape host t op a (.misuse m)) :
    (∃ out, ended host t op prover v expected = .ok out ∧ (out.status = 0 ∨ out.status = 1) ∧
        ∀ x ∈ a.operands, ∃ n : Nat, ofHexText x = .ok (n : Int)) ∨
      ∃ f, Escape host t op a f ∧ ended host t op prover v expected = .error (.failure f) := by
  obtain ⟨zs, hzs, hsize, rfl⟩ := value_eq_ok.1 hvalue
  have hshape := op.inputShape.shape_arrange zs op.proper_inputShape hsize
  have hflatten := op.inputShape.flatten_arrange zs op.proper_inputShape hsize
  rcases naturalOfInt_cases zs with ⟨ns, rfl⟩ | ⟨n, hmem, hneg, hnegative⟩
  · rw [Shape.mapM_naturalOfInt] at hflatten
    have hns : ∀ n ∈ ns, Writable n := by
      intro n hn
      obtain ⟨x, hx, hread⟩ := exists_of_mem_mapM hzs (List.mem_map_of_mem hn)
      exact hwritable x hx n hread
    have hread : ∀ x ∈ a.operands, ∃ n : Nat, ofHexText x = .ok (n : Int) := by
      intro x hx
      obtain ⟨z, hz, hread⟩ := exists_of_mem_of_mapM hzs hx
      obtain ⟨n, -, rfl⟩ := List.mem_map.1 hz
      exact ⟨n, hread⟩
    rcases ended_cases host t expected hshape hflatten hns fun o ho => (hprover o ho).1 with
      ⟨-, ⟨out, -, hout, hstatus, -⟩ | ⟨o, m, ho, hunusable, hmisuse⟩⟩ |
      ⟨-, -, out, hout, hstatus⟩ | ⟨huntold, hmisuse⟩
    · exact .inl ⟨out, hout, .inl hstatus, hread⟩
    · exact .inr ⟨_, (hprover o ho).2 m hunusable, hmisuse⟩
    · exact .inl ⟨out, hout, .inr hstatus, hread⟩
    · exact .inr ⟨_, .untold hzs hexpected huntold, hmisuse⟩
  · obtain ⟨x, hx, hread⟩ := exists_of_mem_mapM hzs hmem
    exact .inr ⟨_, .negative hx hread hneg,
      ended_of_flatten_eq_error host t prover expected hshape (hflatten.trans hnegative)⟩

/-- A run of an operation, with any operands and options, has an output of status zero or one, which
it has only if its operands are natural numbers; or its arguments do not fit; or a negative operand,
a file of options or a failure that the host cannot tell escapes. An operand that is no numeral
never fits. -/
theorem ends_or_escapes (host : Host) (t : FileTree) (op : Operation) {operands : List Text}
    {os : List RunOption} (hoperands : ∀ x ∈ operands, x.Bare) (hbare : ∀ o ∈ os, o.Bare)
    (hwritable : ∀ x ∈ operands, ∀ n : Nat, ofHexText x = .ok (n : Int) → Writable n) :
    ((∃ out, main host t (runLine op operands os) = .ok out ∧
          (out.status = 0 ∨ out.status = 1) ∧
          ∀ x ∈ operands, ∃ n : Nat, ofHexText x = .ok (n : Int)) ∨
        main host t (runLine op operands os) = .error misfit ∨
        ∃ f, Escape host t op (.ofOptions op operands os) f ∧
          main host t (runLine op operands os) = .error (.failure f)) ∧
      ∀ x ∈ operands, ∀ cause, ofHexText x = .error cause →
        main host t (runLine op operands os) = .error misfit := by
  by_cases hfits : operands ≠ [] ∧ ∀ o ∈ os, o.Fits
  · have hmain := main_runLine host t op hoperands hbare hfits.1 hfits.2
    refine ⟨?_, fun x hx cause hcause => by rw [hmain, value_eq_misfit hx hcause]; rfl⟩
    cases hvalue : value op.inputShape operands with
    | error e =>
      rw [hmain, hvalue, eq_misfit_of_value hvalue]
      exact .inr (.inl rfl)
    | ok v =>
    cases hexpected :
        (RunArguments.ofOptions op operands os).expected.mapM (value op.outputShape) with
    | error e =>
      rw [hmain, hvalue, ok_bind, hexpected, eq_misfit_of_mapM_value hexpected]
      exact .inr (.inl rfl)
    | ok expected =>
    rw [hmain, hvalue, ok_bind, hexpected, ok_bind]
    rcases proverOptions_cases host t op (.ofOptions op operands os) with
      ⟨prover, hprover, hoptions⟩ | hprover | ⟨f, hescape, hprover⟩
    · have hcases := ended_or_escapes op
        ((RunArguments.operands_ofOptions op operands os).symm ▸ hwritable)
        ((RunArguments.operands_ofOptions op operands os).symm ▸ hvalue) hexpected hoptions
      rw [RunArguments.operands_ofOptions] at hcases
      rw [hprover]
      exact hcases.imp_right .inr
    · rw [hprover]
      exact .inr (.inl rfl)
    · rw [hprover]
      exact .inr (.inr ⟨f, hescape, rfl⟩)
  · have hmisfit := main_eq_misfit host t op hoperands hbare hfits
    exact ⟨.inr (.inl hmisfit), fun _ _ _ _ => hmisfit⟩

/-- A product modulo five without a proof has nothing that escapes. -/
theorem ends_or_escapes_modmul :
    (∃ out, main .standard .empty ["run", "modmul", "4", "7", "0x5", "--no-prove"] = .ok out ∧
        (out.status = 0 ∨ out.status = 1)) ∨
      main .standard .empty ["run", "modmul", "4", "7", "0x5", "--no-prove"] = .error misfit := by
  have hread : [Text.ofString "4", "7", "0x5"].mapM ofHexText = .ok [4, 7, 5] := by decide +kernel
  -- each operand is one of three small numbers
  have hsmall : ∀ x ∈ [Text.ofString "4", "7", "0x5"], ∀ z, ofHexText x = .ok z →
      0 ≤ z ∧ z < 0x100000000 := by
    intro x hx z hz
    obtain ⟨y, hy, hread⟩ := exists_of_mem_of_mapM hread hx
    obtain rfl : y = z := Except.ok.inj (hread.symm.trans hz)
    have hall : ∀ y ∈ [(4 : Int), 7, 5], 0 ≤ y ∧ y < 0x100000000 := by decide
    exact hall y hy
  have hoperands : ∀ x ∈ [Text.ofString "4", "7", "0x5"], x.Bare := by decide
  have hbare : ∀ o ∈ [RunOption.noProof], o.Bare := by decide
  have hwritable : ∀ x ∈ [Text.ofString "4", "7", "0x5"], ∀ n : Nat,
      ofHexText x = .ok (n : Int) → Writable n := by
    intro x hx n hn
    have hlt := (hsmall x hx n hn).2
    exact writable_of_lt (by omega)
  have hline : runLine .modmul [Text.ofString "4", "7", "0x5"] [.noProof] =
      (["run", "modmul", "4", "7", "0x5", "--no-prove"] : List Text) := rfl
  rw [← hline]
  rcases (ends_or_escapes .standard .empty .modmul hoperands hbare hwritable).1 with
    ⟨out, hout, hstatus, -⟩ | hmisfit | ⟨f, hescape, -⟩
  · exact .inl ⟨out, hout, hstatus⟩
  · exact .inr hmisfit
  · cases hescape with
    | negative hx hn hneg => exact absurd (hsmall _ hx _ hn).1 (by omega)
    | document hproof | unusable hproof => cases hproof
    | untold _ hexpected huntold =>
      cases huntold with
      | inverse hop => cases hop
      | mismatch hsome =>
        obtain rfl : none = _ := Except.ok.inj hexpected
        cases hsome

/-- A minus sign after the radix mark lets a negative operand through, and it escapes. -/
theorem negative_operand_escapes :
    main .standard .empty ["run", "modadd", "4", "7", "0x-5"] =
      .error (.failure (.operand (.negative (-5)))) := by
  have hread : [Text.ofString "4", "7", "0x-5"].mapM ofHexText = .ok [4, 7, -5] := by
    decide +kernel
  have hvalue : value Operation.modadd.inputShape ["4", "7", "0x-5"] =
      .ok (Operation.modadd.inputShape.arrange [4, 7, -5]) :=
    value_eq_ok.2 ⟨_, hread, rfl, rfl⟩
  have hline : runLine .modadd [Text.ofString "4", "7", "0x-5"] [] =
      (["run", "modadd", "4", "7", "0x-5"] : List Text) := rfl
  have hshape : (Operation.modadd.inputShape.arrange [4, 7, -5]).shape =
      Operation.modadd.inputShape := rfl
  have hflatten : (Operation.modadd.inputShape.arrange [4, 7, -5]).flatten =
      .error (.negative (-5)) := rfl
  rw [← hline, main_runLine .standard .empty .modadd (by decide) (by simp) (by simp) (by simp),
    hvalue]
  exact ended_of_flatten_eq_error .standard .empty (some .fast) none hshape hflatten

end CommandLine

end CircuitReceipts
