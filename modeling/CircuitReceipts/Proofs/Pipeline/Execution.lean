import CircuitReceipts.Proofs.Circuit.Room
import CircuitReceipts.Proofs.Pipeline

/-!
# What the built-in circuits compute

An operation is carried out by its name: the artifact is looked up, the operands are encoded, and
the circuit runs. Under limits with room for the operation such a run is never stopped. It halts
itself where the operation is not defined, which the host may not be able to tell of a number
without an inverse, and else it succeeds with the encoding of the reference.
-/

namespace CircuitReceipts

namespace Operation

variable {op : Operation} {ns : List Nat} {l : Limits}

/-- Limits with room for an operation let its circuit halt on the operands on which it fails. -/
theorem halts_of_fails (hlen : ns.length = op.inputShape.size) (hns : ∀ n ∈ ns, Writable n)
    (hroom : l.RoomFor op ns) {reason : Halt} (h : op.Fails ns reason) :
    ∃ rows journal, Engine.outcome l op.program (encodeNats ns) =
      (rows, journal, some (.halt reason)) := by
  obtain ⟨values, n, rfl, hvalues, i, hi, hop, hcompute⟩ := h
  have hn : n < op.program.size := (Array.getElem?_eq_some_iff.1 hi).1
  rw [← operandsIn_of_positions (Nat.le_of_lt hn) hlen rfl] at hroom
  have hsession : (n : Int) < l.session := Int.lt_of_lt_of_le (Int.ofNat_lt.2 hn) hroom.session
  rcases Engine.run_of_error l "" (Program.loaded_of_load op.load_blob) hi hop hcompute
    (WordReader.ofBytes_encodeNats _) (Engine.supplies_words hns) hvalues with hrun | ⟨hlimit, -⟩
  · exact hrun
  · exact absurd ⟨hroom.allow (Nat.le_of_lt hn) hvalues, hsession⟩ hlimit

/-- Limits with room for an operation let its circuit succeed on operands on which it is defined,
with what the operation gives on them. -/
theorem succeeds_of_admissible (imageId : Text) (hlen : ns.length = op.inputShape.size)
    (hns : ∀ n ∈ ns, Writable n) (hroom : l.RoomFor op ns) (h : op.Admissible ns) :
    ∃ rows, Engine.run l imageId op.program (encodeNats ns) =
      .success imageId rows (encodeNats (op.outcome ns)) := by
  obtain ⟨values, rfl, hvalues⟩ := exists_consistent hlen h
  rcases Engine.run_of_consistent l imageId (Program.loaded_of_load op.load_blob)
    op.endsWell_program (WordReader.ofBytes_encodeNats _) (Engine.supplies_words hns) hvalues with
    hrun | ⟨hlimit, -⟩
  · rw [(of_consistent hvalues).2] at hrun
    exact ⟨_, hrun⟩
  · exact absurd (hroom.allow (Nat.le_refl _) hvalues) hlimit

theorem fails_or_admissible (hlen : ns.length = op.inputShape.size) :
    op.Fails ns .zeroModulus ∨ op.Fails ns (.noInverse (ns.headD 0) (modulus ns)) ∨
      op.Admissible ns := by
  by_cases hm : modulus ns = 0
  · exact .inl (fails_of_modulus_eq_zero hlen hm)
  by_cases hcoprime : op = .modinv → Nat.gcd (ns.headD 0) (modulus ns) = 1
  · exact .inr (.inr ⟨hm, hcoprime⟩)
  · obtain ⟨rfl, hgcd⟩ := Classical.not_imp.1 hcoprime
    exact .inr (.inl (fails_of_not_coprime hlen hm hgcd))

/-- No difference in a built-in circuit is ever negative, whatever the limits. -/
theorem exitCode_ne_underflow (l : Limits) (hlen : ns.length = op.inputShape.size)
    (hns : ∀ n ∈ ns, Writable n) :
    (Engine.run l op.artifact.imageId op.program (encodeNats ns)).exitCode ≠
      .halted exitUnderflow := by
  have hhalt {reason : Halt} (hcode : reason.code ≠ exitUnderflow) (h : op.Fails ns reason) :
      (Engine.run l op.artifact.imageId op.program (encodeNats ns)).exitCode ≠
        .halted exitUnderflow := by
    rcases outcome_of_fails l op.artifact.imageId hns h with ⟨rows, journal, houtcome⟩ | hfault
    · rw [Engine.run_of_outcome houtcome]
      intro heq
      exact hcode (congrArg ExitCode.userCode heq)
    · exact Engine.exitCode_of_isFault hfault _
  rcases fails_or_admissible hlen with h | h | h
  · exact hhalt (by decide) h
  · have hcode : (Halt.noInverse (ns.headD 0) (modulus ns)).code ≠ exitUnderflow :=
      show exitNotInvertible ≠ exitUnderflow by decide
    exact hhalt hcode h
  · rcases run_of_admissible l hlen hns h with ⟨values, -, -, hrun⟩ | hfault
    · rw [hrun]
      intro heq
      have hcode : (0 : Int) = exitUnderflow := congrArg ExitCode.userCode heq
      exact absurd hcode (by decide)
    · exact Engine.exitCode_of_isFault hfault _

end Operation

namespace Pipeline

variable {host : Host} {l : Limits} {op : Operation} {operands : Value} {ns : List Nat}

theorem execute_eq_run (host : Host) (op : Operation) (l : Limits)
    (hflatten : operands.flatten = .ok ns) :
    execute ⟨host, .standard, l⟩ op.name operands =
      if host.Tells (Engine.shown l op.program (encodeNats ns)) then
        .ok (Engine.run l op.artifact.imageId op.program (encodeNats ns))
      else .error (.misuse .tooManyDigits) := by
  have hlookup : Registry.standard.lookup? op.name = some op.artifact := by
    cases op <;> rfl
  rw [execute, hlookup]
  exact run_standard host op l hflatten

/-- Where the circuit of an operation halts itself, the host tells so if it writes the numbers of
the reason. -/
theorem execute_of_halt (hflatten : operands.flatten = .ok ns) {rows : List Row} {journal : Bytes}
    {reason : Halt} (houtcome : Engine.outcome l op.program (encodeNats ns) =
      (rows, journal, some (.halt reason))) :
    execute ⟨host, .standard, l⟩ op.name operands =
      if host.Tells reason.numbers then
        .ok (.abnormalHalt op.artifact.imageId rows reason.code journal)
      else .error (.misuse .tooManyDigits) := by
  rw [execute_eq_run host op l hflatten, Engine.shown_of_halt houtcome,
    Engine.run_of_outcome houtcome, Engine.ended]

/-- The built-in circuits compute their references. On operands of the shape of an operation, whose
limbs can be counted in one word, its circuit never meets an underflow, and the run is the session
if the host can tell how it ends. Where the limits leave room for the operands and the intermediate
results, it halts with an exit code of its own on a modulus of zero, and on a number without an
inverse if the host writes this number and the modulus; and on all others it succeeds with the
encoding of the reference, whose components are reduced. -/
theorem execute_standard (host : Host) (l : Limits) (hshape : operands.shape = op.inputShape)
    (hflatten : operands.flatten = .ok ns) (hwritable : ∀ n ∈ ns, Writable n) :
    (execute ⟨host, .standard, l⟩ op.name operands =
      if host.Tells (Engine.shown l op.program (encodeNats ns)) then
        .ok (Engine.run l op.artifact.imageId op.program (encodeNats ns))
      else .error (.misuse .tooManyDigits)) ∧
    (Engine.run l op.artifact.imageId op.program (encodeNats ns)).exitCode ≠
      .halted exitUnderflow ∧
    (l.RoomFor op ns →
      (Operation.modulus ns = 0 → ∃ rows journal,
        execute ⟨host, .standard, l⟩ op.name operands =
          .ok (.abnormalHalt op.artifact.imageId rows exitZeroModulus journal)) ∧
      (op = .modinv → Operation.modulus ns ≠ 0 → (ns.headD 0).gcd (Operation.modulus ns) ≠ 1 →
        ∃ rows journal, execute ⟨host, .standard, l⟩ op.name operands =
          if host.Writes (ns.headD 0) ∧ host.Writes (Operation.modulus ns) then
            .ok (.abnormalHalt op.artifact.imageId rows exitNotInvertible journal)
          else .error (.misuse .tooManyDigits)) ∧
      (Operation.modulus ns ≠ 0 →
        (op = .modinv → (ns.headD 0).gcd (Operation.modulus ns) = 1) →
        ∃ rows journal result components,
          execute ⟨host, .standard, l⟩ op.name operands =
            .ok (.success op.artifact.imageId rows journal) ∧
          op.expected operands = .ok result ∧ result.encode = .ok journal ∧
          decode journal op.outputShape = .ok result ∧ result.flatten = .ok components ∧
          ∀ n ∈ components, n < Operation.modulus ns)) := by
  have hlen := Operation.length_operands hshape hflatten
  have hrun := execute_eq_run host op l hflatten
  refine ⟨hrun, Operation.exitCode_ne_underflow l hlen hwritable,
    fun hroom => ⟨fun hm => ?_, fun hop hm hgcd => ?_, fun hm hcoprime => ?_⟩⟩
  · obtain ⟨rows, journal, houtcome⟩ := Operation.halts_of_fails hlen hwritable hroom
      (Operation.fails_of_modulus_eq_zero hlen hm)
    exact ⟨rows, journal, (execute_of_halt hflatten houtcome).trans (if_pos Host.tells_nil)⟩
  · subst hop
    obtain ⟨rows, journal, houtcome⟩ := Operation.halts_of_fails hlen hwritable hroom
      (Operation.fails_of_not_coprime hlen hm hgcd)
    refine ⟨rows, journal, (execute_of_halt hflatten houtcome).trans ?_⟩
    simp only [Halt.numbers, Halt.code, Host.tells_cons, Host.tells_nil, and_true]
  · have hadmissible : op.Admissible ns := ⟨hm, hcoprime⟩
    obtain ⟨rows, hsuccess⟩ :=
      Operation.succeeds_of_admissible op.artifact.imageId hlen hwritable hroom hadmissible
    have hcount := Operation.length_outcome hlen
    have hresult := Shape.flatten_fill _ _ op.proper_outputShape hcount
    have hreduced : ∀ n ∈ op.outcome ns, Writable n := fun n hn =>
      (Operation.writable_modulus hwritable).mono (Nat.le_of_lt (hadmissible.lt_modulus hn))
    rw [Engine.shown_of_success (by rw [hsuccess]; rfl), if_pos Host.tells_nil, hsuccess] at hrun
    refine ⟨rows, _, _, _, hrun, Operation.expected_eq_ok hshape hflatten hadmissible, ?_, ?_,
      hresult, fun n hn => hadmissible.lt_modulus hn⟩
    · rw [Value.encode, hresult]
      rfl
    · exact Shape.decode_encodeNats op.proper_outputShape hcount hreduced

/-- One minus two modulo five, under limits that leave no more room than they have to. -/
theorem execute_standard_modsub :
    ∃ rows journal,
      execute ⟨.standard, .standard, ⟨10, 3⟩⟩ "modsub" (.tuple [.int 1, .int 2, .int 5]) =
        .ok (.success Operation.modsub.artifact.imageId rows journal) ∧
      decode journal .scalar = .ok (.int 4) := by
  have hshape : (Value.tuple [.int 1, .int 2, .int 5]).shape = Operation.modsub.inputShape := rfl
  have hflatten : (Value.tuple [.int 1, .int 2, .int 5]).flatten = .ok [1, 2, 5] := rfl
  have hlt : ∀ n ∈ [1, 2, 5], n < 0x100000000 := by decide
  have hroom : Limits.RoomFor ⟨10, 3⟩ .modsub [1, 2, 5] := ⟨by decide, by decide, by decide⟩
  obtain ⟨-, -, houtcomes⟩ := execute_standard .standard ⟨10, 3⟩ hshape hflatten
    fun n hn => writable_of_lt (hlt n hn)
  obtain ⟨rows, journal, result, components, hexecute, hexpected, -, hdecode, -⟩ :=
    (houtcomes hroom).2.2 (by decide) fun h => Operation.noConfusion h
  have hresult : Operation.modsub.expected (.tuple [.int 1, .int 2, .int 5]) = .ok (.int 4) := rfl
  obtain rfl := Except.ok.inj (hexpected.symm.trans hresult)
  exact ⟨rows, journal, hexecute, hdecode⟩

/-- A run of the circuit that inverts need not end with an exit code where there is no inverse: two
powers of two have room under the standard limits, and no session on the standard host. -/
theorem no_inverse_untold :
    (Value.tuple [.int (2 ^ 14285 : Nat), .int (2 ^ 14286 : Nat)]).flatten =
        .ok [2 ^ 14285, 2 ^ 14286] ∧
      Limits.standard.RoomFor .modinv [2 ^ 14285, 2 ^ 14286] ∧
      execute ⟨.standard, .standard, .standard⟩ "modinv"
          (.tuple [.int (2 ^ 14285 : Nat), .int (2 ^ 14286 : Nat)]) =
        .error (.misuse .tooManyDigits) := by
  have hflatten := flatten_pair (2 ^ 14285) (2 ^ 14286)
  refine ⟨hflatten, ⟨by decide, by decide +kernel, by decide⟩, ?_⟩
  exact (execute_eq_run .standard .modinv .standard hflatten).trans
    (if_neg Engine.not_tells_powersOfTwo)

end Pipeline

end CircuitReceipts
