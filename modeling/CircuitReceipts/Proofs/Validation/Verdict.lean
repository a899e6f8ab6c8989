import CircuitReceipts.Proofs.Circuit.Reference
import CircuitReceipts.Proofs.Validation
import CircuitReceipts.Proofs.Value.Decoding

/-!
# The verdict on a session

A validation compares values, but what it says is about bytes. Integers in tuples and lists are
alike exactly if they are equal with tuples for all lists, and bytes decode to such a value exactly
if they are its encoding and it has the shape that was asked for. So a session without a proof is
reported exactly if it ended well and its journal is the encoding of the expected value; and if it
is not, the failure is the first step that does not hold, whatever the session holds besides, as far
as the host can write the numbers in it.
-/

namespace CircuitReceipts

namespace Value

/-- Integers in nested tuples and lists. -/
inductive Integral : Value → Prop where
  | int {n : Int} : Integral (.int n)
  | tuple {items : List Value} (each : ∀ v ∈ items, Integral v) : Integral (.tuple items)
  | list {items : List Value} (each : ∀ v ∈ items, Integral v) : Integral (.list items)

theorem Operand.integral {v : Value} (h : v.Operand) : v.Integral := by
  induction h with
  | int _ => exact .int
  | tuple _ ih => exact .tuple ih
  | list _ ih => exact .list ih

mutual

/-- Integers in tuples and lists are alike exactly if they are equal with tuples for all lists. -/
theorem alike_iff : ∀ {v w : Value}, v.Integral → w.Integral →
    (v.alike w = true ↔ v.tupled = w.tupled)
  | .int m, .int n, _, _ => by simp [alike, number?, Number.same, tupled]
  | .int _, .tuple _, _, _ | .int _, .list _, _, _ | .tuple _, .int _, _, _
  | .list _, .int _, _, _ => by simp [alike, number?, tupled]
  | .tuple _, .tuple _, .tuple hv, .tuple hw | .tuple _, .list _, .tuple hv, .list hw
  | .list _, .tuple _, .list hv, .tuple hw | .list _, .list _, .list hv, .list hw => by
    simp only [alike, tupled, tuple.injEq, alikeEach_iff hv hw]

theorem alikeEach_iff : ∀ {vs ws : List Value}, (∀ v ∈ vs, v.Integral) → (∀ w ∈ ws, w.Integral) →
    (alikeEach vs ws = true ↔ tupledEach vs = tupledEach ws)
  | [], [], _, _ => by simp [alikeEach]
  | [], _ :: _, _, _ | _ :: _, [], _, _ => by simp [alikeEach, tupledEach]
  | v :: vs, w :: ws, hv, hw => by
    rw [List.forall_mem_cons] at hv hw
    simp only [alikeEach, tupledEach, Bool.and_eq_true, List.cons.injEq, alike_iff hv.1 hw.1,
      alikeEach_iff hv.2 hw.2]

end

mutual

theorem flatten_tupled : ∀ v : Value, v.tupled.flatten = v.flatten
  | .tuple items | .list items => by rw [tupled, flatten, flatten, flattenEach_tupledEach items]
  | .int _ | .bool _ | .float _ | .none | .text _ => rfl

theorem flattenEach_tupledEach : ∀ vs : List Value, flattenEach (tupledEach vs) = flattenEach vs
  | [] => rfl
  | v :: vs => by rw [tupledEach, flattenEach, flattenEach, flatten_tupled v,
      flattenEach_tupledEach vs]

end

theorem operand_of_tupled {v : Value} (h : v.tupled.Operand) : v.Operand := by
  obtain ⟨ns, hns, hwritable⟩ := h.exists_flatten
  exact operand_of_flatten ((flatten_tupled v).symm.trans hns) hwritable

end Value

namespace Shape

variable {s : Shape} {b : Bytes} {v : Value}

/-- Bytes decode to a value with tuples for its lists exactly if they are the encoding of the value
and it has the shape. -/
theorem decode_eq_ok_tupled_iff (hproper : s.proper = true) :
    decode b s = .ok v.tupled ↔ v.Operand ∧ v.shape = s ∧ v.encode = .ok b := by
  constructor
  · intro h
    obtain ⟨htupled, -, hshape, hbytes⟩ := of_decode hproper h
    have hv := Value.operand_of_tupled htupled
    obtain ⟨hshape', hbytes'⟩ := shape_and_encode_tupled hv
    exact ⟨hv, hshape'.symm.trans hshape, hbytes'.symm.trans hbytes⟩
  · rintro ⟨hv, rfl, hbytes⟩
    obtain ⟨ns, hns, hwritable⟩ := hv.exists_flatten
    obtain rfl := Except.ok.inj ((Value.encode_of_flatten hns).symm.trans hbytes)
    exact decode_of_flatten hns hwritable

end Shape

/-- Whether a session is recorded as a success with the exit code zero. -/
structure Session.Succeeded (s : Session) : Prop where
  ending : s.ending = .success
  exitCode : s.exitCode = .halted 0

/-- Whether the journal of a session is the encoding of a value of a shape. -/
structure Session.Commits (s : Session) (shape : Shape) (v : Value) : Prop where
  operand : v.Operand
  shape : v.shape = shape
  encode : v.encode = .ok s.journal

/-- The failures of a validation without a proof: each is that of the first step that does not
hold. -/
inductive Session.Refused (s : Session) (shape : Shape) (expected : Value) : Failure → Prop where
  | fault {cause : Fault} (ending : s.ending = .fault cause) :
    Refused s shape expected (.fault cause)
  | abnormalHalt (ending : s.ending = .abnormalHalt) :
    Refused s shape expected (.termination s.exitCode)
  | exitCode (ending : s.ending = .success) (nonzero : s.exitCode ≠ .halted 0) :
    Refused s shape expected (.termination s.exitCode)
  /-- The journal encodes nothing of the shape; the cause is the one that decoding gives. -/
  | undecodable {cause : DecodeError} (succeeded : s.Succeeded) (nothing : ∀ v, ¬s.Commits shape v)
    (decoded : decode s.journal shape = .error (.decode cause)) :
    Refused s shape expected (.read (.decode cause))
  /-- The journal encodes another value than the expected one. -/
  | mismatch {got : Value} (succeeded : s.Succeeded) (commits : s.Commits shape got)
    (tupled : got.tupled = got) (unequal : got ≠ expected.tupled) :
    Refused s shape expected (.mismatch expected got)

namespace Session

variable {s : Session} {shape : Shape} {expected v : Value}

/-- The journal of a session commits to a value exactly if it decodes to it with tuples for its
lists. -/
theorem commits_iff (hproper : shape.proper = true) :
    s.Commits shape v ↔ decode s.journal shape = .ok v.tupled := by
  rw [Shape.decode_eq_ok_tupled_iff hproper]
  exact ⟨fun h => ⟨h.operand, h.shape, h.encode⟩, fun ⟨hv, hshape, hbytes⟩ => ⟨hv, hshape, hbytes⟩⟩

/-- What a journal encodes is also a value without lists. -/
theorem Commits.tupled (h : s.Commits shape v) (hproper : shape.proper = true) :
    s.Commits shape v.tupled ∧ v.tupled.tupled = v.tupled := by
  obtain ⟨hoperand, htupled, hshape, hbytes⟩ :=
    Shape.of_decode hproper ((commits_iff hproper).1 h)
  exact ⟨⟨hoperand, hshape, hbytes⟩, htupled⟩

theorem exists_refused (hproper : shape.proper = true)
    (h : s.Succeeded → ¬s.Commits shape expected) : ∃ e, s.Refused shape expected e := by
  cases hending : s.ending with
  | fault cause => exact ⟨_, .fault hending⟩
  | abnormalHalt => exact ⟨_, .abnormalHalt hending⟩
  | success =>
    by_cases hexit : s.exitCode = .halted 0
    swap
    · exact ⟨_, .exitCode hending hexit⟩
    have hs : s.Succeeded := ⟨hending, hexit⟩
    cases hdecoded : decode s.journal shape with
    | error cause =>
      obtain ⟨cause, rfl⟩ := Shape.error_of_decode hproper hdecoded
      refine ⟨_, .undecodable hs (fun v hv => ?_) hdecoded⟩
      rw [commits_iff hproper, hdecoded] at hv
      cases hv
    | ok got =>
      obtain ⟨-, htupled, -, -⟩ := Shape.of_decode hproper hdecoded
      refine ⟨_, .mismatch hs ((commits_iff hproper).2 ?_) htupled fun hequal => h hs ?_⟩
      · rw [htupled, hdecoded]
      · rw [commits_iff hproper, hdecoded, hequal]

end Session

namespace Validator

variable {host : Host} {op : Operation} {s : Session} {expected got : Value} {e : Failure}

/-- A validation without a proof ends with the comparison. -/
theorem judgement_none (host : Host) (op : Operation) (s : Session) (expected : Value) :
    judgement ⟨host, op, none⟩ s expected = do
      checkTermination host s
      let value ← (decode s.journal op.outputShape).mapError Failure.read
      compare host expected value
      return report ⟨host, op, none⟩ s value none := by
  simp only [judgement, Progress.outcome, decoded, bind_assoc, pure_bind]

theorem checkTermination_of_succeeded (hs : s.Succeeded) : checkTermination host s = .ok () := by
  rw [checkTermination, hs.ending, hs.exitCode]
  rfl

/-- A value of a journal passes the comparison exactly if it is the expected value with tuples for
its lists. -/
theorem compare_eq_ok_iff (hgot : got.Integral) (htupled : got.tupled = got)
    (hexpected : expected.Integral) :
    compare host expected got = .ok () ↔ got = expected.tupled := by
  have halike := Value.alike_iff hgot hexpected
  rw [htupled] at halike
  rw [← halike, compare]
  split <;> simp_all

theorem error_of_compare (h : compare host expected got = .error e) :
    e = (Failure.mismatch expected got).told host := by
  rw [compare] at h
  split at h
  · cases h
  · cases h
    rfl

theorem judgement_of_commits (hs : s.Succeeded) (hcommits : s.Commits op.outputShape got)
    (htupled : got.tupled = got) : judgement ⟨host, op, none⟩ s expected =
      (compare host expected got).map fun _ => ⟨op, got, s.exitCode, s.userCycles, none⟩ := by
  have hdecoded := (Session.commits_iff op.proper_outputShape).1 hcommits
  rw [judgement_none, checkTermination_of_succeeded hs, ok_bind, hdecoded, htupled, mapError_ok,
    ok_bind]
  cases compare host expected got <;> rfl

theorem judgement_of_commits_expected (hs : s.Succeeded)
    (hcommits : s.Commits op.outputShape expected) : judgement ⟨host, op, none⟩ s expected =
      .ok ⟨op, expected.tupled, s.exitCode, s.userCycles, none⟩ := by
  obtain ⟨hcommitsTupled, htupled⟩ := hcommits.tupled op.proper_outputShape
  have hcompare : compare host expected expected.tupled = .ok () :=
    (compare_eq_ok_iff hcommitsTupled.operand.integral htupled hcommits.operand.integral).2 rfl
  rw [judgement_of_commits hs hcommitsTupled htupled, hcompare]
  rfl

/-- A session that is refused is judged so, in the words that the host has for it. -/
theorem judgement_of_refused (h : s.Refused op.outputShape expected e)
    (hexpected : expected.Integral) : judgement ⟨host, op, none⟩ s expected =
      .error (e.told host) := by
  cases h with
  | fault hending =>
    rw [judgement_none, checkTermination, hending,
      Failure.told_of_numbers_eq_nil (f := .fault _) rfl]
    rfl
  | abnormalHalt hending =>
    rw [judgement_none, checkTermination, hending]
    rfl
  | exitCode hending hnonzero =>
    have hexit : ¬s.exitCode.isSuccess = true := fun h => hnonzero (ExitCode.isSuccess_iff.1 h)
    rw [judgement_none, checkTermination, hending]
    simp only [if_neg hexit, error_bind]
  | undecodable hs _ hdecoded =>
    rw [judgement_none, checkTermination_of_succeeded hs, ok_bind, hdecoded,
      Failure.told_of_numbers_eq_nil rfl]
    rfl
  | mismatch hs hcommits htupled hunequal =>
    rw [judgement_of_commits hs hcommits htupled]
    cases hcompare : compare host expected _ with
    | ok u =>
      have hequal := (compare_eq_ok_iff hcommits.operand.integral htupled hexpected).1 hcompare
      exact absurd hequal hunequal
    | error e =>
      rw [error_of_compare hcompare]
      rfl

theorem eq_of_refused {f : Failure} (he : s.Refused op.outputShape expected e)
    (hf : s.Refused op.outputShape expected f) (hexpected : expected.Integral) : e = f := by
  -- a host without a bound has its words for every failure
  have hjudged : Except.error (e.told .lifted) = Except.error (f.told .lifted) :=
    (judgement_of_refused he hexpected).symm.trans (judgement_of_refused hf hexpected)
  rwa [Failure.told_lifted, Failure.told_lifted, Except.error.injEq] at hjudged

/-- The verdict on any session, also on one that no run has left, where integers are expected. It is
reported exactly if it is a success with the exit code zero and its journal is the encoding of the
expected value, which has the shape of the operation's result; the report shows this value with
tuples for its lists. In all other cases the failure is the first step that does not hold: the
fault, the exit code, a journal that encodes nothing of this shape, or the other value that it
encodes. Only where the host cannot write the numbers in an exit code or in two values is there a
misuse instead. -/
theorem gives_report_or_refused (host : Host) (op : Operation) (s : Session)
    (hexpected : expected.Integral) :
    ∃ result, (validate ⟨host, op, none⟩ s expected).Gives result ∧
      (∀ schedule, (validateScheduled ⟨host, op, none⟩ schedule s expected).Gives result) ∧
      (∀ r, result = .ok r ↔ (s.Succeeded ∧ s.Commits op.outputShape expected) ∧
        r = ⟨op, expected.tupled, s.exitCode, s.userCycles, none⟩) ∧
      ∀ e, result = .error e ↔ (s.Refused op.outputShape expected e ∧ host.Tells e.numbers) ∨
        e = .misuse .tooManyDigits ∧
          ∃ f, s.Refused op.outputShape expected f ∧ ¬host.Tells f.numbers := by
  refine ⟨_, gives_validate _ s expected, gives_validateScheduled _ s expected, ?_⟩
  by_cases h : s.Succeeded ∧ s.Commits op.outputShape expected
  · obtain ⟨hs, hcommits⟩ := h
    have hjudged : judgement ⟨host, op, none⟩ s expected = _ :=
      judgement_of_commits_expected hs hcommits
    have hnever (f : Failure) : ¬s.Refused op.outputShape expected f := by
      intro hf
      have hcontra := hjudged.symm.trans (judgement_of_refused hf hexpected)
      cases hcontra
    rw [hjudged]
    refine ⟨fun r => ?_, fun e => ?_⟩
    · rw [Except.ok.injEq, eq_comm]
      exact ⟨fun hr => ⟨⟨hs, hcommits⟩, hr⟩, And.right⟩
    · simp [hnever]
  · obtain ⟨f, hf⟩ := Session.exists_refused op.proper_outputShape fun hs hcommits =>
      h ⟨hs, hcommits⟩
    have hjudged : judgement ⟨host, op, none⟩ s expected = _ := judgement_of_refused hf hexpected
    rw [hjudged]
    refine ⟨fun r => ⟨fun hr => (nomatch hr), fun hr => absurd hr.1 h⟩, fun e => ?_⟩
    rw [Except.error.injEq, Failure.told]
    constructor
    · rintro rfl
      split
      · next htells => exact .inl ⟨hf, htells⟩
      · next htells => exact .inr ⟨rfl, f, hf, htells⟩
    · rintro (⟨he, htells⟩ | ⟨rfl, f', hf', htells⟩)
      · obtain rfl := eq_of_refused hf he hexpected
        exact if_pos htells
      · obtain rfl := eq_of_refused hf hf' hexpected
        exact if_neg htells

/-- A forged success whose journal encodes the expected pair is reported with a tuple for the list.
The same record as an abnormal halt is refused, although its exit code says success. -/
theorem gives_report_or_refused_extfieldadd :
    let expected : Value := .list [.int 5, .int 0x100000000]
    let s : Session := ⟨.success, "forged", [], encodeNats [5, 0x100000000], .halted 0⟩
    expected.Integral ∧
      (validate ⟨.standard, .extfieldadd, none⟩ s expected).Gives
        (.ok ⟨.extfieldadd, .tuple [.int 5, .int 0x100000000], .halted 0, 0, none⟩) ∧
      (validate ⟨.standard, .extfieldadd, none⟩ { s with ending := .abnormalHalt } expected).Gives
        (.error (.termination (.halted 0))) := by
  intro expected s
  have hflatten : expected.flatten = .ok [5, 0x100000000] := rfl
  have hwritable : ∀ n ∈ [5, 0x100000000], Writable n := by
    intro n hn
    have hlt : n < 0x100000000 ^ 2 := by
      revert n
      decide
    exact Nat.lt_of_le_of_lt (length_limbs_le_iff.2 hlt) (by decide)
  have hoperand : expected.Operand := Value.operand_of_flatten hflatten hwritable
  have hcommits : s.Commits Operation.extfieldadd.outputShape expected :=
    ⟨hoperand, rfl, Value.encode_of_flatten hflatten⟩
  obtain ⟨reported, hreported, -, hok, -⟩ :=
    gives_report_or_refused .standard .extfieldadd s hoperand.integral
  obtain ⟨refused, hrefused, -, -, herror⟩ := gives_report_or_refused .standard .extfieldadd
    { s with ending := .abnormalHalt } hoperand.integral
  obtain rfl := (hok _).2 ⟨⟨⟨rfl, rfl⟩, hcommits⟩, rfl⟩
  have htells : Host.standard.Tells (Failure.termination (.halted 0)).numbers := by decide +kernel
  obtain rfl := (herror _).2 (.inl ⟨.abnormalHalt rfl, htells⟩)
  exact ⟨hoperand.integral, hreported, hrefused⟩

/-- A success that commits to another number than the expected one, with too many digits for the
host, is refused without a word about the numbers. -/
theorem gives_untold_mismatch {m : Int} {n : Nat} (hs : s.Succeeded)
    (hcommits : s.Commits op.outputShape (.int n)) (hne : (n : Int) ≠ m)
    (hwrites : ¬host.Writes n) :
    s.Refused op.outputShape (.int m) (.mismatch (.int m) (.int n)) ∧
      (validate ⟨host, op, none⟩ s (.int m)).Gives (.error (.misuse .tooManyDigits)) := by
  have hunequal : Value.int n ≠ (Value.int m).tupled := fun h => hne (Value.int.inj h)
  have hrefused : s.Refused op.outputShape (.int m) (.mismatch (.int m) (.int n)) :=
    .mismatch hs hcommits rfl hunequal
  have hjudged : judgement ⟨host, op, none⟩ s (.int m) = _ := judgement_of_refused hrefused .int
  have htells : ¬host.Tells (Failure.mismatch (.int m) (.int n)).numbers := by
    intro h
    simp only [Failure.numbers, Value.numbers, Host.tells_append, Host.tells_cons] at h
    exact hwrites h.2.1
  rw [Failure.told, if_neg htells] at hjudged
  exact ⟨hrefused, hjudged ▸ gives_validate _ s (.int m)⟩

/-- A forged success whose journal encodes another value than the expected one, which has too many
digits for the standard host to say so. -/
theorem mismatch_untold :
    let s : Session := .success "forged" [] (encodeNats [2 ^ 20000])
    s.Refused Operation.modadd.outputShape (.int 0)
        (.mismatch (.int 0) (.int (2 ^ 20000 : Nat))) ∧
      (validate ⟨.standard, .modadd, none⟩ s (.int 0)).Gives (.error (.misuse .tooManyDigits)) := by
  intro s
  have hwritable : Writable (2 ^ 20000) := by
    have hlimbs : (limbs (2 ^ 20000)).length ≤ 626 :=
      length_limbs_le_of_bitLength (by decide +kernel)
    exact Nat.lt_of_le_of_lt hlimbs (by decide)
  have hcommits : s.Commits Operation.modadd.outputShape (.int (2 ^ 20000 : Nat)) :=
    ⟨.int hwritable, rfl, Value.encode_of_flatten (Value.flatten_int _)⟩
  exact gives_untold_mismatch ⟨rfl, rfl⟩ hcommits (by decide +kernel) (by decide +kernel)

end Validator

end CircuitReceipts
