import CircuitReceipts.Proofs.Validation

/-!
# Validation by two threads

The caller decodes and compares while a worker proves and verifies. Which of them is faster does not
show in the answer: under every schedule it is that of a validation that takes the steps one after
another. In particular a proof that has failed by the time the caller looks at the journal does not
keep the caller's own failure from being the answer; the failure of a proof is the answer only where
the caller has found nothing wrong.
-/

namespace CircuitReceipts

namespace Validator

variable {v : Validator} {s : Session} {expected value : Value} {o : ProverOptions} {a : Artifact}
  {e : Failure}

/-- Where the caller fails, the judgement is that failure, whatever the proof would come to. -/
theorem judgement_of_caller (hended : checkTermination v.host s = .ok ())
    (hcaller : Progress.outcome (v.decoded s) (compare v.host expected) = .error e) :
    v.judgement s expected = .error e := by
  rw [judgement, hended, hcaller]
  rfl

/-- Where the caller finds nothing wrong, a proof that fails is the judgement. -/
theorem judgement_of_worker (hended : checkTermination v.host s = .ok ())
    (hcaller : Progress.outcome (v.decoded s) (compare v.host expected) = .ok value)
    (hproving : v.proving = some (o, a))
    (hworker : Progress.outcome (v.proved o s) (fun proof => proof.receipt.accept a) = .error e) :
    v.judgement s expected = .error e := by
  rw [judgement, hended, hcaller]
  simp only [ok_bind, hproving, hworker]
  rfl

/-- Two threads under any schedule give the same report or the same failure as the steps one after
another, on any session, also on one that no run has left. Once the session has ended well, a
failure to decode or to compare comes before any failure of the proof, and a failure of the proof
comes where the caller has none. -/
theorem gives_alike (v : Validator) (s : Session) (expected : Value) :
    ∃ result, (v.validate s expected).Gives result ∧
      (∀ schedule, (v.validateScheduled schedule s expected).Gives result) ∧
      (checkTermination v.host s = .ok () →
        (∀ e, Progress.outcome (v.decoded s) (compare v.host expected) = .error e →
          result = .error e) ∧
        ∀ value o a e, Progress.outcome (v.decoded s) (compare v.host expected) = .ok value →
          v.proving = some (o, a) →
          Progress.outcome (v.proved o s) (fun proof => proof.receipt.accept a) = .error e →
          result = .error e) :=
  ⟨v.judgement s expected, gives_validate v s expected, gives_validateScheduled v s expected,
    fun hended => ⟨fun _ => judgement_of_caller hended,
      fun _ _ _ _ => judgement_of_worker hended⟩⟩

/-- A record of success without rows cannot be proved, and its journal encodes five. The worker has
failed before the caller takes its first step, and yet the answer is the caller's. -/
example :
    let v : Validator := ⟨.lifted, .modadd, some (.fast, Operation.modadd.artifact)⟩
    let s : Session := .success "" [] [1, 0, 0, 0, 5, 0, 0, 0]
    let t := Threads.step v .fast Operation.modadd.artifact s (.int 6) (.start .empty) .worker
    (∃ f, t.worker = .done (.error f)) ∧ t.caller = .start ∧
      ((v.validateScheduled [.worker] s (.int 6)).runFrom .empty).1 =
        .error (.mismatch (.int 6) (.int 5)) :=
  ⟨⟨_, rfl⟩, rfl, rfl⟩

end Validator

end CircuitReceipts
