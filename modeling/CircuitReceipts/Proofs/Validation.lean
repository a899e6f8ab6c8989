import CircuitReceipts.Proofs.Host
import CircuitReceipts.Proofs.Success
import CircuitReceipts.Proofs.Value.Shape
import CircuitReceipts.Validation

/-!
# The judgement on a session

What an observed computation gives does not depend on what has been seen before it, so its result
can be worked out like that of an ordinary one. Two threads that decode and prove side by side come,
under every schedule, to the same end as one after the other: a step of one thread leaves the other
as it is, and each is done after two steps of its own.
-/

namespace CircuitReceipts

namespace Failure

variable {host : Host} {f : Failure}

theorem told_of_numbers_eq_nil (h : f.numbers = []) : f.told host = f := by
  rw [told, h, if_pos Host.tells_nil]

theorem told_lifted (f : Failure) : f.told .lifted = f :=
  if_pos (Host.lifted_tells _)

end Failure

namespace Observed

variable {α β : Type} {x : Observed α} {f : α → Observed β} {r : Except Failure α}

/-- Whether a computation gives a result whatever has been seen before. -/
def Gives (x : Observed α) (r : Except Failure α) : Prop :=
  ∀ o, (x.runFrom o).1 = r

theorem gives_of (r : Except Failure α) : (of r).Gives r := fun _ => rfl

theorem gives_during (operation : Operation) (stage : Stage) (r : Except Failure α) :
    (during operation stage r).Gives r := fun _ => rfl

theorem runFrom_bind (x : Observed α) (f : α → Observed β) (o : Observation) :
    (x >>= f).runFrom o =
      match x.runFrom o with
      | (.ok a, o) => (f a).runFrom o
      | (.error e, o) => (.error e, o) := by
  have hrun : (x >>= f).runFrom o =
      (ExceptT.bindCont f (x.runFrom o).1 : StateM Observation (Except Failure β))
        (x.runFrom o).2 := rfl
  rw [hrun]
  rcases x.runFrom o with ⟨e | a, o'⟩ <;> rfl

theorem Gives.bind {g : α → Except Failure β} (hx : x.Gives r) (hf : ∀ a, (f a).Gives (g a)) :
    (x >>= f).Gives (r >>= g) := by
  intro o
  have hr := hx o
  rw [runFrom_bind]
  generalize x.runFrom o = result at hr ⊢
  obtain ⟨e | a, o'⟩ := result
  · subst hr
    rfl
  · subst hr
    exact hf a o'

end Observed

namespace Validator

namespace Progress

variable {α : Type} {first : Except Failure α} {second : α → Except Failure Unit} {p : Progress α}

/-- What a thread of two steps gives. -/
def outcome (first : Except Failure α) (second : α → Except Failure Unit) : Except Failure α := do
  let x ← first
  second x
  return x

/-- How far a thread has come after the next of its steps. -/
def advance (first : Except Failure α) (second : α → Except Failure Unit) : Progress α → Progress α
  | .start =>
    match first with
    | .ok x => .halfway x
    | .error e => .done (.error e)
  | .halfway x => .done ((second x).map fun _ => x)
  | .done r => .done r

/-- Whether a thread has come so far by its two steps. -/
def Reached (first : Except Failure α) (second : α → Except Failure Unit) : Progress α → Prop
  | .start => True
  | .halfway x => first = .ok x
  | .done r => r = outcome first second

theorem Reached.advance (h : p.Reached first second) :
    (p.advance first second).Reached first second := by
  match p, h with
  | .start, _ =>
    cases first with
    | ok x => exact rfl
    | error e => exact rfl
  | .halfway x, h =>
    obtain rfl : first = .ok x := h
    cases hx : second x with
    | ok u => simp [Progress.advance, Reached, outcome, hx, Except.map, pure, Except.pure]
    | error e => simp [Progress.advance, Reached, outcome, hx, Except.map]
  | .done r, h => exact h

/-- However far a thread has come, it is done after two more steps. -/
theorem advance_advance (h : p.Reached first second) :
    (p.advance first second).advance first second = .done (outcome first second) := by
  have hreached := h.advance.advance
  match p with
  | .start =>
    cases first with
    | ok x => exact congrArg done hreached
    | error e => rfl
  | .halfway x => exact congrArg done hreached
  | .done r => exact congrArg done hreached

end Progress

namespace Threads

variable {v : Validator} {o : ProverOptions} {a : Artifact} {s : Session} {expected : Value}
  {t : Threads}

/-- Whether both threads have come so far by their steps. -/
structure Reached (v : Validator) (o : ProverOptions) (a : Artifact) (s : Session)
    (expected : Value) (t : Threads) : Prop where
  caller : t.caller.Reached (v.decoded s) (compare v.host expected)
  worker : t.worker.Reached (v.proved o s) fun proof => proof.receipt.accept a

/-- A step of the caller advances the caller alone. -/
theorem step_caller (v : Validator) (o : ProverOptions) (a : Artifact) (s : Session)
    (expected : Value) (t : Threads) :
    (step v o a s expected t .caller).caller =
        t.caller.advance (v.decoded s) (compare v.host expected) ∧
      (step v o a s expected t .caller).worker = t.worker := by
  obtain ⟨caller, worker, observation⟩ := t
  cases caller with
  | start => cases hdecoded : v.decoded s <;> simp [step, stepCaller, Progress.advance, hdecoded]
  | halfway value => exact ⟨rfl, rfl⟩
  | done result => exact ⟨rfl, rfl⟩

/-- A step of the worker advances the worker alone. -/
theorem step_worker (v : Validator) (o : ProverOptions) (a : Artifact) (s : Session)
    (expected : Value) (t : Threads) :
    (step v o a s expected t .worker).caller = t.caller ∧
      (step v o a s expected t .worker).worker =
        t.worker.advance (v.proved o s) fun proof => proof.receipt.accept a := by
  obtain ⟨caller, worker, observation⟩ := t
  cases worker with
  | start => cases hproved : v.proved o s <;> simp [step, stepWorker, Progress.advance, hproved]
  | halfway proof => exact ⟨rfl, rfl⟩
  | done result => exact ⟨rfl, rfl⟩

theorem Reached.step (h : t.Reached v o a s expected) (turn : Turn) :
    (Threads.step v o a s expected t turn).Reached v o a s expected := by
  cases turn with
  | caller =>
    obtain ⟨hcaller, hworker⟩ := step_caller v o a s expected t
    exact ⟨hcaller ▸ h.caller.advance, hworker ▸ h.worker⟩
  | worker =>
    obtain ⟨hcaller, hworker⟩ := step_worker v o a s expected t
    exact ⟨hcaller ▸ h.caller, hworker ▸ h.worker.advance⟩

theorem Reached.foldl (h : t.Reached v o a s expected) (turns : List Turn) :
    (turns.foldl (Threads.step v o a s expected) t).Reached v o a s expected := by
  induction turns generalizing t with
  | nil => exact h
  | cons turn turns ih => exact ih (h.step turn)

/-- Under every schedule the answer is what the caller gives and then what the worker gives. -/
theorem answer_run (schedule : List Turn) (observation : Observation) :
    (run v o a s expected schedule (.start observation)).answer = do
      let value ← Progress.outcome (v.decoded s) (compare v.host expected)
      let proof ← Progress.outcome (v.proved o s) fun proof => proof.receipt.accept a
      return (value, proof) := by
  have hstart : (start observation).Reached v o a s expected := ⟨trivial, trivial⟩
  rw [run, List.foldl_append]
  generalize schedule.foldl (step v o a s expected) (start observation) = t,
    hstart.foldl schedule = h
  -- the steps that are left, two of the caller and two of the worker
  let t₁ := step v o a s expected t .caller
  let t₂ := step v o a s expected t₁ .caller
  let t₃ := step v o a s expected t₂ .worker
  let t₄ := step v o a s expected t₃ .worker
  obtain ⟨hcaller₁, hworker₁⟩ := step_caller v o a s expected t
  obtain ⟨hcaller₂, hworker₂⟩ := step_caller v o a s expected t₁
  obtain ⟨hcaller₃, hworker₃⟩ := step_worker v o a s expected t₂
  obtain ⟨hcaller₄, hworker₄⟩ := step_worker v o a s expected t₃
  have hcaller : t₄.caller = .done (Progress.outcome (v.decoded s) (compare v.host expected)) := by
    rw [hcaller₄, hcaller₃, hcaller₂, hcaller₁, Progress.advance_advance h.caller]
  have hworker : t₄.worker =
      .done (Progress.outcome (v.proved o s) fun proof => proof.receipt.accept a) := by
    rw [hworker₄, hworker₃, hworker₂, hworker₁, Progress.advance_advance h.worker]
  change t₄.answer = _
  rw [answer, hcaller, hworker]
  cases Progress.outcome (v.decoded s) (compare v.host expected) with
  | error e => rfl
  | ok value =>
    cases Progress.outcome (v.proved o s) fun proof => proof.receipt.accept a <;> rfl

end Threads

variable (v : Validator) (s : Session) (expected : Value)

/-- The judgement on a session, apart from what is seen of it. -/
def judgement : Except Failure Report := do
  checkTermination v.host s
  let value ← Progress.outcome (v.decoded s) (compare v.host expected)
  match v.proving with
  | none => return v.report s value none
  | some (o, a) =>
    let proof ← Progress.outcome (v.proved o s) fun proof => proof.receipt.accept a
    return v.report s value (some proof)

theorem gives_finish (r : Report) : (finish r).Gives (.ok r) := fun _ => rfl

theorem gives_validate : (v.validate s expected).Gives (v.judgement s expected) := by
  simp only [validate, judgement, Progress.outcome, bind_assoc, pure_bind]
  refine (Observed.gives_of _).bind fun _ => (Observed.gives_during _ _ _).bind fun value =>
    (Observed.gives_of _).bind fun _ => ?_
  cases v.proving with
  | none => exact gives_finish _
  | some proving =>
    obtain ⟨o, a⟩ := proving
    exact (Observed.gives_during _ _ _).bind fun proof =>
      (Observed.gives_during _ _ _).bind fun _ => gives_finish _

/-- A validation gives the judgement when its steps are taken by two threads, under every
schedule. -/
theorem gives_validateScheduled (schedule : List Turn) :
    (v.validateScheduled schedule s expected).Gives (v.judgement s expected) := by
  rw [validateScheduled]
  cases hproving : v.proving with
  | none => exact gives_validate v s expected
  | some proving =>
    obtain ⟨o, a⟩ := proving
    rw [judgement, hproving]
    refine (Observed.gives_of _).bind fun _ observation => ?_
    let threads := Threads.run v o a s expected schedule (.start observation)
    have hanswered : (do
        let answer ← Observed.of threads.answer
        finish (v.report s answer.1 (some answer.2))).Gives (do
          let answer ← threads.answer
          return v.report s answer.1 (some answer.2)) :=
      (Observed.gives_of _).bind fun _ => gives_finish _
    refine (hanswered threads.observation).trans ?_
    rw [Threads.answer_run]
    simp only [bind_assoc, pure_bind]

end Validator

end CircuitReceipts
