import CircuitReceipts.Observation

/-!
# Validation

The judgement on a session. A session is valid if it ended well, its journal decodes to the shape of
the operation's result, the decoded value is the expected one, and, if a proof is asked for, the
session proves and its receipt is accepted. The first step that fails is the failure, which is put
into words at once.

The steps may be taken one after another, or by two threads: the caller decodes and compares while
a worker proves and verifies. A schedule says in which order the threads take their steps; the
caller waits for the worker before it answers, and its own failure comes first.
-/

namespace CircuitReceipts

/-- The outcome of a valid session. -/
structure Report where
  operation : Operation
  value : Value
  exitCode : ExitCode
  userCycles : Nat
  proof : Option Proof
deriving Inhabited

/-- What sessions of an operation are judged with. -/
structure Validator where
  host : Host
  operation : Operation
  /-- How to prove, and the artifact to verify against. -/
  proving : Option (ProverOptions × Artifact)
deriving Inhabited

namespace Validator

/-- The validator of an operation. A prover needs an artifact. -/
def of (host : Host) (operation : Operation) (artifact : Option Artifact)
    (prover : Option ProverOptions) : Except Failure Validator :=
  match prover, artifact with
  | none, _ => .ok ⟨host, operation, none⟩
  | some o, some a => .ok ⟨host, operation, some (o, a)⟩
  | some _, none => .error .noArtifact

/-- Refuses a session that has not ended well. The words for a fault are those of the session. -/
def checkTermination (h : Host) (s : Session) : Except Failure Unit :=
  let terminated : Failure := (Failure.termination s.exitCode).told h
  match s.ending with
  | .fault cause => .error (.fault cause)
  | .abnormalHalt => .error terminated
  | .success => if s.exitCode.isSuccess then .ok () else .error terminated

/-- The value that the journal of a session encodes. -/
def decoded (v : Validator) (s : Session) : Except Failure Value :=
  (decode s.journal v.operation.outputShape).mapError .read

def compare (h : Host) (expected got : Value) : Except Failure Unit :=
  if got.alike expected then .ok () else .error ((Failure.mismatch expected got).told h)

def proved (v : Validator) (o : ProverOptions) (s : Session) : Except Failure Proof :=
  (s.prove v.host o).mapError fun
    | .proving e => .unproved v.operation.name e
    | .operand e => .operand e
    | .misuse m => .misuse m

/-- The report on a session with a value. -/
def report (v : Validator) (s : Session) (value : Value) (proof : Option Proof) : Report :=
  ⟨v.operation, value, s.exitCode, s.userCycles, proof⟩

def reportLines (r : Report) : List Text :=
  let name := r.operation.name
  (name ++ " runtime") ::
    match r.proof with
    | none => []
    | some p => [name ++ s!" user cycles: {p.stats.userCycles}"]

def finish (r : Report) : Observed Report := do
  modify (Observation.log (reportLines r))
  return r

def validate (v : Validator) (s : Session) (expected : Value) : Observed Report := do
  Observed.of (checkTermination v.host s)
  let value ← Observed.during v.operation .decode (v.decoded s)
  Observed.of (compare v.host expected value)
  match v.proving with
  | none => finish (v.report s value none)
  | some (o, a) =>
    let proof ← Observed.during v.operation .prove (v.proved o s)
    Observed.during v.operation .verify (proof.receipt.accept a)
    finish (v.report s value (some proof))

/-- How far a thread has come: before its first step, between its two steps with what the first
gave, or at its end. -/
inductive Progress (α : Type) where
  | start
  | halfway (x : α)
  | done (result : Except Failure α)

/-- The caller, the worker, and what has been seen of both. -/
structure Threads where
  caller : Progress Value
  worker : Progress Proof
  observation : Observation

/-- Whose step comes next. -/
inductive Turn where
  | caller
  | worker
deriving DecidableEq, Inhabited

namespace Threads

def start (o : Observation) : Threads := ⟨.start, .start, o⟩

/-- The threads after a step of the caller. -/
def stepCaller (v : Validator) (s : Session) (expected : Value) (t : Threads) : Threads :=
  match t.caller with
  | .start =>
    let next : Progress Value :=
      match v.decoded s with
      | .ok value => .halfway value
      | .error e => .done (.error e)
    { t with caller := next, observation := t.observation.enter v.operation .decode }
  | .halfway value =>
    { t with caller := .done ((compare v.host expected value).map fun _ => value) }
  | .done _ => t

/-- The threads after a step of the worker. -/
def stepWorker (v : Validator) (o : ProverOptions) (a : Artifact) (s : Session) (t : Threads) :
    Threads :=
  match t.worker with
  | .start =>
    let next : Progress Proof :=
      match v.proved o s with
      | .ok proof => .halfway proof
      | .error e => .done (.error e)
    { t with worker := next, observation := t.observation.enter v.operation .prove }
  | .halfway proof =>
    { t with
      worker := .done ((proof.receipt.accept a).map fun _ => proof)
      observation := t.observation.enter v.operation .verify }
  | .done _ => t

/-- The threads after the step of a turn. -/
def step (v : Validator) (o : ProverOptions) (a : Artifact) (s : Session) (expected : Value)
    (t : Threads) : Turn → Threads
  | .caller => t.stepCaller v s expected
  | .worker => t.stepWorker v o a s

/-- The threads after the steps of a schedule, and then after those that are left. -/
def run (v : Validator) (o : ProverOptions) (a : Artifact) (s : Session) (expected : Value)
    (schedule : List Turn) (t : Threads) : Threads :=
  (schedule ++ [Turn.caller, .caller, .worker, .worker]).foldl (step v o a s expected) t

/-- The answer once both threads are done: the caller's failure, or else the worker's. -/
def answer (t : Threads) : Except Failure (Value × Proof) :=
  match t.caller, t.worker with
  | .done (.error e), _ => .error e
  | .done (.ok value), .done (.ok proof) => .ok (value, proof)
  | .done (.ok _), .done (.error e) => .error e
  | _, _ => .error (.misuse .outOfRange)

end Threads

/-- Takes the steps by two threads under a schedule; without a proof to make there is nothing for a
worker to do. -/
def validateScheduled (v : Validator) (schedule : List Turn) (s : Session) (expected : Value) :
    Observed Report := do
  match v.proving with
  | none => v.validate s expected
  | some (o, a) =>
    Observed.of (checkTermination v.host s)
    let threads := Threads.run v o a s expected schedule (.start (← get))
    set threads.observation
    let (value, proof) ← Observed.of threads.answer
    finish (v.report s value (some proof))

end Validator

end CircuitReceipts
