import CircuitReceipts.Engine
import CircuitReceipts.Validation

/-!
# Pipelines

From the operands of an operation to a report: look up the artifact, check and encode the operands,
run, and validate the session. The expected result is the reference unless one is given. Pipelines
share only a host, a registry and limits, so a batch is a list of pipelines, each with its own
result.
-/

namespace CircuitReceipts

/-- What pipelines share. -/
structure Setup where
  host : Host
  registry : Registry
  limits : Limits
deriving Inhabited

/-- An operation to carry out. -/
structure Job where
  operation : Text
  operands : Value
  expected : Option Value
deriving Inhabited

/-- The ways to take the steps of a validation. -/
inductive Manner where
  | sequential
  | scheduled (turns : List Validator.Turn)

namespace Pipeline

/-- The operation and the artifact of a name. -/
def find (setup : Setup) (name : Text) : Except Failure (Operation × Artifact) :=
  match Operation.ofName? name, setup.registry.lookup? name with
  | some op, some a => .ok (op, a)
  | _, _ => .error (.unknownOperation name)

/-- The failure of an operation that has no session. -/
def failed : EngineError → Failure
  | .load e => .load e
  | .misuse m => .misuse m

def run (h : Host) (limits : Limits) (a : Artifact) (operands : Value) :
    Except Failure Session := do
  let input ← operands.encode.mapError .operand
  (Engine.execute h limits a input).mapError failed

/-- The session of an operation on operands. The artifact is looked up by the name alone, and before
the operands are encoded. -/
def execute (setup : Setup) (name : Text) (operands : Value) : Except Failure Session :=
  match setup.registry.lookup? name with
  | some a => run setup.host setup.limits a operands
  | none => .error (.unknownOperation name)

/-- The expected result: the given one, or the reference on the operands of a session that ended
well. -/
def expectation (h : Host) (op : Operation) (job : Job) (s : Session) : Except Failure Value :=
  match job.expected with
  | some v => .ok v
  | none => do
    Validator.checkTermination h s
    (op.expected job.operands).mapError .reference

def verify (setup : Setup) (prover : Option ProverOptions) (manner : Manner) (job : Job) :
    Observed Report := do
  let (op, a) ← Observed.of (find setup job.operation)
  Observed.of ((op.checkOperands job.operands).mapError .reference)
  let s ← Observed.during op .execute (run setup.host setup.limits a job.operands)
  let v ← Observed.of (Validator.of setup.host op (some a) prover)
  let expected ← Observed.of (expectation setup.host op job s)
  match manner with
  | .sequential => v.validate s expected
  | .scheduled turns => v.validateScheduled turns s expected

/-- The results of jobs, in their order, and what was seen of all of them. -/
def verifyEach (setup : Setup) (prover : Option ProverOptions) (o : Observation) :
    List Job → List (Except Failure Report) × Observation
  | [] => ([], o)
  | job :: jobs =>
    let (result, o) := (verify setup prover .sequential job).runFrom o
    let (results, o) := verifyEach setup prover o jobs
    (result :: results, o)

/-- The results of a batch. A number of workers, if one is given, has to be positive; it does not
change the results. -/
def verifyBatch (setup : Setup) (prover : Option ProverOptions) (workers : Option Int)
    (jobs : List Job) : Except Failure (List (Except Failure Report) × Observation) :=
  match workers with
  | some n =>
    if n ≤ 0 then .error (.misuse .badValue) else .ok (verifyEach setup prover .empty jobs)
  | none => .ok (verifyEach setup prover .empty jobs)

end Pipeline

end CircuitReceipts
