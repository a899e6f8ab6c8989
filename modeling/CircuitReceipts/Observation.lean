import CircuitReceipts.Failure

/-!
# Observation

What can be seen of an operation besides its result: which stages were entered, and what was
logged about the report. An observed computation carries the observation along, also when it fails.
-/

namespace CircuitReceipts

/-- A stage on the way from operands to a report. -/
inductive Stage where
  | execute
  | decode
  | prove
  | verify
deriving DecidableEq, Inhabited

def Stage.name : Stage → Text
  | execute => "execute"
  | decode => "decode"
  | prove => "prove"
  | verify => "verify"

/-- How often each stage of each operation was entered, and the lines logged. -/
structure Observation where
  entered : Table Text Nat
  logged : List Text
deriving DecidableEq, Inhabited

namespace Observation

def empty : Observation := ⟨[], []⟩

/-- What a stage of an operation is counted under. -/
def key (operation : Operation) (stage : Stage) : Text :=
  operation.name ++ "." ++ stage.name

/-- The number of times a stage of an operation was entered. -/
def count (o : Observation) (operation : Operation) (stage : Stage) : Nat :=
  (Table.get? (key operation stage) o.entered).getD 0

/-- The observation after a stage of an operation is entered. -/
def enter (operation : Operation) (stage : Stage) (o : Observation) : Observation :=
  { o with entered := Table.put (key operation stage) (o.count operation stage + 1) o.entered }

def log (lines : List Text) (o : Observation) : Observation :=
  { o with logged := o.logged ++ lines }

end Observation

/-- A computation that may fail, with what was seen of it. -/
abbrev Observed (α : Type) := ExceptT Failure (StateM Observation) α

namespace Observed

/-- A result or failure of which nothing is seen. -/
def of {α : Type} (r : Except Failure α) : Observed α :=
  ExceptT.mk (pure r)

def during {α : Type} (operation : Operation) (stage : Stage) (r : Except Failure α) :
    Observed α := do
  modify (Observation.enter operation stage)
  of r

/-- The result and the observation of a computation that starts with a given observation. -/
def runFrom {α : Type} (x : Observed α) (o : Observation) : Except Failure α × Observation :=
  Id.run (StateT.run (ExceptT.run x) o)

end Observed

end CircuitReceipts
