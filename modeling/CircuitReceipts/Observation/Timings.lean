import CircuitReceipts.Binary64.Decimal
import CircuitReceipts.Misuse
import CircuitReceipts.Table

/-!
# Timings

Durations in seconds, under the names of the stages they were measured in, and what is reported of
them. A stage belongs to an operation if its name begins with the name of the operation and a dot.
-/

namespace CircuitReceipts

abbrev Timings := Table Text (List Binary64)

namespace Timings

def sum (samples : List Binary64) : Binary64 :=
  samples.foldl Binary64.add Binary64.positiveZero

/-- The durations of each stage of an operation. -/
def stages (t : Timings) (operation : Text) : List (List Binary64) :=
  (t.filter fun e => (operation ++ Text.ofString ".").isPrefixOf e.1).map (·.2)

/-- The seconds spent in all stages of an operation. -/
def total (t : Timings) (operation : Text) : Binary64 :=
  sum ((t.stages operation).map sum)

/-- The seconds of the last duration of each stage of an operation. A stage that has none is
refused. -/
def lastRun (t : Timings) (operation : Text) : Except Misuse Binary64 := do
  let lasts ← (t.stages operation).mapM fun samples =>
    match samples.getLast? with
    | some x => Except.ok x
    | none => .error .outOfRange
  return sum lasts

/-- The line on one stage: its name, the number of durations, and their sum in milliseconds. -/
def line (name : Text) (samples : List Binary64) : Text :=
  let thousand : Binary64 := .round false 1000 1
  let calls := (Numeral.natural 10 samples.length).padRight 4
  let milliseconds := ((sum samples).mul thousand).fixed 2
  name.padRight 28 ++ " calls=" ++ calls ++ " total=" ++ milliseconds.padLeft 9 ++ " ms"

/-- A line for each stage, in the order of the names. -/
def summary (t : Timings) : Text :=
  let sorted := t.mergeSort fun a b => !b.1.precedes a.1
  Text.join "\n" (sorted.map fun e => line e.1 e.2)

end Timings

end CircuitReceipts
