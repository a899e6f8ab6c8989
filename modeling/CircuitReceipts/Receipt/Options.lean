import CircuitReceipts.Digest
import CircuitReceipts.Json.Shown
import CircuitReceipts.Merkle

/-!
# Prover options

The parameters of a proof. The numbers among them are kept as the document they come from writes
them, because a seal shows the query count and the arity in the same form: a boolean stays a
boolean, and `2.0` stays a number with a point. Each number is interpreted where it is used.
-/

namespace CircuitReceipts

/-- The parameters of a proof. -/
structure ProverOptions where
  /-- The number of sampled rows. -/
  queries : Json
  /-- The number of children of a node of the trace tree. -/
  arity : Json
  hash : HashName
  /-- The least exponent of the padded length of the trace. -/
  minPo2 : Json
deriving Inhabited

/-- Why options are refused. -/
inductive OptionsError where
  | queries (got : Json)
  | arity (got : Json)
  | hash (got : Json)
  | misuse (m : Misuse)
deriving Inhabited

def maxQueries : Nat := 1024

/-- The text of an options error, where it has one. -/
def OptionsError.message? : OptionsError → Option Text
  | queries got => some ("n_queries must be in [1, 1024], got " ++ got.display)
  | arity got => some ("merkle_arity must be 2 or 4, got " ++ got.display)
  | hash got => some (HashName.refusal got.shown)
  | misuse _ => none

namespace ProverOptions

def standard : ProverOptions := ⟨.int 16, .int 2, .sha256, .int 4⟩

def fast : ProverOptions := { standard with queries := .int 4 }

/-- Whether a number lies between one and the greatest number of queries; what is no number cannot
be compared. -/
def inRange (j : Json) : Except Misuse Bool :=
  match j with
  | .float x => .ok (x.compareInt? 1 ∈ [some .eq, some .gt] ∧
      x.compareInt? maxQueries ∈ [some .lt, some .eq])
  | j =>
    match j.integer? with
    | some n => .ok (1 ≤ n ∧ n ≤ maxQueries)
    | none => .error .wrongKind

/-- Whether a value is one of the two arities. -/
def isArity : Json → Bool
  | .float x => x.equalsInt 2 || x.equalsInt 4
  | j =>
    match j.integer? with
    | some n => (Arity.ofInt? n).isSome
    | none => false

/-- Options of any values, checked one after another. -/
def check (queries arity hash minPo2 : Json) : Except OptionsError ProverOptions := do
  if !(← (inRange queries).mapError .misuse) then throw (.queries queries)
  if !isArity arity then throw (.arity arity)
  match hash.text?.bind HashName.ofName? with
  | none => throw (.hash hash)
  | some h => return ⟨queries, arity, h, minPo2⟩

/-- The options of a settings document. Missing names keep their standard values and unknown names
are passed over. -/
def ofJson (j : Json) : Except OptionsError ProverOptions :=
  match j with
  | .obj members =>
    let field (name : Text) (standard : Json) : Json := (Table.get? name members).getD standard
    check (field "n_queries" standard.queries) (field "merkle_arity" standard.arity)
      (field "hashfn" (.str standard.hash.name)) (field "min_po2" standard.minPo2)
  | _ => .error (.misuse .notAnObject)

/-- The number of queries to draw; a number with a point counts nothing. -/
def queryCount (o : ProverOptions) : Except Misuse Int :=
  match o.queries.integer? with
  | some n => .ok n
  | none => .error .wrongKind

/-- The arity of a tree over `leaves` leaves. A single leaf has no siblings to arrange, so any
arity does. -/
def treeArity (o : ProverOptions) (leaves : Nat) : Except Misuse Arity :=
  match o.arity.integer?.bind Arity.ofInt? with
  | some a => .ok a
  | none => if leaves ≤ 1 then .ok .two else .error .wrongKind

end ProverOptions

/-- The least exponent whose power of two is not below the number of rows. -/
def leastExponent (rows : Int) : Nat :=
  bitLength (rows - 1).natAbs

/-- The exponent of the padded length of a trace: the minimum, unless the rows need more. -/
def paddedExponent (rows : Int) (minimum : Json) : Except Misuse Json :=
  let needed : Int := leastExponent rows
  match minimum with
  | .float x => .ok (if x.compareInt? needed = some .lt then .int needed else .float x)
  | j =>
    match j.integer? with
    | some n => .ok (if n < needed then .int needed else j)
    | none => .error .wrongKind

/-- The exponent from which on the padded length cannot be held. -/
def exponentRoom : Nat := 0x10000000000

/-- The exponent from which on the padded length cannot even be asked for. -/
def exponentLimit : Nat := 69175290276410818350

/-- The padded length of a trace; the exponent has to be whole. -/
def paddedLength (exponent : Json) : Except Misuse Nat :=
  match exponent.integer? with
  | some n =>
    if (exponentLimit : Int) ≤ n then .error .tooLarge
    else if (exponentRoom : Int) ≤ n then .error .noRoom
    else .ok (Nat.pow 2 n.toNat)
  | none => .error .wrongKind

end CircuitReceipts
