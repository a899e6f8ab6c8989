import CircuitReceipts.Json.Printer
import CircuitReceipts.Receipt.Options

/-!
# Seals

The evidence in a receipt: the parameters of the proof, the statement, the commitment to the trace,
and the opened rows with their paths. A seal is written as a JSON document and read back from
arbitrary bytes. Reading a seal settles what every later check relies on: the kinds of its fields,
its parameters, and that all digests are hexadecimal.
-/

namespace CircuitReceipts

/-- One opened row: its index, its leaf, and its path. -/
structure Opening where
  index : Int
  leaf : Bytes
  path : List (List Bytes)
deriving DecidableEq, Inhabited

/-- A seal whose fields are in order. -/
structure Seal where
  hash : HashName
  arity : Arity
  queries : Int
  imageId : Text
  journalDigest : Text
  userCycles : Int
  po2 : Int
  traceRoot : Bytes
  openings : List Opening
deriving DecidableEq, Inhabited

/-- Why bytes are no seal. -/
inductive SealError where
  | notJson
  | notAnObject
  | field (name kind : Text)
  | version (got : Int)
  | parameters (hash : Text) (arity : Int)
  | noCycles
  | tooManyQueries (got : Int)
  | openings
deriving DecidableEq, Inhabited

def SealError.message : SealError → Text
  | notJson => "Seal is not valid JSON"
  | notAnObject => "Seal is not a JSON object"
  | field name kind => "Seal field " ++ name.quoted ++ " missing or not " ++ kind
  | version n => "Unsupported seal version " ++ Numeral.decimal n
  | parameters h a => "Unsupported seal parameters: " ++ h ++ ", arity " ++ Numeral.decimal a
  | noCycles => "Seal has no cycles or no queries"
  | tooManyQueries n =>
    "Seal uses " ++ Numeral.decimal n ++ s!" queries, at most {maxQueries} allowed"
  | openings => "Malformed seal openings"

def sealVersion : Nat := 1

/-- The digest or leaf that a string spells in hexadecimal. -/
def Json.bytes? (j : Json) : Option Bytes :=
  j.text?.bind Bytes.ofHex?

namespace Opening

def toJson (o : Opening) : Json :=
  Json.sorted
    [("index", .int o.index), ("leaf", .str o.leaf.hex),
      ("mp", .arr (o.path.map fun level => .arr (level.map fun d => .str d.hex)))]

/-- The digests of one level of a path. -/
def level? (j : Json) : Option (List Bytes) := do
  (← j.elements?).mapM Json.bytes?

def ofJson? (j : Json) : Option Opening := do
  let index ← (← j.get? "index").integer?
  let leaf ← (← j.get? "leaf").bytes?
  let path ← (← (← j.get? "mp").elements?).mapM level?
  return ⟨index, leaf, path⟩

end Opening

namespace Seal

/-- The seal of a proof as a document. The query count, the arity and the exponent are given in the
form in which they are to be shown. -/
def document (o : ProverOptions) (po2 : Json) (imageId : Text) (journalDigest : Bytes)
    (userCycles : Nat) (traceRoot : Bytes) (openings : List Opening) : Json :=
  Json.sorted
    [("version", .int sealVersion), ("hashfn", .str o.hash.name), ("merkle_arity", o.arity),
      ("n_queries", o.queries), ("image_id", .str imageId),
      ("journal_digest", .str journalDigest.hex), ("user_cycles", .int userCycles),
      ("po2", po2), ("trace_root", .str traceRoot.hex),
      ("openings", .arr (openings.map Opening.toJson))]

def integer (j : Json) (name : Text) : Except SealError Int :=
  match (j.get? name).bind Json.integer? with
  | some n => .ok n
  | none => .error (.field name "int")

def text (j : Json) (name : Text) : Except SealError Text :=
  match (j.get? name).bind Json.text? with
  | some t => .ok t
  | none => .error (.field name "str")

def items (j : Json) (name : Text) : Except SealError (List Json) :=
  match (j.get? name).bind Json.items? with
  | some items => .ok items
  | none => .error (.field name "list")

def ofObject (j : Json) : Except SealError Seal := do
  let version ← integer j "version"
  let hashName ← text j "hashfn"
  let arityNumber ← integer j "merkle_arity"
  let queries ← integer j "n_queries"
  let imageId ← text j "image_id"
  let journalDigest ← text j "journal_digest"
  let userCycles ← integer j "user_cycles"
  let po2 ← integer j "po2"
  let rootText ← text j "trace_root"
  let opened ← items j "openings"
  if version ≠ sealVersion then throw (.version version)
  match HashName.ofName? hashName, Arity.ofInt? arityNumber with
  | some hash, some arity =>
    if userCycles < 1 ∨ queries < 1 then throw .noCycles
    if (maxQueries : Int) < queries then throw (.tooManyQueries queries)
    match opened.mapM Opening.ofJson?, Bytes.ofHex? rootText with
    | some openings, some traceRoot =>
      return ⟨hash, arity, queries, imageId, journalDigest, userCycles, po2, traceRoot, openings⟩
    | _, _ => throw .openings
  | _, _ => throw (.parameters hashName arityNumber)

def ofJson (j : Json) : Except SealError Seal :=
  match j with
  | .obj _ => ofObject j
  | _ => .error .notAnObject

end Seal

end CircuitReceipts
