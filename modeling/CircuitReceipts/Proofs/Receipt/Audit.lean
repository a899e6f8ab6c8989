import CircuitReceipts.Proofs.Success
import CircuitReceipts.Receipt.Verification

/-!
# The log of a verification

Whoever verifies a receipt learns whether it is accepted, and finds the reason for a rejection in a
log. Here the checks of verification are made once more, each by a check that adds to a log the
record of its own rejection before it stops. Its verdict is that of verification, and after a
rejection the log has one record more, the text of the reason.
-/

namespace CircuitReceipts

/-- A check that keeps a log. From the records so far it comes to a result or, if it stops, to none,
and to the records then; or it breaks off. -/
def Audit (α : Type) : Type :=
  List Text → Except Misuse (Option α × List Text)

namespace Audit

variable {α β : Type}

instance : Monad Audit where
  pure a := fun log => .ok (some a, log)
  bind x f := fun log =>
    match x log with
    | .ok (some a, log) => f a log
    | .ok (none, log) => .ok (none, log)
    | .error m => .error m

def record (t : Text) : Audit Unit :=
  fun log => .ok (some (), log ++ [t])

def stop : Audit α :=
  fun log => .ok (none, log)

def refuse (r : Rejection) : Audit α := do
  record r.message
  stop

/-- A step that adds no record, whatever becomes of it. -/
def attempt (x : Except Misuse α) : Audit α :=
  fun log => x.map fun a => (some a, log)

/-- The seal in the bytes of a receipt. -/
def readSeal (evidence : Bytes) : Audit Seal :=
  match Json.ofBytes evidence with
  | .error .malformed => refuse (.malformed .notJson)
  | .error .tooDeep => attempt (.error .tooDeep)
  | .error .tooLong => attempt (.error .tooManyDigits)
  | .ok j =>
    match Seal.ofJson j with
    | .error e => refuse (.malformed e)
    | .ok s => return s

def loadProgram (a : Artifact) : Audit Program :=
  match Program.load a.blob with
  | .error e => refuse (.artifact a.name e)
  | .ok p => return p

def checkStatement (s : Seal) (p : Program) (r : Receipt) (minQueries : Int) : Audit Unit := do
  if s.queries < minQueries then refuse (.tooFewQueries s.queries minQueries)
  if s.imageId ≠ r.imageId then refuse .boundToOtherImage
  if s.journalDigest ≠ (s.hash.digest r.journal).hex then refuse .journalDigest
  if s.userCycles ≠ p.size then refuse (.cycleCount s.userCycles p.size)
  if s.po2 < leastExponent s.userCycles then refuse (.exponent s.po2 s.userCycles)

def checkOpening (s : Seal) (code : Code) (o : Opening) : Audit Row := do
  let expected := Merkle.pathLength s.arity s.userCycles.toNat
  if o.path.length ≠ expected then refuse (.pathLength o.index o.path.length expected)
  if !Merkle.verify s.hash s.arity s.traceRoot o.path o.index o.leaf then refuse (.path o.index)
  match Row.ofLeaf o.leaf with
  | .error e => refuse (.leaf o.index e)
  | .ok row =>
    if row.cycle ≠ o.index ∨ row.pc ≠ o.index then refuse (.misplaced o.index row.cycle row.pc)
    let i ← attempt (code.instructionAt o.index)
    if !row.executes i then refuse (.constraint o.index i)
    return row

def checkOpenings (s : Seal) (code : Code) : List Opening → Audit Rows
  | [] => return []
  | o :: rest => do
    let row ← checkOpening s code o
    let rows ← checkOpenings s code rest
    return (o.index, row) :: rows

def openRows (r : Receipt) (s : Seal) (code : Code) : Audit Rows := do
  let transcript ← attempt ((s.statement r).transcript s.hash)
  let expected ← attempt (code.openedRows transcript s.queries)
  if !s.opens expected then refuse .openedRows
  checkOpenings s code s.sortedOpenings

def checkSources (rows : Rows) (code : Code) : Rows → Audit Unit
  | [] => return ()
  | (index, r) :: rest => do
    let sourced ← attempt (code.checkSources (Table.get? · rows) index r)
    if !sourced then refuse (.sources index)
    checkSources rows code rest

def checkBoundary (rows : Rows) (code : Code) (journal : Bytes) : Audit Unit := do
  let last ← attempt (rows.row (code.size - 1))
  if !last.endsWell then refuse .finalRow
  let committed ← attempt (rows.committed code.commits)
  if committed ≠ journal then refuse .journal

/-- Verifies a receipt and keeps a log. -/
def verify (r : Receipt) (a : Artifact) (minQueries : Int) : Audit Unit := do
  if r.imageId ≠ a.imageId then refuse (.otherImage r.imageId a.imageId)
  let s ← readSeal r.evidence
  let p ← loadProgram a
  checkStatement s p r minQueries
  let rows ← openRows r s p.instructions
  checkSources rows p.instructions rows
  checkBoundary rows p.instructions r.journal

/-- The check that keeps a log of the reason for which a check rejects. -/
def ofCheck : Except VerifyError α → Audit α
  | .ok a => return a
  | .error (.rejected r) => refuse r
  | .error (.misuse m) => attempt (.error m)

@[simp] theorem refuse_bind (r : Rejection) (f : α → Audit β) : (refuse r >>= f) = refuse r := rfl

@[simp] theorem ofCheck_pure (a : α) : ofCheck (pure a) = pure a := rfl

@[simp] theorem ofCheck_rejected (r : Rejection) :
    ofCheck (.error (.rejected r) : Except VerifyError α) = refuse r := rfl

@[simp] theorem ofCheck_mapError_misuse (x : Except Misuse α) :
    ofCheck (x.mapError .misuse) = attempt x := by
  cases x <;> rfl

theorem ofCheck_bind (x : Except VerifyError α) (f : α → Except VerifyError β) :
    ofCheck (x >>= f) = ofCheck x >>= fun a => ofCheck (f a) := by
  rcases x with (r | m) | a <;> rfl

theorem ofCheck_ite {c : Prop} [Decidable c] (x y : Except VerifyError α) :
    ofCheck (if c then x else y) = if c then ofCheck x else ofCheck y := by
  split <;> rfl

theorem readSeal_eq (evidence : Bytes) : readSeal evidence = ofCheck (Seal.ofBytes evidence) := by
  rw [readSeal, Seal.ofBytes]
  rcases Json.ofBytes evidence with (_ | _ | _) | j
  · rfl
  · rfl
  · rfl
  · simp only
    cases Seal.ofJson j <;> rfl

theorem loadProgram_eq (a : Artifact) : loadProgram a =
    ofCheck ((Program.load a.blob).mapError fun e => .rejected (.artifact a.name e)) := by
  rw [loadProgram]
  cases Program.load a.blob <;> rfl

theorem checkStatement_eq (s : Seal) (p : Program) (r : Receipt) (minQueries : Int) :
    checkStatement s p r minQueries =
      ofCheck ((s.checkStatement p r minQueries).mapError .rejected) := by
  rw [checkStatement, Seal.checkStatement]
  simp only [refuse_bind, throw_bind, apply_ite (Except.mapError VerifyError.rejected),
    ofCheck_ite, mapError_error, ofCheck_rejected]
  rfl

theorem checkOpening_eq (s : Seal) (code : Code) (o : Opening) :
    checkOpening s code o = ofCheck (s.checkOpening code o) := by
  rw [checkOpening, Seal.checkOpening]
  simp only [ofCheck_bind, ofCheck_ite, refuse_bind, throw_bind, ofCheck_rejected,
    ofCheck_mapError_misuse, ofCheck_pure]
  cases Row.ofLeaf o.leaf <;> rfl

theorem checkOpenings_eq (s : Seal) (code : Code) (os : List Opening) :
    checkOpenings s code os =
      ofCheck (os.mapM fun o => do return (o.index, ← s.checkOpening code o)) := by
  induction os with
  | nil => rfl
  | cons o os ih =>
    rw [checkOpenings, List.mapM_cons, ih, checkOpening_eq]
    cases s.checkOpening code o with
    | ok row =>
      simp only [ofCheck_bind]
      rfl
    | error e => cases e <;> rfl

theorem openRows_eq (r : Receipt) (s : Seal) (code : Code) :
    openRows r s code = ofCheck (r.openedRows s code) := by
  rw [openRows, Receipt.openedRows]
  simp only [ofCheck_bind, ofCheck_ite, refuse_bind, throw_bind, ofCheck_rejected,
    ofCheck_mapError_misuse, checkOpenings_eq]

theorem checkSources_eq (rows : Rows) (code : Code) (rest : Rows) :
    checkSources rows code rest = ofCheck (rows.checkSources code rest) := by
  induction rest with
  | nil => rfl
  | cons e rest ih =>
    simp only [checkSources, Rows.checkSources, ofCheck_bind, ofCheck_ite, refuse_bind, throw_bind,
      ofCheck_rejected, ofCheck_mapError_misuse, ih]

theorem checkBoundary_eq (rows : Rows) (code : Code) (journal : Bytes) :
    checkBoundary rows code journal = ofCheck (rows.checkBoundary code journal) := by
  rw [checkBoundary, Rows.checkBoundary]
  simp only [ofCheck_bind, ofCheck_ite, refuse_bind, throw_bind, ofCheck_rejected,
    ofCheck_mapError_misuse]
  rfl

/-- The verifier that keeps a log makes just the checks of verification. -/
theorem verify_eq (r : Receipt) (a : Artifact) (minQueries : Int) :
    verify r a minQueries = ofCheck (r.verify a minQueries) := by
  rw [verify, Receipt.verify]
  simp only [ofCheck_bind, ofCheck_ite, refuse_bind, throw_bind, ofCheck_rejected, readSeal_eq,
    loadProgram_eq, checkStatement_eq, openRows_eq, checkSources_eq, checkBoundary_eq]

end Audit

end CircuitReceipts
