import CircuitReceipts.Proofs.Receipt.Acceptance

/-!
# One journal for a seal

The journal of an accepted receipt can be read off its seal. The transcript that picks the sampled
rows has absorbed the journal, so which rows have to be opened may depend on it. But the rows that a
seal opens are those of its openings, whichever were to be opened, and a program that is given says
which of them append to the journal and that all of these are opened. So what an accepted receipt
states is a function of its seal and the artifact, and no property of the hash functions is used.
-/

namespace CircuitReceipts

namespace Seal

/-- The rows in the openings of a seal, each once it has been checked against a program. -/
def rows (s : Seal) (code : Code) : Except VerifyError Rows :=
  s.sortedOpenings.mapM fun o => do return (o.index, ← s.checkOpening code o)

/-- The journal that the opened rows of a seal spell at the positions that append to it. -/
def journal (s : Seal) (code : Code) : Except VerifyError Bytes := do
  let rows ← s.rows code
  (rows.committed code.commits).mapError .misuse

end Seal

namespace Receipt

variable {r r' : Receipt} {a : Artifact} {minQueries minQueries' : Int} {s : Seal} {code : Code}
  {rows : Rows}

theorem rows_of_openedRows (h : r.openedRows s code = .ok rows) : s.rows code = .ok rows := by
  simp only [openedRows, bind_eq_ok, mapError_eq_ok, throw_bind, guard_eq_ok] at h
  obtain ⟨_, -, _, -, -, hrows⟩ := h
  exact hrows

theorem committed_of_checkBoundary {journal : Bytes}
    (h : rows.checkBoundary code journal = .ok ()) : rows.committed code.commits = .ok journal := by
  simp only [Rows.checkBoundary, bind_eq_ok, mapError_eq_ok, throw_bind, guard_eq_ok,
    guard_throw_eq_ok, not_not] at h
  obtain ⟨_, -, -, bytes, hcommitted, rfl, -⟩ := h
  exact hcommitted

/-- The journal of an accepted receipt is the one that its seal spells for the program of the
artifact, and every row that is compared with it is opened. -/
theorem journal_of_verify (h : r.verify a minQueries = .ok ()) :
    ∃ s p, Seal.ofBytes r.evidence = .ok s ∧ Program.load a.blob = .ok p ∧
      (∀ pc ∈ p.code.commits, s.Opens pc) ∧ s.journal p.code = .ok r.journal := by
  obtain ⟨s, p, values, hs, hload, -, hestablishes⟩ := of_verify h
  refine ⟨s, p, hs, hload, hestablishes.commits, ?_⟩
  simp only [verify, hs, hload, throw_bind, guard_eq_ok, bind_eq_ok, mapError_eq_ok, ok_bind,
    mapError_ok] at h
  obtain ⟨-, -, -, rows, hrows, -, -, hboundary⟩ := h
  rw [Seal.journal, rows_of_openedRows hrows, ok_bind, mapError_eq_ok]
  exact committed_of_checkBoundary hboundary

theorem imageId_of_verify (h : r.verify a minQueries = .ok ()) : r.imageId = a.imageId := by
  obtain ⟨_, _, _, -, -, himage, -⟩ := of_verify h
  exact himage

/-- Accepted receipts for an artifact that have the same seal are equal, whatever numbers of queries
were asked for. So a seal attests one journal at most. -/
theorem eq_of_evidence_eq (h : r.verify a minQueries = .ok ())
    (h' : r'.verify a minQueries' = .ok ()) (hevidence : r.evidence = r'.evidence) : r = r' := by
  obtain ⟨s, p, hs, hload, -, hjournal⟩ := journal_of_verify h
  obtain ⟨s', p', hs', hload', -, hjournal'⟩ := journal_of_verify h'
  rw [hevidence, hs', Except.ok.injEq] at hs
  rw [hload', Except.ok.injEq] at hload
  subst hs hload
  have himage : r.imageId = r'.imageId := (imageId_of_verify h).trans (imageId_of_verify h').symm
  have hsame : r.journal = r'.journal := Except.ok.inj (hjournal.symm.trans hjournal')
  cases r
  cases r'
  rw [Receipt.mk.injEq]
  exact ⟨himage, hsame, hevidence⟩

/-- A seal for the difference of one and two modulo five, asked for one query and for all it has. -/
theorem eq_of_evidence_eq_modsub : ∃ r r' : Receipt, r.verify Operation.modsub.artifact 1 = .ok () ∧
    r'.verify Operation.modsub.artifact 16 = .ok () ∧ r.evidence = r'.evidence ∧ r = r' := by
  have hlt : ∀ n ∈ [1, 2, 5], n < 0x100000000 := by decide
  obtain ⟨values, proof, -, -, -, hverify⟩ := Operation.exists_proof .modsub
    (show [1, 2, 5].length = 3 from rfl) ⟨by decide, by decide⟩ (fun n hn => short_of_lt (hlt n hn))
    ProverOptions.valid_standard rfl
  have hone := hverify 1 (by decide)
  have hall := hverify 16 (Int.le_refl _)
  exact ⟨proof.receipt, proof.receipt, hone, hall, rfl, eq_of_evidence_eq hone hall rfl⟩

end Receipt

end CircuitReceipts
