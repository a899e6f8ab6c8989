import CircuitReceipts.Proofs.Receipt.Acceptance
import CircuitReceipts.Proofs.Receipt.Audit

/-!
# Every receipt is judged

The verification of a receipt takes much for granted: that the rows it looks up were opened, that
their values are natural numbers, that the positions of a seal are positions of the program, that
the digests it absorbs are hexadecimal. Where that failed it would break off without a verdict. Each
of these was settled by a check before, so whatever stands in a receipt it is accepted or rejected;
only a seal nested too deeply to be read at all has no verdict.
-/

namespace CircuitReceipts

/-- Whether a check comes to a verdict: it passes or rejects. -/
def Judged {α : Type} (x : Except VerifyError α) : Prop :=
  ∀ m, x ≠ .error (.misuse m)

section

variable {α β : Type} {x : Except VerifyError α} {f : α → Except VerifyError β}

theorem judged_ok (a : α) : Judged (.ok a : Except VerifyError α) :=
  fun _ h => nomatch h

theorem judged_rejected (r : Rejection) :
    Judged (.error (.rejected r) : Except VerifyError α) :=
  fun _ h => nomatch h

theorem judged_mapError {ε : Type} (y : Except ε α) (g : ε → Rejection) :
    Judged (y.mapError fun e => .rejected (g e)) := by
  cases y with
  | error e => exact judged_rejected (g e)
  | ok a => exact judged_ok a

theorem Judged.bind (hx : Judged x) (hf : ∀ a, x = .ok a → Judged (f a)) : Judged (x >>= f) := by
  cases x with
  | error e => cases e with
    | rejected r => exact judged_rejected r
    | misuse m => exact absurd rfl (hx m)
  | ok a => exact hf a rfl

theorem Judged.guard {c : Prop} [Decidable c] {r : Rejection} (hx : ¬c → Judged x) :
    Judged (if c then .error (.rejected r) else x) := by
  split
  · exact judged_rejected r
  · next hc => exact hx hc

theorem judged_mapM {γ : Type} {g : γ → Except VerifyError α} {xs : List γ}
    (h : ∀ c ∈ xs, Judged (g c)) : Judged (xs.mapM g) := by
  induction xs with
  | nil => exact judged_ok []
  | cons c xs ih =>
    rw [List.mapM_cons]
    refine (h c (List.mem_cons_self ..)).bind fun a _ => ?_
    exact (ih fun d hd => h d (List.mem_cons_of_mem _ hd)).bind fun as _ => judged_ok _

theorem Judged.cases (h : Judged x) : (∃ a, x = .ok a) ∨ ∃ r, x = .error (.rejected r) := by
  rcases x with (r | m) | a
  · exact .inr ⟨r, rfl⟩
  · exact absurd rfl (h m)
  · exact .inl ⟨a, rfl⟩

end

theorem Code.exists_instructionAt {code : Code} {pc : Nat} (hpc : pc < code.size) :
    ∃ i, code.instructionAt pc = .ok i := by
  obtain ⟨i, hi⟩ := exists_instruction hpc
  exact ⟨i, by rw [instructionAt_natCast, hi]⟩

theorem Seal.judged_checkOpening (s : Seal) {code : Code} {o : Opening} {pc : Nat}
    (hindex : o.index = pc) (hpc : pc < code.size) : Judged (s.checkOpening code o) := by
  obtain ⟨i, hi⟩ := Code.exists_instructionAt hpc
  rw [checkOpening, hindex, hi]
  simp only [throw_bind, mapError_ok, ok_bind]
  refine .guard fun _ => .guard fun _ => ?_
  refine (judged_mapError _ _).bind fun row _ => .guard fun _ => .guard fun _ => judged_ok row

namespace Rows

variable {rows rest : Rows} {code : Code}

theorem judged_checkSources (h : ∀ e ∈ rest, ∃ pc : Nat, e.1 = pc ∧ pc < code.size) :
    Judged (checkSources rows code rest) := by
  induction rest with
  | nil => exact judged_ok ()
  | cons e rest ih =>
    obtain ⟨index, row⟩ := e
    obtain ⟨pc, hindex, hpc⟩ := h _ (List.mem_cons_self ..)
    obtain ⟨i, hi⟩ := Code.exists_instructionAt hpc
    have hrest := ih fun e he => h e (List.mem_cons_of_mem _ he)
    simp only at hindex
    simp only [checkSources, Code.checkSources, hindex, hi, Except.map, mapError_ok, ok_bind,
      throw_bind]
    exact .guard fun _ => hrest

/-- The boundary is judged if the last row and the rows that append to the journal are there, with
natural numbers in them. -/
theorem judged_checkBoundary (values : Nat → Nat) (journal : Bytes) {last : Row}
    (hlast : Table.get? ((code.size : Int) - 1) rows = some last)
    (hcommits : ∀ pc ∈ code.commits,
      ∃ row, Table.get? (pc : Int) rows = some row ∧ row.value = values pc) :
    Judged (rows.checkBoundary code journal) := by
  rw [checkBoundary, row_eq_ok.2 hlast, committed_eq_ok hcommits]
  simp only [mapError_ok, ok_bind, throw_bind]
  exact .guard fun _ => .guard fun _ => judged_ok ()

end Rows

namespace Receipt

variable {r : Receipt} {a : Artifact} {p : Program} {s : Seal} {rows : Rows}

theorem exists_transcript (hp : p.Loaded) (himage : r.imageId = a.imageId)
    (hcycles : s.userCycles = p.size) : ∃ t, (s.statement r).transcript s.hash = .ok t := by
  rw [Seal.statement, himage, hcycles]
  exact Statement.exists_transcript s.hash (Bytes.ofHex?_hex (Sha256.hash a.blob))
    (s.hash.digest r.journal) s.traceRoot hp.size_lt.le

/-- The opened rows are judged: each of them is at a position of the program before it is looked
into. -/
theorem judged_openedRows (hp : p.Loaded) (himage : r.imageId = a.imageId)
    (hcycles : s.userCycles = p.size) : Judged (r.openedRows s p.code) := by
  obtain ⟨t, ht⟩ := exists_transcript hp himage hcycles
  obtain ⟨expected, hexpected⟩ := Code.exists_openedRows hp.size_pos t s.queries
  rw [openedRows, ht, mapError_ok, ok_bind, hexpected, mapError_ok, ok_bind]
  simp only [throw_bind]
  refine .guard fun hopens => judged_mapM fun o ho => ?_
  obtain ⟨pc, hpc, hindex⟩ := Seal.exists_of_mem_sortedOpenings (by simpa using hopens) ho
  exact (s.judged_checkOpening hindex ((of_rowsToOpen hexpected).1 pc hpc)).bind
    fun row _ => judged_ok _

theorem position_of_mem_openedRows {code : Code} (h : r.openedRows s code = .ok rows)
    {e : Int × Row} (he : e ∈ rows) : ∃ pc : Nat, e.1 = pc ∧ pc < code.size := by
  simp only [openedRows, bind_eq_ok, mapError_eq_ok, throw_bind, guard_eq_ok] at h
  obtain ⟨transcript, -, expected, hexpected, hopens, hrows⟩ := h
  obtain ⟨o, ho, hentry⟩ := exists_of_mem_mapM hrows he
  simp only [bind_eq_ok, pure_eq_ok] at hentry
  obtain ⟨row, -, rfl⟩ := hentry
  obtain ⟨pc, hpc, hindex⟩ := Seal.exists_of_mem_sortedOpenings (by simpa using hopens) ho
  exact ⟨pc, hindex, (of_rowsToOpen hexpected).1 pc hpc⟩

/-- What is checked of the opened rows afterwards is judged: the rows that are looked up are those
of positions that had to be opened. -/
theorem judged_checks (hp : p.Loaded) (h : r.openedRows s p.code = .ok rows) :
    Judged (rows.checkSources p.code rows) ∧ Judged (rows.checkBoundary p.code r.journal) := by
  refine ⟨Rows.judged_checkSources fun e he => position_of_mem_openedRows h he, ?_⟩
  obtain ⟨t, expected, hexpected, -, hchecked⟩ := of_openedRows h
  obtain ⟨-, -, hlast, hcommits, -⟩ := of_rowsToOpen hexpected
  obtain ⟨last, hget, -⟩ := (hchecked _ hlast).value
  have hplace : ((p.code.size - 1 : Nat) : Int) = (p.code.size : Int) - 1 :=
    Int.natCast_pred_of_pos hp.size_pos
  rw [hplace] at hget
  refine Rows.judged_checkBoundary rows.value r.journal hget fun pc hpc => ?_
  obtain ⟨row, hrow, hvalue, -⟩ := (hchecked pc (hcommits hpc)).value
  exact ⟨row, hrow, hvalue⟩

theorem judged_verify (r : Receipt) (a : Artifact) (minQueries : Int)
    (hread : Json.ofBytes r.evidence ≠ .error .tooDeep) : Judged (r.verify a minQueries) := by
  rw [verify]
  simp only [throw_bind]
  refine .guard fun himage => .bind ?_ fun s hs => ?_
  · rw [Seal.ofBytes]
    split
    · exact judged_mapError _ _
    · exact judged_rejected _
    · next hdeep => exact absurd hdeep hread
    · next hlong => exact absurd hlong (Json.ofBytes_ne_tooLong _)
  refine (judged_mapError _ _).bind fun p hload => ?_
  have hp := Program.loaded_of_load (mapError_eq_ok.1 hload)
  refine .bind ?_ fun _ hstatement => ?_
  · exact judged_mapError (s.checkStatement p r minQueries) id
  -- every position sampled below the number of cycles is thereby one of the program
  have hcycles : s.userCycles = p.size := by
    simp only [Seal.checkStatement, throw_bind, mapError_eq_ok, guard_eq_ok, not_not] at hstatement
    exact hstatement.2.2.2.1
  refine (judged_openedRows hp (not_not.1 himage) hcycles).bind fun rows hrows => ?_
  obtain ⟨hsources, hboundary⟩ := judged_checks hp hrows
  exact hsources.bind fun _ _ => hboundary

/-- Verification is total. Whatever stands in a receipt, in an artifact and in the number of queries
asked for, unless the seal is nested too deeply to be read the receipt is accepted and the log left
as it was, or it is rejected and the log has one record more, the text of the reason. -/
theorem verify_total (r : Receipt) (a : Artifact) (minQueries : Int) (log : List Text)
    (hread : Json.ofBytes r.evidence ≠ .error .tooDeep) :
    (r.verify a minQueries = .ok () ∧ Audit.verify r a minQueries log = .ok (some (), log)) ∨
      ∃ reason, r.verify a minQueries = .error (.rejected reason) ∧
        Audit.verify r a minQueries log = .ok (none, log ++ [reason.message]) := by
  rw [Audit.verify_eq]
  rcases (judged_verify r a minQueries hread).cases with ⟨⟨⟩, h⟩ | ⟨reason, h⟩
  · exact .inl ⟨h, by rw [h]; rfl⟩
  · exact .inr ⟨reason, h, by rw [h]; rfl⟩

/-- The receipt of the inverse of three modulo seven is accepted, and is rejected with one record if
more queries are asked for than it was made with. -/
theorem verify_total_modinv : ∃ r : Receipt, Json.ofBytes r.evidence ≠ .error .tooDeep ∧
    Audit.verify r Operation.modinv.artifact 16 [] = .ok (some (), []) ∧
    ∃ reason, Audit.verify r Operation.modinv.artifact 17 [] = .ok (none, [reason]) := by
  have hlt : ∀ n ∈ [3, 7], n < 0x100000000 := by decide
  have hadmissible : Operation.modinv.Admissible [3, 7] := ⟨by decide, by decide⟩
  obtain ⟨values, hoperands, hvalues⟩ := Operation.exists_consistent rfl hadmissible
  have hwritable := Operation.writable_of_consistent hvalues
    (hoperands ▸ fun n hn => short_of_lt (hlt n hn))
  obtain ⟨proof, -, hverify⟩ := Session.exists_proof (a := Operation.modinv.artifact)
    Operation.modinv.load_blob Operation.modinv.endsWell_program hvalues hwritable
    ProverOptions.valid_standard rfl
  have haccepted := (hverify 16).1 (Int.le_refl _)
  obtain ⟨reason, hrejected⟩ := (hverify 17).2 (by decide)
  -- a receipt that is accepted has been read
  have hread : Json.ofBytes proof.receipt.evidence ≠ .error .tooDeep := by
    intro hdeep
    obtain ⟨s, -, -, hs, -⟩ := of_verify haccepted
    rw [Seal.ofBytes, hdeep] at hs
    cases hs
  refine ⟨proof.receipt, hread, ?_, ?_⟩
  · rcases verify_total proof.receipt Operation.modinv.artifact 16 [] hread with
      ⟨-, hlog⟩ | ⟨_, h, -⟩
    · exact hlog
    · cases haccepted.symm.trans h
  · rcases verify_total proof.receipt Operation.modinv.artifact 17 [] hread with
      ⟨h, -⟩ | ⟨reason, -, hlog⟩
    · cases hrejected.symm.trans h
    · exact ⟨_, hlog⟩

end Receipt

end CircuitReceipts
