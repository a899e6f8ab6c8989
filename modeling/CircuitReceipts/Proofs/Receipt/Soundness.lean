import CircuitReceipts.Proofs.Circuit.Evaluation
import CircuitReceipts.Proofs.Engine.Run
import CircuitReceipts.Proofs.Receipt.Constraint
import CircuitReceipts.Proofs.Session.Leaf
import CircuitReceipts.Proofs.Table
import CircuitReceipts.Receipt.Verification

/-!
# What an accepted receipt establishes

The seal of a receipt may say anything. If the receipt is accepted, the values of the opened rows
are consistent at every opened position, whatever stands in the rows that are not opened: the opened
positions hold their sources, so each opened row is checked against opened rows only. No property of
the hash functions is used.
-/

namespace CircuitReceipts

/-- Whether a seal opens the row at a position. -/
def Seal.Opens (s : Seal) (pc : Nat) : Prop :=
  ∃ o ∈ s.openings, o.index = pc

/-- What the opened rows of a seal establish about a program and a journal: values that are
consistent at each opened position, where the opened positions hold their sources, all positions
that append to the journal, and the last one. -/
structure Seal.Establishes (s : Seal) (p : Program) (journal : Bytes) (values : Nat → Nat) :
    Prop where
  lt_size : ∀ {pc : Nat}, s.Opens pc → pc < p.size
  sources : ∀ {pc : Nat}, s.Opens pc → ∀ w ∈ p.code.sources pc, s.Opens w
  commits : ∀ pc ∈ p.code.commits, s.Opens pc
  last : s.Opens (p.size - 1)
  consistent : ∀ {pc : Nat}, s.Opens pc → p.code.Consistent values pc
  writable : ∀ {pc : Nat}, s.Opens pc → Writable (values pc)
  journal_eq : journal = encodeNats (p.code.commits.map values)
  endsWell : Engine.EndsWell p

namespace Rows

def value (rows : Rows) (pc : Nat) : Nat :=
  ((Table.get? (pc : Int) rows).map fun r => r.value.toNat).getD 0

variable {rows rest : Rows} {code : Code}

theorem row_eq_ok {index : Int} {r : Row} :
    rows.row index = .ok r ↔ Table.get? index rows = some r := by
  rw [row]
  cases Table.get? index rows <;> simp

theorem sourced_of_checkSources (h : checkSources rows code rest = .ok ()) {index : Int} {r : Row}
    (hr : (index, r) ∈ rest) : code.checkSources (Table.get? · rows) index r = .ok true := by
  induction rest with
  | nil => simp at hr
  | cons e rest ih =>
    obtain ⟨index', r'⟩ := e
    simp only [checkSources, bind_eq_ok, mapError_eq_ok, throw_bind, guard_eq_ok] at h
    obtain ⟨sourced, hsourced, htrue, hrest⟩ := h
    rcases List.mem_cons.1 hr with heq | hr
    · cases heq
      rw [hsourced]
      simpa using htrue
    · exact ih hrest hr

theorem committed_eq_ok {values : Nat → Nat} {indices : List Nat}
    (h : ∀ pc ∈ indices, ∃ row, Table.get? (pc : Int) rows = some row ∧ row.value = values pc) :
    rows.committed indices = .ok (encodeNats (indices.map values)) := by
  have hvalues : (indices.mapM fun (pc : Nat) => do
      (naturalOfInt (← rows.row pc).value).mapError fun _ => Misuse.badValue) =
        .ok (indices.map values) := by
    refine mapM_eq_ok_map fun pc hpc => ?_
    obtain ⟨row, hget, hvalue⟩ := h pc hpc
    rw [row_eq_ok.2 hget, ok_bind, hvalue, naturalOfInt_natCast, mapError_ok]
  rw [committed, hvalues]
  rfl

end Rows

namespace Seal

variable {s : Seal} {code : Code} {o : Opening} {r : Row}

/-- An opening that passes its check has a leaf whose row stands at its index and executes the
instruction there. -/
theorem of_checkOpening (h : s.checkOpening code o = .ok r) :
    Row.ofLeaf o.leaf = .ok r ∧ r.cycle = o.index ∧ r.pc = o.index ∧
      ∃ i, code.instructionAt o.index = .ok i ∧ r.executes i = true := by
  simp only [checkOpening, throw_bind, guard_eq_ok, bind_eq_ok, mapError_eq_ok, pure_eq_ok] at h
  obtain ⟨-, -, row, hrow, hplace, i, hi, hexecutes, rfl⟩ := h
  rw [not_or, not_not, not_not] at hplace
  exact ⟨hrow, hplace.1, hplace.2, i, hi, by simpa using hexecutes⟩

theorem indices_of_opens {rows : List Nat} (h : s.opens rows = true) :
    s.sortedOpenings.map Opening.index = rows.map Int.ofNat :=
  of_decide_eq_true h

theorem exists_of_mem_sortedOpenings {rows : List Nat} (h : s.opens rows = true)
    (ho : o ∈ s.sortedOpenings) : ∃ pc ∈ rows, o.index = (pc : Nat) := by
  obtain ⟨pc, hpc, hindex⟩ := List.mem_map.1 (indices_of_opens h ▸ List.mem_map_of_mem ho)
  exact ⟨pc, hpc, hindex.symm⟩

end Seal

/-- Whether the row under a position is that of an opening which has passed its check. -/
def Rows.Checked (rows : Rows) (s : Seal) (code : Code) (pc : Nat) : Prop :=
  ∃ (o : Opening) (row : Row), o.index = pc ∧ s.checkOpening code o = .ok row ∧
    Table.get? (pc : Int) rows = some row ∧ ((pc : Int), row) ∈ rows

namespace Rows.Checked

variable {rows : Rows} {s : Seal} {code : Code} {pc : Nat}

theorem value (h : rows.Checked s code pc) : ∃ row, Table.get? (pc : Int) rows = some row ∧
    row.value = rows.value pc ∧ Writable (rows.value pc) := by
  obtain ⟨o, row, -, hopening, hget, -⟩ := h
  obtain ⟨-, -, value, ⟨-, -, hvalue⟩, -, -, hwritable⟩ :=
    Row.values_of_ofLeaf (Seal.of_checkOpening hopening).1
  have hrow : rows.value pc = value := by simp [Rows.value, hget, hvalue]
  rw [hrow]
  exact ⟨row, hget, hvalue, hwritable⟩

/-- Where the rows of the sources have been checked as well, a row is that of its instruction under
the values in the rows. -/
theorem rowOf (h : rows.Checked s code pc) (hlt : pc < code.size)
    (hclosed : ∀ w ∈ code.sources pc, rows.Checked s code w)
    (hsources : rows.checkSources code rows = .ok ()) :
    ∃ i, code[pc]? = some i ∧ Table.get? (pc : Int) rows = some (code.rowOf rows.value pc i) ∧
      code.Produces rows.value pc i := by
  obtain ⟨row, hget, hvalue, -⟩ := h.value
  obtain ⟨o, row', hindex, hopening, hget', hmem⟩ := h
  obtain rfl : row' = row := Option.some.inj (hget'.symm.trans hget)
  obtain ⟨hleaf, hcycle, hplace, i, hi, hexecutes⟩ := Seal.of_checkOpening hopening
  rw [hindex] at hcycle hplace hi
  rw [Code.instructionAt_natCast] at hi
  obtain ⟨i', hi'⟩ := Code.exists_instruction hlt
  rw [hi', Except.ok.injEq] at hi
  subst hi
  obtain ⟨lhs, rhs, -, ⟨hlhs, hrhs, -⟩, -⟩ := Row.values_of_ofLeaf hleaf
  have hsourced := Rows.sourced_of_checkSources hsources hmem
  rw [Code.checkSources, Code.instructionAt_natCast, hi'] at hsourced
  have hread : ∀ w ∈ code.sources pc, ∃ row, Table.get? (w : Int) rows = some row ∧
      row.value = rows.value w := by
    intro w hw
    obtain ⟨row, hget, hvalue, -⟩ := (hclosed w hw).value
    exact ⟨row, hget, hvalue⟩
  obtain ⟨hrow, hproduces⟩ := (Code.executes_and_sourced_iff hi' hcycle hplace hlhs hrhs hvalue
    hread).1 ⟨hexecutes, Except.ok.inj hsourced⟩
  exact ⟨i', hi', hrow ▸ hget, hproduces⟩

end Rows.Checked

theorem Engine.endsWell_of_rowOf {p : Program} {values : Nat → Nat} {i : Instruction}
    (hp : p.Loaded) (hi : p.code[p.size - 1]? = some i)
    (h : (p.code.rowOf values (p.size - 1) i).endsWell = true) : EndsWell p := by
  have hop : i.op = .halt := (hp.halt_iff hi).2 (Nat.sub_add_cancel hp.size_pos)
  refine ⟨i, hi, hop, ?_⟩
  rw [← (Row.endsWell_iff.1 h).2, Code.rowOf]
  split <;> rfl

namespace Receipt

variable {r : Receipt} {a : Artifact} {minQueries : Int} {s : Seal} {code : Code} {rows : Rows}

/-- The rows that a seal has to open are positions, the last one among them, hold their sources and
hold all positions that append to the journal. -/
theorem of_rowsToOpen {t : Transcript} {queries : Int} {expected : List Nat}
    (h : code.openedRows t queries = .ok expected) :
    (∀ pc ∈ expected, pc < code.size) ∧ (∀ pc ∈ expected, code.sources pc ⊆ expected) ∧
      code.size - 1 ∈ expected ∧ code.commits ⊆ expected ∧ expected.Pairwise (· < ·) := by
  simp only [Code.openedRows, bind_eq_ok, throw_bind, guard_eq_ok, pure_eq_ok] at h
  obtain ⟨sampled, -, hne, rfl⟩ := h
  have hpos : 0 < code.size := by
    rw [Array.isEmpty_iff_size_eq_zero] at hne
    omega
  refine ⟨fun pc => Code.lt_size_of_mem_closure, fun pc => Code.sources_subset_closure,
    Code.mem_closure_of_mem (by simp) (by omega), fun w hw => ?_, Code.pairwise_closure⟩
  have hlt : w < code.size := by
    rw [Code.commits_eq_positions, Code.mem_positions] at hw
    exact hw.1
  exact Code.mem_closure_of_mem (by simp [hw]) hlt

/-- Each row that a seal has to open stands under its position, and is that of an opening which has
passed its check. -/
theorem of_openedRows (h : r.openedRows s code = .ok rows) :
    ∃ (t : Transcript) (expected : List Nat), code.openedRows t s.queries = .ok expected ∧
      (∀ {pc : Nat}, pc ∈ expected ↔ s.Opens pc) ∧
      ∀ pc ∈ expected, rows.Checked s code pc := by
  simp only [openedRows, bind_eq_ok, mapError_eq_ok, throw_bind, guard_eq_ok] at h
  obtain ⟨transcript, -, expected, hexpected, hopens, hrows⟩ := h
  have hindices := Seal.indices_of_opens (by simpa using hopens)
  have hkeys : Table.keys rows = expected.map Int.ofNat := by
    rw [← hindices, Table.keys]
    refine (map_eq_map_of_mapM hrows fun {o entry} h => ?_).symm
    simp only [bind_eq_ok, pure_eq_ok] at h
    obtain ⟨row, -, rfl⟩ := h
    rfl
  have hnodup : (Table.keys rows).Nodup := by
    rw [hkeys]
    refine List.Nodup.map (fun _ _ => Int.ofNat.inj) ?_
    exact (of_rowsToOpen hexpected).2.2.2.2.imp (fun h => Nat.ne_of_lt h)
  refine ⟨transcript, expected, hexpected, fun {pc} => ?_, fun pc hpc => ?_⟩
  · rw [Seal.Opens]
    constructor
    · intro hpc
      have hmem : (pc : Int) ∈ s.sortedOpenings.map Opening.index := by
        rw [hindices]
        exact List.mem_map.2 ⟨pc, hpc, rfl⟩
      obtain ⟨o, ho, hindex⟩ := List.mem_map.1 hmem
      exact ⟨o, (List.mem_mergeSort.1 ho), hindex⟩
    · rintro ⟨o, ho, hindex⟩
      have hmem : (pc : Int) ∈ expected.map Int.ofNat := by
        rw [← hindices, ← hindex]
        exact List.mem_map.2 ⟨o, List.mem_mergeSort.2 ho, rfl⟩
      simpa using hmem
  · have hmem : (pc : Int) ∈ Table.keys rows := by
      rw [hkeys]
      exact List.mem_map.2 ⟨pc, hpc, rfl⟩
    obtain ⟨⟨index, row⟩, hentry, rfl⟩ := List.mem_map.1 hmem
    obtain ⟨o, -, ho⟩ := exists_of_mem_mapM hrows hentry
    simp only [bind_eq_ok, pure_eq_ok, Prod.mk.injEq] at ho
    obtain ⟨row', hrow, hindex, rfl⟩ := ho
    exact ⟨o, row', hindex, hrow, Table.get?_of_mem hnodup hentry, hentry⟩

/-- An accepted receipt has a seal for a program of the artifact, and the rows that the seal opens
establish the journal. -/
theorem of_verify (h : r.verify a minQueries = .ok ()) :
    ∃ (s : Seal) (p : Program) (values : Nat → Nat), Seal.ofBytes r.evidence = .ok s ∧
      Program.load a.blob = .ok p ∧ r.imageId = a.imageId ∧
      s.Establishes p r.journal values := by
  simp only [verify, throw_bind, guard_eq_ok, guard_throw_eq_ok, bind_eq_ok, mapError_eq_ok,
    not_not, Rows.checkBoundary] at h
  obtain ⟨himage, s, hs, p, hload, _, -, rows, hrows, _, hsources, hboundary⟩ := h
  have hp := Program.loaded_of_load hload
  obtain ⟨t, expected, hexpected, hopens, hchecked⟩ := of_openedRows hrows
  obtain ⟨hlt, hclosed, hlast, hcommits, -⟩ := of_rowsToOpen hexpected
  have hrow {pc : Nat} (hpc : pc ∈ expected) : ∃ i, p.code[pc]? = some i ∧
      Table.get? (pc : Int) rows = some (p.code.rowOf rows.value pc i) ∧
        p.code.Produces rows.value pc i :=
    (hchecked pc hpc).rowOf (hlt pc hpc) (fun w hw => hchecked w (hclosed pc hpc hw)) hsources
  obtain ⟨last, hlastrow, hends, bytes, hbytes, hjournal⟩ := hboundary
  have hcommitted : rows.committed p.code.commits =
      .ok (encodeNats (p.code.commits.map rows.value)) :=
    Rows.committed_eq_ok fun pc hpc => by
      obtain ⟨row, hget, hvalue, -⟩ := (hchecked pc (hcommits hpc)).value
      exact ⟨row, hget, hvalue⟩
  refine ⟨s, p, rows.value, hs, hload, himage, ?_, ?_, ?_, ?_, ?_, ?_, ?_, ?_⟩
  · exact fun hpc => hlt _ (hopens.2 hpc)
  · exact fun hpc w hw => hopens.1 (hclosed _ (hopens.2 hpc) hw)
  · exact fun pc hpc => hopens.1 (hcommits hpc)
  · exact hopens.1 hlast
  · intro pc hpc
    obtain ⟨i, hi, -, hproduces⟩ := hrow (hopens.2 hpc)
    exact ⟨i, hi, hproduces⟩
  · intro pc hpc
    obtain ⟨row, -, -, hwritable⟩ := (hchecked pc (hopens.2 hpc)).value
    exact hwritable
  · rw [hcommitted, Except.ok.injEq] at hbytes
    exact (hbytes.trans hjournal.1).symm
  · obtain ⟨i, hi, hget, -⟩ := hrow hlast
    have hplace : ((p.code.size - 1 : Nat) : Int) = (p.code.size : Int) - 1 :=
      Int.natCast_pred_of_pos hp.size_pos
    rw [hplace] at hget
    rw [Rows.row, hget, Except.ok.injEq] at hlastrow
    subst hlastrow
    rw [Bool.not_eq_true', Bool.not_eq_false] at hends
    exact Engine.endsWell_of_rowOf hp hi hends

end Receipt

end CircuitReceipts
