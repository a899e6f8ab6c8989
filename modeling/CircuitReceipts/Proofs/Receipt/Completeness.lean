import CircuitReceipts.Proofs.Receipt.Evidence

/-!
# Proofs of successful runs

A successful run has rows of consistent values. From these rows a proof is made, and its receipt is
accepted: prover and verifier read off the same code, draw the same sample from the same transcript
and open the same rows, each with a path of the length that the verifier expects.
-/

namespace CircuitReceipts

theorem Opcode.number_inj {op op' : Opcode} : op.number = op'.number ↔ op = op' := by
  constructor
  · intro h
    rw [← Option.some_inj, ← ofNumber?_number op, ← ofNumber?_number op', h]
  · exact congrArg number

namespace Code

variable {code : Code} {values : Nat → Nat} {pc : Nat} {i : Instruction}

theorem writable_before (hwritable : ∀ k < pc, Writable (values k)) (register : Int) :
    Writable (code.before values register pc) := by
  rw [before]
  cases hw : code.lastWriter register pc with
  | none => exact writable_of_lt (show 0 < _ by decide)
  | some w => exact hwritable w (lastWriter_eq_some hw).1

theorem header_rowOf (pc : Nat) (i : Instruction) :
    (code.rowOf values pc i).header = [(pc : Int), pc, i.op.number, i.a, i.b, i.c] := by
  rw [rowOf]
  split <;> rfl

theorem plain_rowOf (hpc : pc < 0x100000000) (hwords : i.InWords)
    (hwritable : ∀ k ≤ pc, Writable (values k)) : (code.rowOf values pc i).Plain := by
  obtain ⟨a, b, c, ⟨ha, hb, hc⟩, hia, hib, hic⟩ := hwords
  constructor
  · have hop : i.op.number < 0x100000000 := by cases i.op <;> decide
    rw [header_rowOf, hia, hib, hic]
    simp only [List.forall_mem_cons, List.not_mem_nil, false_implies, implies_true, and_true]
    omega
  · have hzero : Writable 0 := writable_of_lt (by decide)
    have hbefore (r : Int) : Writable (code.before values r pc) :=
      writable_before (fun k hk => hwritable k (Nat.le_of_lt hk)) r
    have hvalue : Writable (values pc) := hwritable pc (Nat.le_refl _)
    rw [rowOf, Instruction.row, Instruction.row]
    split
    · simp only [Row.values, List.forall_mem_cons]
      exact ⟨⟨_, rfl, hbefore i.b⟩, ⟨_, rfl, hbefore i.c⟩, ⟨_, rfl, hvalue⟩, by simp⟩
    · simp only [Row.values, List.forall_mem_cons]
      exact ⟨⟨0, rfl, hzero⟩, ⟨0, rfl, hzero⟩, ⟨_, rfl, hvalue⟩, by simp⟩

theorem plain_rows {p : Program} {values : Nat → Nat} (hp : p.Loaded)
    (hwritable : ∀ pc < p.size, Writable (values pc)) : ∀ row ∈ p.code.rows values, row.Plain := by
  intro row hrow
  obtain ⟨pc, hget⟩ := List.getElem?_of_mem hrow
  rw [getElem?_rows, Option.map_eq_some_iff] at hget
  obtain ⟨i, hi, rfl⟩ := hget
  have hpc : pc < p.size := (Array.getElem?_eq_some_iff.1 hi).1
  exact plain_rowOf (Nat.lt_trans hpc hp.size_lt) (hp.fits hi).inWords fun k hk =>
    hwritable k (Nat.lt_of_le_of_lt hk hpc)

theorem endsWell_rowOf (hop : i.op = .halt) (ha : i.a = 0) :
    (code.rowOf values pc i).endsWell = true := by
  have hheader : (code.rowOf values pc i).header = _ := header_rowOf pc i
  simp only [Row.header, List.cons.injEq] at hheader
  obtain ⟨-, -, hop', ha', -⟩ := hheader
  exact Row.endsWell_iff.2 ⟨by rw [hop', hop], ha'.trans ha⟩

def rowAt (code : Code) (values : Nat → Nat) (pc : Nat) : Row :=
  code.rowOf values pc (code[pc]?.getD default)

theorem rowAt_eq (hi : code[pc]? = some i) : code.rowAt values pc = code.rowOf values pc i := by
  rw [rowAt, hi]
  rfl

@[simp] theorem value_rowAt (code : Code) (values : Nat → Nat) (pc : Nat) :
    (code.rowAt values pc).value = values pc :=
  value_rowOf pc _

theorem rows_eq_map_rowAt (code : Code) (values : Nat → Nat) :
    code.rows values = (List.range code.size).map (code.rowAt values) := by
  refine List.ext_getElem? fun pc => ?_
  rw [getElem?_rows, List.getElem?_map]
  rcases Nat.lt_or_ge pc code.size with hpc | hpc
  · obtain ⟨i, hi⟩ := exists_instruction hpc
    rw [List.getElem?_range hpc, Option.map_some, rowAt_eq hi, hi]
    rfl
  · rw [Array.getElem?_eq_none hpc, List.getElem?_eq_none (by simpa using hpc)]
    rfl

theorem filter_rowAt (code : Code) (values : Nat → Nat) (op : Opcode) :
    ((List.range code.size).filter fun pc =>
        decide ((code.rowAt values pc).opcode = (op.number : Int))) =
      code.positions op code.size := by
  refine List.filter_congr fun pc hpc => ?_
  obtain ⟨i, hi⟩ := exists_instruction (List.mem_range.1 hpc)
  have hheader : (code.rowOf values pc i).header = _ := header_rowOf pc i
  simp only [Row.header, List.cons.injEq] at hheader
  obtain ⟨-, -, hop, -⟩ := hheader
  rw [rowAt_eq hi, hi]
  simp only [hop, Int.natCast_inj, Opcode.number_inj, Option.map_some, Option.some.injEq]

end Code

namespace Session

variable {code : Code} {values : Nat → Nat}

theorem instructionsFrom_rowOf (start : Nat) (is : List Instruction) :
    instructionsFrom start (is.mapIdx fun j i => code.rowOf values (start + j) i) = .ok is := by
  induction is generalizing start with
  | nil => rfl
  | cons i is ih =>
    have hheader : (code.rowOf values start i).header = _ := Code.header_rowOf start i
    simp only [Row.header, List.cons.injEq] at hheader
    obtain ⟨hcycle, hpc, hop, ha, hb, hc, -⟩ := hheader
    have hrest : (is.mapIdx fun j i => code.rowOf values (start + (j + 1)) i) =
        is.mapIdx fun j i => code.rowOf values (start + 1 + j) i := by
      congr 1
      funext j i
      rw [Nat.add_assoc, Nat.add_comm 1]
    rw [List.mapIdx_cons, instructionsFrom, hrest, ih]
    simp [hcycle, hpc, hop, ha, hb, hc]

/-- Rows whose values are natural numbers append the encoding of those of the committing rows. -/
theorem committed_of_nonneg {rows : List Row} (h : ∀ row ∈ rows, 0 ≤ row.value) :
    committed rows =
      .ok (encodeNats ((rows.filter Row.appends).map fun row => row.value.toNat)) := by
  have hvalues : (rows.filter Row.appends).mapM (fun row => naturalOfInt row.value) =
      .ok ((rows.filter Row.appends).map fun row => row.value.toNat) :=
    mapM_eq_ok_map fun row hrow =>
      if_neg (Int.not_lt.2 (h row (List.mem_filter.1 hrow).1))
  rw [committed, hvalues]
  rfl

theorem committed_rows (code : Code) (values : Nat → Nat) :
    committed (code.rows values) = .ok (encodeNats (code.commits.map values)) := by
  have hcommits : (List.range code.size).filter (Row.appends ∘ code.rowAt values) =
      code.commits := Code.filter_rowAt code values .commit
  have hvalues : (code.commits.map (code.rowAt values)).mapM (fun r => naturalOfInt r.value) =
      .ok (code.commits.map values) := by
    rw [List.mapM_map]
    refine mapM_eq_ok_map fun pc _ => ?_
    rw [Function.comp_apply, Code.value_rowAt, naturalOfInt_natCast]
  rw [committed, Code.rows_eq_map_rowAt, List.filter_map, hcommits, hvalues]
  rfl

/-- The trace of a successful run could have been left by one, and shows the code that has run. -/
theorem checkedCode_rows {p : Program} (hend : Engine.EndsWell p) :
    checkedCode (p.code.rows values) (encodeNats (p.code.commits.map values)) = .ok p.code := by
  obtain ⟨i, hi, hop, ha⟩ := hend
  have hlast : (p.code.rows values).getLast? = some (p.code.rowOf values (p.size - 1) i) := by
    rw [List.getLast?_eq_getElem?, Code.getElem?_rows, Code.length_rows]
    exact congrArg (Option.map _) hi
  have hwell : (p.code.rowOf values (p.size - 1) i).endsWell = true :=
    Code.endsWell_rowOf hop ha
  have hcode : instructionsFrom 0 (p.code.rows values) = .ok p.code.toList := by
    have h : instructionsFrom 0 (p.code.toList.mapIdx fun j i => p.code.rowOf values (0 + j) i) =
        .ok p.code.toList := instructionsFrom_rowOf 0 p.code.toList
    simp only [Nat.zero_add] at h
    exact h
  rw [checkedCode, hlast]
  simp [hcode, hwell, committed_rows]

end Session

namespace Rows

theorem checkSources_eq_ok {rows rest : Rows} {code : Code}
    (h : ∀ e ∈ rest, code.checkSources (Table.get? · rows) e.1 e.2 = .ok true) :
    checkSources rows code rest = .ok () := by
  induction rest with
  | nil => rfl
  | cons e rest ih =>
    obtain ⟨index, r⟩ := e
    have hrest := ih fun e he => h e (List.mem_cons_of_mem _ he)
    rw [checkSources, h (index, r) (List.mem_cons_self ..), mapError_ok, ok_bind, hrest]
    rfl

end Rows

namespace Receipt

variable {r : Receipt} {a : Artifact} {s : Seal} {p : Program} {values : Nat → Nat}
  {expected : List Nat} {minQueries : Int}

/-- A row of consistent values executes its instruction and consumed what the rows of its sources
define. -/
theorem executes_and_sourced_rowAt (rows : Int → Option Row) {code : Code} {pc : Nat}
    {i : Instruction} (hi : code[pc]? = some i) (hproduces : code.Produces values pc i)
    (hrows : ∀ w ∈ code.sources pc, rows (w : Int) = some (code.rowAt values w)) :
    (code.rowAt values pc).executes i = true ∧
      code.sourced rows pc (code.rowAt values pc) i = true := by
  rw [Code.rowAt_eq hi]
  have hheader : (code.rowOf values pc i).header = _ := Code.header_rowOf pc i
  simp only [Row.header, List.cons.injEq] at hheader
  obtain ⟨hcycle, hpc, -⟩ := hheader
  obtain ⟨lhs, rhs, hlhs, hrhs⟩ : ∃ lhs rhs : Nat, (code.rowOf values pc i).lhs = lhs ∧
      (code.rowOf values pc i).rhs = rhs := by
    rw [Code.rowOf]
    split
    · exact ⟨_, _, rfl, rfl⟩
    · exact ⟨0, 0, rfl, rfl⟩
  refine (Code.executes_and_sourced_iff hi hcycle hpc hlhs hrhs (Code.value_rowOf pc i)
    fun w hw => ?_).2 ⟨rfl, hproduces⟩
  exact ⟨_, hrows w hw, Code.value_rowOf w _⟩

/-- The rows of values at some positions, under their indices. -/
def rowsAt (code : Code) (values : Nat → Nat) (indices : List Nat) : Rows :=
  indices.map fun (pc : Nat) => ((pc : Int), code.rowAt values pc)

theorem get?_rowsAt {code : Code} {pc : Nat} (hincreasing : expected.Pairwise (· < ·))
    (hpc : pc ∈ expected) :
    Table.get? (pc : Int) (rowsAt code values expected) = some (code.rowAt values pc) := by
  have hnodup : (Table.keys (rowsAt code values expected)).Nodup := by
    have hkeys : Table.keys (rowsAt code values expected) = expected.map Int.ofNat := by
      simp [rowsAt, Table.keys]
    rw [hkeys]
    exact List.Nodup.map (fun _ _ => Int.ofNat.inj) (hincreasing.imp fun h => Nat.ne_of_lt h)
  exact Table.get?_of_mem hnodup (List.mem_map.2 ⟨pc, hpc, rfl⟩)

/-- A seal that opens just the rows that it has to open gives the rows of values if every opening
has passed its check with such a row. -/
theorem openedRows_eq_ok {code : Code} {t : Transcript}
    (htranscript : (s.statement r).transcript s.hash = .ok t)
    (hexpected : code.openedRows t s.queries = .ok expected)
    (hindices : s.openings.map Opening.index = expected.map Int.ofNat)
    (hchecked : ∀ o ∈ s.openings, ∀ pc : Nat, o.index = pc →
      s.checkOpening code o = .ok (code.rowAt values pc)) :
    r.openedRows s code = .ok (rowsAt code values expected) := by
  have hsorted : s.sortedOpenings = s.openings := by
    refine List.mergeSort_of_pairwise ?_
    have hpairs : (s.openings.map Opening.index).Pairwise (· ≤ ·) := by
      rw [hindices, List.pairwise_map]
      exact (of_rowsToOpen hexpected).2.2.2.2.imp fun h => Int.ofNat_le.2 (Nat.le_of_lt h)
    rw [List.pairwise_map] at hpairs
    exact hpairs.imp fun h => by simpa using h
  have hopens : s.opens expected = true := by simp [Seal.opens, hsorted, hindices]
  have hrows : rowsAt code values expected =
      s.openings.map fun o => (o.index, code.rowAt values o.index.toNat) := by
    have hmap : rowsAt code values expected =
        (expected.map Int.ofNat).map fun n => (n, code.rowAt values n.toNat) := by
      simp [rowsAt]
    rw [hmap, ← hindices, List.map_map]
    rfl
  have hmapM : (s.openings.mapM fun o => do return (o.index, ← s.checkOpening code o)) =
      .ok (rowsAt code values expected) := by
    rw [hrows]
    refine mapM_eq_ok_map fun o ho => ?_
    have hmem : o.index ∈ expected.map Int.ofNat := hindices ▸ List.mem_map_of_mem ho
    obtain ⟨pc, -, hpc⟩ := List.mem_map.1 hmem
    have hindex : o.index = pc := hpc.symm
    rw [hchecked o ho pc hindex, hindex]
    rfl
  simp only [openedRows, htranscript, hexpected, mapError_ok, ok_bind, hopens, hsorted, hmapM]
  rfl

/-- Rows of values that hold the last row and all that append to the journal reproduce what the
values commit. -/
theorem checkBoundary_rowsAt (hend : Engine.EndsWell p) (hpos : 0 < p.code.size)
    (hincreasing : expected.Pairwise (· < ·)) (hlast : p.code.size - 1 ∈ expected)
    (hcommits : p.code.commits ⊆ expected) :
    (rowsAt p.code values expected).checkBoundary p.code
      (encodeNats (p.code.commits.map values)) = .ok () := by
  obtain ⟨i, hi, hop, ha⟩ := hend
  have hplace : (p.code.size : Int) - 1 = ((p.code.size - 1 : Nat) : Int) :=
    (Int.natCast_pred_of_pos hpos).symm
  have hrow : (rowsAt p.code values expected).row ((p.code.size : Int) - 1) =
      .ok (p.code.rowAt values (p.code.size - 1)) := by
    rw [hplace]
    exact Rows.row_eq_ok.2 (get?_rowsAt hincreasing hlast)
  have hwell : (p.code.rowAt values (p.code.size - 1)).endsWell = true := by
    have hi' : p.code[p.code.size - 1]? = some i := hi
    rw [Code.rowAt_eq hi']
    exact Code.endsWell_rowOf hop ha
  have hcommitted : (rowsAt p.code values expected).committed p.code.commits =
      .ok (encodeNats (p.code.commits.map values)) :=
    Rows.committed_eq_ok fun pc hpc =>
      ⟨_, get?_rowsAt hincreasing (hcommits hpc), Code.value_rowAt _ _ _⟩
  simp only [Rows.checkBoundary, hrow, hcommitted, mapError_ok, ok_bind, hwell]
  simp

/-- A receipt is accepted if its seal opens just the rows that it has to open, and every opened row
is that of values which are consistent throughout the program. -/
theorem verify_eq_ok {t : Transcript} (hload : Program.load a.blob = .ok p)
    (hend : Engine.EndsWell p) (hvalues : ∀ pc < p.size, p.code.Consistent values pc)
    (himage : r.imageId = a.imageId) (hseal : Seal.ofBytes r.evidence = .ok s)
    (hstatement : s.checkStatement p r minQueries = .ok ())
    (htranscript : (s.statement r).transcript s.hash = .ok t)
    (hexpected : p.code.openedRows t s.queries = .ok expected)
    (hindices : s.openings.map Opening.index = expected.map Int.ofNat)
    (hchecked : ∀ o ∈ s.openings, ∀ pc : Nat, o.index = pc →
      s.checkOpening p.code o = .ok (p.code.rowAt values pc))
    (hjournal : r.journal = encodeNats (p.code.commits.map values)) :
    r.verify a minQueries = .ok () := by
  obtain ⟨hlt, hclosed, hlast, hcommits, hincreasing⟩ := of_rowsToOpen hexpected
  have hrows := openedRows_eq_ok htranscript hexpected hindices hchecked
  have hsources : (rowsAt p.code values expected).checkSources p.code
      (rowsAt p.code values expected) = .ok () := by
    refine Rows.checkSources_eq_ok fun e he => ?_
    obtain ⟨pc, hpc, rfl⟩ := List.mem_map.1 he
    obtain ⟨i, hi, hproduces⟩ := hvalues pc (hlt pc hpc)
    rw [Code.checkSources, Code.instructionAt_natCast, hi]
    exact congrArg Except.ok (executes_and_sourced_rowAt _ hi hproduces
      fun w hw => get?_rowsAt hincreasing (hclosed pc hpc hw)).2
  have hboundary : (rowsAt p.code values expected).checkBoundary p.code r.journal = .ok () := by
    rw [hjournal]
    exact checkBoundary_rowsAt hend (Nat.zero_lt_of_lt (hlt _ hlast)) hincreasing hlast hcommits
  rw [verify, if_neg (not_not.2 himage), hseal]
  simp only [ok_bind, hload, mapError_ok, hstatement, hrows, hsources, hboundary]

theorem verify_of_lt (hload : Program.load a.blob = .ok p) (himage : r.imageId = a.imageId)
    (hseal : Seal.ofBytes r.evidence = .ok s) (hlt : s.queries < minQueries) :
    r.verify a minQueries = .error (.rejected (.tooFewQueries s.queries minQueries)) := by
  have hstatement : s.checkStatement p r minQueries =
      .error (.tooFewQueries s.queries minQueries) := by
    rw [Seal.checkStatement, if_pos hlt]
    rfl
  rw [verify, if_neg (not_not.2 himage), hseal]
  simp only [ok_bind, hload, mapError_ok, hstatement, mapError_error, error_bind]

end Receipt

namespace Seal

variable {s : Seal} {p : Program} {values : Nat → Nat}

theorem checkStatement_eq_ok {r : Receipt} {minQueries : Int} (hmin : minQueries ≤ s.queries)
    (hid : s.imageId = r.imageId) (hdigest : s.journalDigest = (s.hash.digest r.journal).hex)
    (hcycles : s.userCycles = p.size) (hpo2 : leastExponent s.userCycles ≤ s.po2) :
    s.checkStatement p r minQueries = .ok () := by
  rw [checkStatement, if_neg (Int.not_lt.2 hmin), if_neg (not_not.2 hid),
    if_neg (not_not.2 hdigest), if_neg (not_not.2 hcycles), if_neg (Int.not_lt.2 hpo2)]
  rfl

/-- An opening that shows a row of values passes its check. -/
theorem checkOpening_eq_ok (hvalues : ∀ pc < p.size, p.code.Consistent values pc)
    (hcycles : s.userCycles = p.size) {o : Opening} {pc : Nat} {row : Row}
    (ho : o.Shows s.hash s.arity s.traceRoot (p.code.rows values) pc row) (hplain : row.Plain) :
    s.checkOpening p.code o = .ok (p.code.rowAt values pc) := by
  obtain ⟨hindex, hget, hleaf, hlen, hverify⟩ := ho
  have hread := hplain.ofLeaf_eq hleaf
  rw [Code.getElem?_rows, Option.map_eq_some_iff] at hget
  obtain ⟨i, hi, rfl⟩ := hget
  obtain ⟨i', hi', hproduces⟩ := hvalues pc (Array.getElem?_eq_some_iff.1 hi).1
  obtain rfl : i = i' := Option.some.inj (hi.symm.trans hi')
  have hheader : (p.code.rowOf values pc i).header = _ := Code.header_rowOf pc i
  simp only [Row.header, List.cons.injEq] at hheader
  obtain ⟨hcycle, hplace, -⟩ := hheader
  have hexecutes := (Receipt.executes_and_sourced_rowAt
    (fun n => some (p.code.rowAt values n.toNat)) hi hproduces fun _ _ => rfl).1
  rw [Code.rowAt_eq hi] at hexecutes ⊢
  have hpath : o.path.length = Merkle.pathLength s.arity s.userCycles.toNat := by
    rw [hlen, Code.length_rows, hcycles, Int.toNat_natCast]
    rfl
  have hplaced : ¬((p.code.rowOf values pc i).cycle ≠ pc ∨
      (p.code.rowOf values pc i).pc ≠ pc) := by
    rw [hcycle, hplace]
    simp
  simp only [checkOpening, hpath, hindex, hverify, hread, Code.instructionAt_natCast, hi,
    hexecutes, mapError_ok, ok_bind, if_neg hplaced]
  simp

end Seal

namespace Session

variable {p : Program} {values : Nat → Nat} {o : ProverOptions} {a : Artifact}

/-- The session of a program that has run with given values to its successful end. -/
def ofValues (a : Artifact) (p : Program) (values : Nat → Nat) : Session :=
  success a.imageId (p.code.rows values) (encodeNats (p.code.commits.map values))

theorem prove_of_attest {host : Host} {s : Session} {proof : Proof} (h : s.attest o = .ok proof) :
    s.prove host o = .ok proof := by
  rw [prove, h]
  rfl

/-- The session of a successful run has a proof under usable options, and its receipt is accepted by
whoever asks for no more queries than it was made with, and rejected by everyone else. -/
theorem exists_proof_of_usable (hload : Program.load a.blob = .ok p) (hend : Engine.EndsWell p)
    (hvalues : ∀ pc < p.size, p.code.Consistent values pc)
    (hwritable : ∀ pc < p.size, Writable (values pc)) (husable : o.Usable p.size) {n : Int}
    (hn : o.queries.integer? = some n) :
    ∃ proof, attest o (ofValues a p values) = .ok proof ∧ ∀ minQueries : Int,
      (minQueries ≤ n → proof.receipt.verify a minQueries = .ok ()) ∧
      (n < minQueries →
        ∃ reason, proof.receipt.verify a minQueries = .error (.rejected reason)) := by
  have hp := Program.loaded_of_load hload
  obtain ⟨⟨n', hn', hrange⟩, ⟨arityNumber, arity, harity, hsize⟩, po2, cycles, hpo2, hcycles⟩ :=
    husable
  obtain rfl : n = n' := Option.some.inj (hn.symm.trans hn')
  obtain ⟨exponent, hexponent, hleast⟩ := exists_exponent hpo2 hcycles
  have hlength : (ofValues a p values).trace.length = p.size := Code.length_rows
  have hplain : ∀ row ∈ (ofValues a p values).trace, row.Plain := Code.plain_rows hp hwritable
  have hid : Bytes.ofHex? (ofValues a p values).imageId = some _ :=
    Bytes.ofHex?_hex (Sha256.hash a.blob)
  obtain ⟨evidence, shown, hprove, hseal, hshows, rfl⟩ := exists_evidence rfl hplain
    (hlength ▸ hp.size_lt.le) hid hn hrange harity hsize (checkedCode_rows hend) hlength.symm
    hp.size_pos (hlength ▸ hpo2) hexponent
  rw [hcycles] at hprove
  obtain rfl : n = shown.queries := Option.some.inj (hn.symm.trans hshows.queries)
  have huserCycles : shown.userCycles = p.size := hshows.userCycles.trans (congrArg _ hlength)
  have hdigest := hshows.journalDigest
  rw [← huserCycles] at hleast
  rw [← hshows.hash] at hdigest
  obtain ⟨t, expected, ht, hexpected, hindices⟩ := hshows.indices
  rw [← hshows.hash, ← hshows.userCycles] at ht
  have hchecked : ∀ opening ∈ shown.openings, ∀ pc : Nat, opening.index = pc →
      shown.checkOpening p.code opening = .ok (p.code.rowAt values pc) := by
    intro opening hopening pc hindex
    obtain ⟨pc', row, hopened⟩ := hshows.openings opening hopening
    obtain rfl : pc = pc' := Int.ofNat.inj (hindex.symm.trans hopened.index)
    rw [← hshows.hash] at hopened
    exact Seal.checkOpening_eq_ok hvalues huserCycles hopened
      (hplain row (List.mem_of_getElem? hopened.getElem?))
  refine ⟨_, hprove, fun minQueries => ⟨fun hmin => ?_, fun hmin => ?_⟩⟩
  · exact Receipt.verify_eq_ok hload hend hvalues rfl hseal
      (Seal.checkStatement_eq_ok hmin hshows.imageId hdigest huserCycles hleast) ht hexpected
        hindices hchecked rfl
  · exact ⟨_, Receipt.verify_of_lt hload rfl hseal hmin⟩

/-- Valid options are usable for every run. -/
theorem exists_proof (hload : Program.load a.blob = .ok p) (hend : Engine.EndsWell p)
    (hvalues : ∀ pc < p.size, p.code.Consistent values pc)
    (hwritable : ∀ pc < p.size, Writable (values pc)) (hvalid : o.Valid) {n : Int}
    (hn : o.queries.integer? = some n) :
    ∃ proof, attest o (ofValues a p values) = .ok proof ∧ ∀ minQueries : Int,
      (minQueries ≤ n → proof.receipt.verify a minQueries = .ok ()) ∧
      (n < minQueries →
        ∃ reason, proof.receipt.verify a minQueries = .error (.rejected reason)) :=
  exists_proof_of_usable hload hend hvalues hwritable
    (hvalid.usable (Program.loaded_of_load hload).size_lt) hn

end Session

end CircuitReceipts
