import CircuitReceipts.Proofs.Merkle
import CircuitReceipts.Proofs.Receipt.Padding
import CircuitReceipts.Proofs.Receipt.Required
import CircuitReceipts.Proofs.Receipt.SealDocument
import CircuitReceipts.Proofs.Receipt.Soundness
import CircuitReceipts.Proofs.Session.Leaf
import CircuitReceipts.Receipt.Proof

/-!
# The evidence of a proof

Once the check of a trace has passed, nothing that is done with its rows can fail: plain rows have
leaves, a statement with an image id in hexadecimal has a transcript, and every row that the
transcript asks for is opened. Only the padded length may be one that cannot be held. The evidence
is read back as a seal, and the seal shows the session.
-/

namespace CircuitReceipts

/-- A statement can be absorbed if its image id is hexadecimal and its length has room. -/
theorem Statement.exists_transcript (h : HashName) {imageId : Text} {id : Bytes}
    (hid : Bytes.ofHex? imageId = some id) (journalDigest traceRoot : Bytes) {cycles : Nat}
    (hcycles : cycles ≤ 0x100000000) :
    ∃ t, (⟨imageId, journalDigest, cycles, traceRoot⟩ : Statement).transcript h = .ok t := by
  have hput (t : Transcript) : t.putInt cycles = .ok (t.putNat cycles) := by
    rw [Transcript.putInt, if_pos (by omega), Int.toNat_natCast]
  rw [transcript, hid]
  simp only [hput]
  exact ⟨_, rfl⟩

theorem Code.exists_openedRows {code : Code} (hcode : 0 < code.size) (t : Transcript)
    (queries : Int) : ∃ rows, code.openedRows t queries = .ok rows :=
  ⟨_, openedRows_eq hcode t queries⟩

theorem ProverOptions.treeArity_eq_ok {o : ProverOptions} {n : Int} {a : Arity}
    (hn : o.arity.integer? = some n) (ha : Arity.ofInt? n = some a) (leaves : Nat) :
    o.treeArity leaves = .ok a := by
  rw [treeArity, hn, Option.bind_some, ha]

theorem ProverOptions.queryCount_eq_ok {o : ProverOptions} {n : Int}
    (hn : o.queries.integer? = some n) : o.queryCount = .ok n := by
  rw [queryCount, hn]

/-- Whether an opening shows a row of a trace: the leaf of the row, at its place, with a path that
passes verification against a root. -/
structure Opening.Shows (o : Opening) (h : HashName) (a : Arity) (root : Bytes) (rows : List Row)
    (pc : Nat) (row : Row) : Prop where
  index : o.index = pc
  getElem? : rows[pc]? = some row
  leaf : row.leaf = .ok o.leaf
  length_path : o.path.length = Merkle.pathLength a rows.length
  verified : Merkle.verify h a root o.path pc o.leaf = true

/-- What a seal shows of a session and of the options that it was proved with. The opened rows are
just those that the code of the trace has to have opened for the transcript of the statement. -/
structure Seal.Shows (shown : Seal) (s : Session) (o : ProverOptions) (code : Code) : Prop where
  hash : shown.hash = o.hash
  arity : o.arity.integer? = some (shown.arity.size : Int)
  queries : o.queries.integer? = some shown.queries
  imageId : shown.imageId = s.imageId
  journalDigest : shown.journalDigest = (o.hash.digest s.journal).hex
  userCycles : shown.userCycles = s.trace.length
  traceRoot : ∃ leaves, s.trace.mapM Row.leaf = .ok leaves ∧
    shown.traceRoot = (MerkleTree.ofLeaves o.hash shown.arity leaves).root
  indices : ∃ t rows, (⟨s.imageId, o.hash.digest s.journal, s.trace.length, shown.traceRoot⟩ :
      Statement).transcript o.hash = .ok t ∧ code.openedRows t shown.queries = .ok rows ∧
    shown.openings.map Opening.index = rows.map Int.ofNat
  increasing : (shown.openings.map Opening.index).Pairwise (· < ·)
  openings : ∀ opening ∈ shown.openings, ∃ (pc : Nat) (row : Row),
    opening.Shows o.hash shown.arity shown.traceRoot s.trace pc row

namespace Session

variable {s : Session} {o : ProverOptions} {code : Code} {leaves : List Bytes} {arity : Arity}
  {po2 : Json} {queries : Int}

/-- Positions of a trace have openings, one for each in their order, that show the rows there. -/
theorem exists_openings (h : HashName) (a : Arity) {rows : List Row}
    (hleaves : rows.mapM Row.leaf = .ok leaves) {positions : List Nat}
    (hlt : ∀ pc ∈ positions, pc < rows.length) :
    ∃ openings, positions.mapM (openLeaf (MerkleTree.ofLeaves h a leaves)) = .ok openings ∧
      openings.map Opening.index = positions.map Int.ofNat ∧
      ∀ o ∈ openings, ∃ (pc : Nat) (row : Row),
        o.Shows h a (MerkleTree.ofLeaves h a leaves).root rows pc row := by
  have hlength : rows.length = leaves.length := (mapM_eq_ok.1 hleaves).length_eq
  have hopen {pc : Nat} (hpc : pc ∈ positions) : ∃ o,
      openLeaf (MerkleTree.ofLeaves h a leaves) pc = .ok o ∧
        ∃ row, o.Shows h a (MerkleTree.ofLeaves h a leaves).root rows pc row := by
    obtain ⟨leaf, hget⟩ : ∃ leaf, leaves[pc]? = some leaf :=
      ⟨_, List.getElem?_eq_getElem (Nat.lt_of_lt_of_eq (hlt pc hpc) hlength)⟩
    obtain ⟨row, hrow, hleaf⟩ := getElem?_of_mapM hleaves hget
    obtain ⟨path, hopening, hlen, hverify⟩ := MerkleTree.exists_opening h a hget
    rw [← hlength] at hlen
    exact ⟨⟨pc, leaf, path⟩, by rw [openLeaf, hopening], row, rfl, hrow, hleaf, hlen, hverify⟩
  obtain ⟨openings, hopenings⟩ : ∃ openings, positions.mapM
      (openLeaf (MerkleTree.ofLeaves h a leaves)) = .ok openings :=
    exists_mapM_eq_ok fun pc hpc => by
      obtain ⟨o, ho, -⟩ := hopen hpc
      exact ⟨o, ho⟩
  refine ⟨openings, hopenings, ?_, fun o ho => ?_⟩
  · refine (map_eq_map_of_mapM hopenings fun {pc o} h => ?_).symm
    rw [openLeaf] at h
    split at h <;> cases h
    rfl
  · obtain ⟨pc, hpc, hopened⟩ := exists_of_mem_mapM hopenings ho
    obtain ⟨o', hopened', row, hshows⟩ := hopen hpc
    obtain rfl : o' = o := Except.ok.inj (hopened'.symm.trans hopened)
    exact ⟨pc, row, hshows⟩

/-- What is left to prove a session once its trace is in order and its rows are opened: the padded
length has to be held. -/
theorem attest_eq {t : Transcript} {rows : List Nat} {openings : List Opening}
    (hending : s.ending = .success) (hcode : checkedCode s.trace s.journal = .ok code)
    (hleaves : s.trace.mapM Row.leaf = .ok leaves) (harity : o.treeArity leaves.length = .ok arity)
    (ht : (⟨s.imageId, o.hash.digest s.journal, s.userCycles,
      (MerkleTree.ofLeaves o.hash arity leaves).root⟩ : Statement).transcript o.hash = .ok t)
    (hqueries : o.queryCount = .ok queries) (hrows : code.openedRows t queries = .ok rows)
    (hopenings : rows.mapM (openLeaf (MerkleTree.ofLeaves o.hash arity leaves)) = .ok openings)
    (hpo2 : paddedExponent s.userCycles o.minPo2 = .ok po2) :
    s.attest o = ((paddedLength po2).mapError ProveError.misuse).map fun cycles =>
      ⟨⟨s.imageId, s.journal, Encoding.encodeUtf8 (Seal.document o po2 s.imageId
        (o.hash.digest s.journal) s.userCycles (MerkleTree.ofLeaves o.hash arity leaves).root
          openings).compact⟩, ⟨s.userCycles, po2, cycles⟩⟩ := by
  rw [attest, if_neg (not_not.2 hending), hcode]
  simp only [hleaves, harity, ht, hqueries, hrows, hopenings, hpo2, ok_bind, mapError_ok]
  cases paddedLength po2 <;> rfl

/-- Once the trace is in order, only the padded length can fail, and the evidence of the proof is a
seal that shows the session. -/
theorem exists_evidence {id : Bytes} {children exponent : Int} (hending : s.ending = .success)
    (hplain : ∀ row ∈ s.trace, row.Plain) (hlength : s.trace.length ≤ 0x100000000)
    (hid : Bytes.ofHex? s.imageId = some id) (hqueries : o.queries.integer? = some queries)
    (hrange : 1 ≤ queries ∧ queries ≤ maxQueries) (harity : o.arity.integer? = some children)
    (hsize : Arity.ofInt? children = some arity)
    (hcode : checkedCode s.trace s.journal = .ok code) (hran : code.size = s.trace.length)
    (hpos : 0 < code.size) (hpo2 : paddedExponent s.trace.length o.minPo2 = .ok po2)
    (hexponent : po2.integer? = some exponent) :
    ∃ (evidence : Bytes) (shown : Seal),
      s.attest o = ((paddedLength po2).mapError ProveError.misuse).map (fun cycles =>
        ⟨⟨s.imageId, s.journal, evidence⟩, ⟨s.trace.length, po2, cycles⟩⟩) ∧
      Seal.ofBytes evidence = .ok shown ∧ shown.Shows s o code ∧ shown.po2 = exponent := by
  obtain ⟨leaves, hleaves⟩ := Row.exists_leaves hplain
  -- the public statement, and the rows that its transcript asks for
  obtain ⟨t, ht⟩ := Statement.exists_transcript o.hash hid (o.hash.digest s.journal)
    (MerkleTree.ofLeaves o.hash arity leaves).root hlength
  obtain ⟨rows, hrows⟩ := Code.exists_openedRows hpos t queries
  obtain ⟨hlt, -, -, -, hincreasing⟩ := Receipt.of_rowsToOpen hrows
  rw [hran] at hlt
  obtain ⟨openings, hopenings, hindices, hshows⟩ := exists_openings o.hash arity hleaves hlt
  have hcycles : 0 < s.userCycles := Nat.lt_of_lt_of_eq hpos hran
  refine ⟨_, _, attest_eq hending hcode hleaves (ProverOptions.treeArity_eq_ok harity hsize _) ht
      (ProverOptions.queryCount_eq_ok hqueries) hrows hopenings hpo2,
    Seal.ofBytes_document hqueries hrange harity hsize hexponent (Text.unpaired_of_ofHex? hid)
      hcycles, ?_, rfl⟩
  constructor
  case hash => rfl
  case arity => rw [harity, Arity.eq_size_of_ofInt? hsize]
  case queries => exact hqueries
  case imageId => rfl
  case journalDigest => rfl
  case userCycles => rfl
  case traceRoot => exact ⟨leaves, hleaves, rfl⟩
  case indices => exact ⟨t, rows, ht, hrows, hindices⟩
  case increasing =>
    rw [hindices, List.pairwise_map]
    exact hincreasing.imp Int.ofNat_lt.2
  case openings => exact hshows

end Session

end CircuitReceipts
