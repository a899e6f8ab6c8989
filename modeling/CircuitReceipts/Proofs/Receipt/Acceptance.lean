import CircuitReceipts.Proofs.Circuit.Reference
import CircuitReceipts.Proofs.Receipt.Completeness

/-!
# Accepted receipts

What it takes for a receipt to be accepted, and what its acceptance is worth. Whoever has made it,
an accepted receipt belongs to numbers on which the circuit evaluates to the journal; if its seal
opens every row, as it has to for the built-in circuits, a run of the circuit on these numbers
succeeds with the journal. Conversely every successful run has a proof whose receipt is accepted.
-/

namespace CircuitReceipts

namespace Engine

/-- Whether an artifact, on every host and under limits that are large enough, runs on an input
successfully and with the given journal. -/
def SucceedsOn (a : Artifact) (input journal : Bytes) : Prop :=
  ∃ enough : Int, ∀ (host : Host) (l : Limits), enough ≤ l.session → enough ≤ l.registerBits →
    ∃ rows, execute host l a input = .ok (.success a.imageId rows journal)

variable {a : Artifact} {p : Program} {values : Nat → Nat}

/-- An artifact succeeds on the encoding of the numbers that consistent values read, with what these
values commit. -/
theorem succeedsOn_of_consistent (hload : Program.load a.blob = .ok p) (hend : EndsWell p)
    (hvalues : ∀ pc < p.size, p.code.Consistent values pc)
    (hwritable : ∀ pc ∈ p.code.positions .read p.size, Writable (values pc)) :
    SucceedsOn a (encodeNats ((p.code.positions .read p.size).map values))
      (encodeNats (p.code.commits.map values)) := by
  obtain ⟨enough, hallow⟩ := Limits.exists_allow values p.size
  refine ⟨enough, fun host l hsession hbits => ?_⟩
  rcases run_of_consistent l a.imageId (Program.loaded_of_load hload) hend
    (WordReader.ofBytes_encodeNats _) (supplies_words (List.forall_mem_map.2 hwritable))
    hvalues with hrun | ⟨hlimit, -⟩
  · refine ⟨p.code.rows values, ?_⟩
    rw [execute_of_success hload (by rw [hrun]; rfl), hrun]
  · exact absurd (hallow l hsession hbits) hlimit

end Engine

namespace Operation

variable {op : Operation} {ns : List Nat} {o : ProverOptions}

theorem load_blob (op : Operation) : Program.load op.blob = .ok op.program := by
  cases op <;> decide +kernel

theorem endsWell_program (op : Operation) : Engine.EndsWell op.program := by
  cases op <;> exact ⟨_, rfl, rfl, rfl⟩

/-- The commitments of a built-in circuit depend on every position but the last. -/
theorem mem_closure_program (op : Operation) : ∀ pc < op.program.size,
    pc ∈ op.program.code.closure ((op.program.size - 1) :: op.program.code.commits) := by
  cases op <;> decide +kernel

/-- A built-in circuit that has run on short operands on which its operation is defined has a proof,
and its receipt is accepted. -/
theorem exists_proof (op : Operation) (hlen : ns.length = op.inputShape.size) (h : op.Admissible ns)
    (hshort : ∀ n ∈ ns, Short n) (hvalid : o.Valid) {n : Int} (hn : o.queries.integer? = some n) :
    ∃ values proof, op.operandsIn values = ns ∧
      (∀ pc < op.program.size, op.program.code.Consistent values pc) ∧
      (Session.ofValues op.artifact op.program values).attest o = .ok proof ∧
      ∀ minQueries ≤ n, proof.receipt.verify op.artifact minQueries = .ok () := by
  obtain ⟨values, hoperands, hvalues⟩ := exists_consistent hlen h
  obtain ⟨proof, hproof, hverify⟩ := Session.exists_proof (a := op.artifact) op.load_blob
    op.endsWell_program hvalues (writable_of_consistent hvalues (hoperands ▸ hshort)) hvalid hn
  exact ⟨values, proof, hoperands, hvalues, hproof, fun m hm => (hverify m).1 hm⟩

end Operation

namespace Receipt

variable {r : Receipt} {a : Artifact} {minQueries : Int}

/-- An accepted receipt is for a program that ends with a successful halt. There are numbers for its
reading positions on which every position that the commitments depend on evaluates, and the journal
is the encoding of what the committing positions evaluate to. If the seal opens every row, a run on
these numbers succeeds with this journal. -/
theorem evaluates_of_verify (h : r.verify a minQueries = .ok ()) :
    ∃ p, Program.load a.blob = .ok p ∧ Engine.EndsWell p ∧ ∃ inputs : Nat → Nat,
      (∀ pc ∈ p.code.closure p.code.commits, (p.code.evaluate inputs pc).isSome) ∧
      (∃ committed, p.code.commits.mapM (p.code.evaluate inputs) = some committed ∧
        r.journal = encodeNats committed) ∧
      ∀ s, Seal.ofBytes r.evidence = .ok s → (∀ pc < p.size, s.Opens pc) →
        Engine.SucceedsOn a (encodeNats ((p.code.positions .read p.size).map inputs))
          r.journal := by
  obtain ⟨s, p, values, hs, hload, -, hestablishes⟩ := of_verify h
  -- the opened positions hold their sources, so evaluation gives the values of the opened rows
  have hevaluate {pc : Nat} (hpc : s.Opens pc) : p.code.evaluate values pc = some (values pc) :=
    Code.evaluate_eq_some hestablishes.sources hestablishes.consistent hpc
  refine ⟨p, hload, hestablishes.endsWell, values, fun pc hpc => ?_, ⟨p.code.commits.map values, ?_,
    hestablishes.journal_eq⟩, fun s' hs' hall => ?_⟩
  · rw [hevaluate (Code.closure_subset hestablishes.sources hestablishes.commits pc hpc)]
    rfl
  · exact mapM_eq_some_map fun pc hpc => hevaluate (hestablishes.commits pc hpc)
  · obtain rfl : s' = s := Except.ok.inj (hs'.symm.trans hs)
    rw [hestablishes.journal_eq]
    exact Engine.succeedsOn_of_consistent hload hestablishes.endsWell
      (fun pc hpc => hestablishes.consistent (hall pc hpc)) fun pc hpc =>
        hestablishes.writable (hall pc (Code.mem_positions.1 hpc).1)

/-- The receipt of the difference of one and two modulo five. -/
theorem evaluates_of_verify_modsub : ∃ r : Receipt, r.verify Operation.modsub.artifact 16 = .ok () ∧
    ∃ p, Program.load Operation.modsub.blob = .ok p ∧ ∃ inputs : Nat → Nat,
      (∀ pc ∈ p.code.closure p.code.commits, (p.code.evaluate inputs pc).isSome) ∧
      ∃ committed, p.code.commits.mapM (p.code.evaluate inputs) = some committed ∧
        r.journal = encodeNats committed := by
  have hlt : ∀ n ∈ [1, 2, 5], n < 0x100000000 := by decide
  obtain ⟨values, proof, -, -, -, hverify⟩ := Operation.exists_proof .modsub
    (show [1, 2, 5].length = 3 from rfl) ⟨by decide, by decide⟩ (fun n hn => short_of_lt (hlt n hn))
    ProverOptions.valid_standard rfl
  obtain ⟨p, hload, -, inputs, hevaluates, hcommitted, -⟩ :=
    evaluates_of_verify (hverify 16 (Int.le_refl _))
  exact ⟨proof.receipt, hverify 16 (Int.le_refl _), p, hload, inputs, hevaluates, hcommitted⟩

end Receipt

namespace Operation

variable {op : Operation} {r : Receipt} {minQueries : Int}

/-- An accepted receipt for a built-in circuit belongs to operands on which the operation is
defined: the journal encodes the reference on these operands, and a run on them succeeds with this
journal. -/
theorem result_of_verify (h : r.verify op.artifact minQueries = .ok ()) :
    ∃ (operands : Value) (ns : List Nat), operands.shape = op.inputShape ∧
      operands.flatten = .ok ns ∧ op.Admissible ns ∧
      (∃ result, op.expected operands = .ok result ∧ result.encode = .ok r.journal) ∧
      ∃ input, operands.encode = .ok input ∧ Engine.SucceedsOn op.artifact input r.journal := by
  obtain ⟨s, p, values, -, hload, -, hestablishes⟩ := Receipt.of_verify h
  obtain rfl : op.program = p := Except.ok.inj ((load_blob op).symm.trans hload)
  have hroots := List.forall_mem_cons.2 ⟨hestablishes.last, hestablishes.commits⟩
  have hopens : ∀ pc < op.program.size, s.Opens pc := fun pc hpc =>
    Code.closure_subset hestablishes.sources hroots pc (mem_closure_program op pc hpc)
  have hvalues : ∀ pc < op.program.size, op.program.code.Consistent values pc :=
    fun pc hpc => hestablishes.consistent (hopens pc hpc)
  obtain ⟨hadmissible, houtcome⟩ := of_consistent hvalues
  have hlen : (op.operandsIn values).length = op.inputShape.size := by
    rw [operandsIn_eq, List.length_map, List.length_range]
  have hshape := Shape.shape_fill op.inputShape _ op.proper_inputShape hlen
  have hflatten := Shape.flatten_fill op.inputShape _ op.proper_inputShape hlen
  refine ⟨op.inputShape.fill (op.operandsIn values), op.operandsIn values, hshape, hflatten,
    hadmissible, ⟨_, expected_eq_ok hshape hflatten hadmissible, ?_⟩,
    encodeNats (op.operandsIn values), ?_, ?_⟩
  · rw [Value.encode, Shape.flatten_fill _ _ op.proper_outputShape (length_outcome hlen),
      ← houtcome, hestablishes.journal_eq]
    rfl
  · rw [Value.encode, hflatten]
    rfl
  · rw [hestablishes.journal_eq]
    exact Engine.succeedsOn_of_consistent hload hestablishes.endsWell hvalues
      fun pc hpc => hestablishes.writable (hopens pc (Code.mem_positions.1 hpc).1)

/-- The receipt of the inverse of three modulo seven. -/
theorem result_of_verify_modinv : ∃ r : Receipt, r.verify modinv.artifact 16 = .ok () ∧
    ∃ (operands : Value) (ns : List Nat), operands.shape = modinv.inputShape ∧
      operands.flatten = .ok ns ∧ modinv.Admissible ns ∧
      (∃ result, modinv.expected operands = .ok result ∧ result.encode = .ok r.journal) ∧
      ∃ input, operands.encode = .ok input ∧
        Engine.SucceedsOn modinv.artifact input r.journal := by
  have hlt : ∀ n ∈ [3, 7], n < 0x100000000 := by decide
  obtain ⟨values, proof, -, -, -, hverify⟩ := modinv.exists_proof
    (show [3, 7].length = 2 from rfl) ⟨by decide, by decide⟩ (fun n hn => short_of_lt (hlt n hn))
    ProverOptions.valid_standard rfl
  exact ⟨proof.receipt, hverify 16 (Int.le_refl _), result_of_verify (hverify 16 (Int.le_refl _))⟩

end Operation

namespace Session

variable {l : Limits} {a : Artifact} {input : Bytes} {s : Session} {o : ProverOptions}

/-- A successful run has a proof under all valid options. Its receipt is accepted if no more queries
are asked for than it was made with, and is rejected otherwise. Only the memory limits the values:
the limbs of each have to be counted in one word. -/
theorem accepted_of_execute (host : Host) (hexecute : Engine.execute host l a input = .ok s)
    (hending : s.ending = .success) (hvalid : o.Valid) {n : Int} (hn : o.queries.integer? = some n)
    (hwritable : ∀ row ∈ s.trace, Writable row.value.toNat) :
    ∃ proof, s.prove host o = .ok proof ∧ ∀ minQueries : Int,
      (minQueries ≤ n → proof.receipt.verify a minQueries = .ok ()) ∧
      (n < minQueries →
        ∃ reason, proof.receipt.verify a minQueries = .error (.rejected reason)) := by
  obtain ⟨p, hload, -, hrun⟩ := Engine.execute_eq_ok_iff.1 hexecute
  obtain ⟨hend, values, rfl, hvalues⟩ :=
    Engine.of_run_success (Program.loaded_of_load hload) hrun hending
  have hvalue : ∀ pc < p.size, Writable (values pc) := by
    intro pc hpc
    have hrow : p.code.rowAt values pc ∈ p.code.rows values := by
      rw [Code.rows_eq_map_rowAt]
      exact List.mem_map_of_mem (List.mem_range.2 hpc)
    have hvalue := hwritable _ hrow
    rwa [Code.value_rowAt, Int.toNat_natCast] at hvalue
  obtain ⟨proof, hproof, hverify⟩ := exists_proof hload hend hvalues hvalue hvalid hn
  exact ⟨proof, prove_of_attest hproof, hverify⟩

/-- The run for the inverse of three modulo seven. -/
theorem accepted_of_execute_modinv :
    ∃ s, Engine.execute .standard .standard Operation.modinv.artifact (encodeNats [3, 7]) = .ok s ∧
      ∃ proof, s.prove .standard .standard = .ok proof ∧ ∀ minQueries : Int,
        (minQueries ≤ 16 → proof.receipt.verify Operation.modinv.artifact minQueries = .ok ()) ∧
        (16 < minQueries → ∃ reason, proof.receipt.verify Operation.modinv.artifact minQueries =
          .error (.rejected reason)) := by
  let s := Engine.run .standard Operation.modinv.artifact.imageId Operation.modinv.program
    (encodeNats [3, 7])
  have hending : s.ending = .success := by decide +kernel
  have hvalues : ∀ row ∈ s.trace, row.value.toNat < 0x100000000 := by decide +kernel
  have hexecute : Engine.execute .standard .standard Operation.modinv.artifact
      (encodeNats [3, 7]) = .ok s := Engine.execute_of_success (Operation.load_blob .modinv) hending
  exact ⟨s, hexecute, accepted_of_execute .standard hexecute hending ProverOptions.valid_standard
    rfl fun row hrow => writable_of_lt (hvalues row hrow)⟩

end Session

end CircuitReceipts
