import CircuitReceipts.Proofs.Receipt.Completeness

/-!
# What a journal depends on

The value at a position is computed from the values of its sources, so what is evaluated on a set
of positions that holds its sources depends only on the numbers read there. Two successful runs of
one program that have read the same numbers at such positions have equal rows there, whatever else
they have read and under whatever limits. Around the positions that append to the journal the least
such set is their closure, and so the journal depends on nothing that is read outside it.
-/

namespace CircuitReceipts

namespace Code

variable {code : Code} {values values' inputs inputs' : Nat → Nat} {pc : Nat} {i : Instruction}
  {S : Nat → Prop}

theorem found_congr
    (h : ∀ w ∈ code.sources pc, code.evaluate inputs w = code.evaluate inputs' w)
    (hi : code[pc]? = some i) {r : Int} (hr : r ∈ i.reads) :
    code.found inputs r pc = code.found inputs' r pc := by
  rw [found, found]
  cases hw : code.lastWriter r pc with
  | none => rfl
  | some w => exact h w (mem_sources hi hr hw)

/-- An instruction evaluates alike where its sources do and, if it reads, the number read is the
same. -/
theorem evaluate_eq_of_sources (hi : code[pc]? = some i)
    (hread : i.op = .read → inputs pc = inputs' pc)
    (h : ∀ w ∈ code.sources pc, code.evaluate inputs w = code.evaluate inputs' w) :
    code.evaluate inputs pc = code.evaluate inputs' pc := by
  have hfound {r : Int} (hr : r ∈ i.reads) := found_congr h hi hr
  rw [evaluate_eq hi, evaluate_eq hi]
  cases hop : i.op with
  | read => exact congrArg some (hread hop)
  | const | halt => rfl
  | commit =>
    have ha : i.a ∈ i.reads := by simp [Instruction.reads, hop, Opcode.isBinary]
    exact hfound ha
  | add | sub | mul | mod | inv =>
    have hb : i.b ∈ i.reads := by simp [Instruction.reads, hop, Opcode.isBinary]
    have hc : i.c ∈ i.reads := by simp [Instruction.reads, hop, Opcode.isBinary]
    simp only [hfound hb, hfound hc]

/-- Evaluation on a set that holds its sources depends only on the numbers read there. -/
theorem evaluate_congr (hS : ∀ {w}, S w → ∀ v ∈ code.sources w, S v)
    (hread : ∀ {w i}, S w → code[w]? = some i → i.op = .read → inputs w = inputs' w)
    (hpc : S pc) : code.evaluate inputs pc = code.evaluate inputs' pc := by
  induction pc using Nat.strong_induction_on with
  | _ pc ih =>
    cases hi : code[pc]? with
    | none => simp only [evaluate, hi]
    | some i =>
      exact evaluate_eq_of_sources hi (hread hpc hi) fun w hw =>
        ih w (lt_of_mem_sources hw) (hS hpc w hw)

/-- Two families of values that are consistent on a set that holds its sources are the same there
if they agree on what is read. -/
theorem values_eq_of_readings (hS : ∀ {w}, S w → ∀ v ∈ code.sources w, S v)
    (hvalues : ∀ {w}, S w → code.Consistent values w)
    (hvalues' : ∀ {w}, S w → code.Consistent values' w)
    (hread : ∀ {w i}, S w → code[w]? = some i → i.op = .read → values w = values' w)
    (hpc : S pc) : values pc = values' pc := by
  have h := evaluate_congr hS hread hpc
  rwa [evaluate_eq_some hS hvalues hpc, evaluate_eq_some hS hvalues' hpc, Option.some.injEq] at h

theorem before_congr (h : ∀ w ∈ code.sources pc, values w = values' w) (hi : code[pc]? = some i)
    {r : Int} (hr : r ∈ i.reads) : code.before values r pc = code.before values' r pc := by
  rw [before, before]
  cases hw : code.lastWriter r pc with
  | none => rfl
  | some w => exact h w (mem_sources hi hr hw)

/-- The row of a position shows its value and those of its sources, and nothing else of a run. -/
theorem rowOf_congr (hi : code[pc]? = some i) (hvalue : values pc = values' pc)
    (hsources : ∀ w ∈ code.sources pc, values w = values' w) :
    code.rowOf values pc i = code.rowOf values' pc i := by
  rw [rowOf, rowOf, hvalue]
  split
  · next hbinary =>
    have hb : i.b ∈ i.reads := by simp [Instruction.reads, hbinary]
    have hc : i.c ∈ i.reads := by simp [Instruction.reads, hbinary]
    rw [before_congr hsources hi hb, before_congr hsources hi hc]
  · rfl

end Code

namespace Engine

variable {a : Artifact} {p : Program} {host host' : Host} {l l' : Limits} {input input' : Bytes}
  {s s' : Session}

/-- Whether two traces have read the same numbers at the given positions. -/
def ReadAlike (positions : List Nat) (rs rs' : List Row) : Prop :=
  ∀ pc ∈ positions, ∀ row ∈ rs[pc]?, ∀ row' ∈ rs'[pc]?,
    row.opcode = (Opcode.read.number : Int) → row.value = row'.value

instance (positions : List Nat) (rs rs' : List Row) : Decidable (ReadAlike positions rs rs') :=
  inferInstanceAs (Decidable (∀ pc ∈ positions, ∀ row ∈ rs[pc]?, ∀ row' ∈ rs'[pc]?,
    row.opcode = (Opcode.read.number : Int) → row.value = row'.value))

/-- Traces of values that have read alike agree on the values of the instructions that read. -/
theorem ReadAlike.values_eq {code : Code} {values values' : Nat → Nat} {positions : List Nat}
    (h : ReadAlike positions (code.rows values) (code.rows values')) {pc : Nat} {i : Instruction}
    (hpc : pc ∈ positions) (hi : code[pc]? = some i) (hop : i.op = .read) :
    values pc = values' pc := by
  have hrow (vs : Nat → Nat) : (code.rows vs)[pc]? = some (code.rowOf vs pc i) := by
    rw [Code.getElem?_rows, hi, Option.map_some]
  have hheader : (code.rowOf values pc i).header = _ := Code.header_rowOf pc i
  simp only [Row.header, List.cons.injEq] at hheader
  have hvalue := h pc hpc _ (hrow values) _ (hrow values') (by rw [hheader.2.2.1, hop])
  rwa [Code.value_rowOf, Code.value_rowOf, Int.natCast_inj] at hvalue

/-- The journal depends only on the closure of the positions that append to it. In two successful
runs of a loaded program, on any hosts and inputs and under any limits, that have read the same
numbers at the positions of this closure, the rows there are the same, and so are the journals. -/
theorem journal_eq_of_readAlike (hload : Program.load a.blob = .ok p)
    (hs : execute host l a input = .ok s) (hs' : execute host' l' a input' = .ok s')
    (hending : s.ending = .success) (hending' : s'.ending = .success) :
    ∃ needed : List Nat,
      p.code.closureOf (p.code.commits.map Int.ofNat) = .ok (needed.map Int.ofNat) ∧
      (ReadAlike needed s.trace s'.trace →
        (∀ pc ∈ needed, ∃ row, s.trace[pc]? = some row ∧ s'.trace[pc]? = some row) ∧
          s.journal = s'.journal) := by
  have hp := Program.loaded_of_load hload
  obtain ⟨-, hrun⟩ := (execute_eq_ok_iff_of_load hload).1 hs
  obtain ⟨-, hrun'⟩ := (execute_eq_ok_iff_of_load hload).1 hs'
  obtain ⟨-, values, hsession, hvalues⟩ := of_run_success hp hrun hending
  obtain ⟨-, values', hsession', hvalues'⟩ := of_run_success hp hrun' hending'
  subst hsession hsession'
  have hroots : ∀ r ∈ p.code.commits, r < p.code.size := fun r hr =>
    (Code.mem_positions.1 hr).1
  refine ⟨p.code.closure p.code.commits, Code.closureOf_natCast hroots, fun hread => ?_⟩
  have hsize {pc : Nat} (hpc : pc ∈ p.code.closure p.code.commits) : pc < p.size :=
    Code.lt_size_of_mem_closure hpc
  have heq {pc : Nat} (hpc : pc ∈ p.code.closure p.code.commits) : values pc = values' pc :=
    Code.values_eq_of_readings (S := (· ∈ p.code.closure p.code.commits))
      (fun hw _ hv => Code.sources_subset_closure hw hv) (fun hw => hvalues _ (hsize hw))
      (fun hw => hvalues' _ (hsize hw)) (fun hw hi hop => hread.values_eq hw hi hop) hpc
  constructor
  · intro pc hpc
    obtain ⟨i, hi⟩ := Code.exists_instruction (hsize hpc)
    have hrow : p.code.rowOf values pc i = p.code.rowOf values' pc i :=
      Code.rowOf_congr hi (heq hpc) fun w hw => heq (Code.sources_subset_closure hpc hw)
    refine ⟨p.code.rowOf values pc i, ?_, ?_⟩
    · exact (Code.getElem?_rows pc).trans (by rw [hi, Option.map_some])
    · exact (Code.getElem?_rows pc).trans (by rw [hi, Option.map_some, hrow])
  · have hcommitted : p.code.commits.map values = p.code.commits.map values' :=
      List.map_congr_left fun pc hpc => heq (Code.mem_closure_of_mem hpc (hroots pc hpc))
    exact congrArg encodeNats hcommitted

/-- A program that commits the square of its first input and doubles the second for nothing. -/
def committedSquare : Program :=
  ⟨2, #[⟨.read, 0, 0, 0⟩, ⟨.read, 1, 0, 0⟩, ⟨.add, 1, 1, 1⟩, ⟨.mul, 0, 0, 0⟩, ⟨.commit, 0, 0, 0⟩,
    ⟨.halt, 0, 0, 0⟩]⟩

/-- The artifact of `committedSquare`. -/
def committedSquareArtifact : Artifact :=
  ⟨"custom", Program.magic ++ bytesOfWords [1, 2, 6, 1, 0, 0, 0, 1, 1, 0, 0, 3, 1, 1, 1, 5, 0, 0, 0,
    8, 0, 0, 0, 9, 0, 0, 0]⟩

/-- Two runs that read different second inputs have different traces and the same journal. -/
theorem journal_eq_of_readAlike_square :
    Program.load committedSquareArtifact.blob = .ok committedSquare ∧
      ∃ s s', execute .standard .standard committedSquareArtifact (encodeNats [3, 4]) = .ok s ∧
        execute .lifted ⟨6, 8⟩ committedSquareArtifact (encodeNats [3, 5]) = .ok s' ∧
        s.ending = .success ∧ s'.ending = .success ∧ s.trace ≠ s'.trace ∧
        committedSquare.code.closureOf (committedSquare.code.commits.map Int.ofNat) =
          .ok [0, 3, 4] ∧
        ReadAlike [0, 3, 4] s.trace s'.trace ∧
        (∀ pc ∈ [0, 3, 4], ∃ row, s.trace[pc]? = some row ∧ s'.trace[pc]? = some row) ∧
        s.journal = encodeNat 9 ∧ s.journal = s'.journal := by
  have hload : Program.load committedSquareArtifact.blob = .ok committedSquare := by
    decide +kernel
  let s := run .standard committedSquareArtifact.imageId committedSquare (encodeNats [3, 4])
  let s' := run ⟨6, 8⟩ committedSquareArtifact.imageId committedSquare (encodeNats [3, 5])
  have hending : s.ending = .success := by decide +kernel
  have hending' : s'.ending = .success := by decide +kernel
  have hs : execute .standard .standard committedSquareArtifact (encodeNats [3, 4]) = .ok s :=
    execute_of_success hload hending
  have hs' : execute .lifted ⟨6, 8⟩ committedSquareArtifact (encodeNats [3, 5]) = .ok s' :=
    execute_of_success hload hending'
  have hclosure : committedSquare.code.closureOf (committedSquare.code.commits.map Int.ofNat) =
      .ok ([0, 3, 4].map Int.ofNat) := by
    decide +kernel
  have hread : ReadAlike [0, 3, 4] s.trace s'.trace := by decide +kernel
  obtain ⟨needed, hneeded, hequal⟩ :=
    journal_eq_of_readAlike hload hs hs' hending hending'
  obtain rfl : [0, 3, 4] = needed := by
    rw [hclosure, Except.ok.injEq] at hneeded
    exact List.map_injective_iff.2 (fun _ _ => Int.ofNat.inj) hneeded
  obtain ⟨hrows, hjournal⟩ := hequal hread
  exact ⟨hload, s, s', hs, hs', hending, hending', by decide +kernel, hclosure, hread, hrows,
    by decide +kernel, hjournal⟩

end Engine

end CircuitReceipts
