import CircuitReceipts.Proofs.Engine.Reach
import CircuitReceipts.Proofs.Receipt.Trace

/-!
# What a run consumes

A run takes numbers from its input one after another and looks at nothing else of it: the count in
front of a number is held against what is left, but a number that has been read in full is read in
full before any other rest. So at every point the words of the numbers read so far stand at the
front of the input, and with these words followed by any others a run comes to the same point. A run
that succeeds ends for a reason that has nothing to do with the input, and is the same on all inputs
that begin with what it has read.
-/

namespace CircuitReceipts

namespace Row

theorem readings_append (rs rs' : List Row) :
    readings (rs ++ rs') = readings rs ++ readings rs' := by
  simp [readings]

theorem readings_row (i : Instruction) (pc lhs rhs v : Nat) :
    readings [i.row pc lhs rhs v] = if i.op = .read then [v] else [] := by
  have hop : (i.row pc lhs rhs v).opcode = Opcode.read.number ↔ i.op = .read := by
    rw [Instruction.row, Int.natCast_inj]
    exact Opcode.number_inj
  rw [readings, List.filter_singleton]
  simp only [hop]
  by_cases hread : i.op = .read <;> simp [hread, Instruction.row]

theorem readings_row_of_isBinary {i : Instruction} (hop : i.op.isBinary = true)
    (pc lhs rhs v : Nat) : readings [i.row pc lhs rhs v] = [] := by
  have hread : i.op ≠ .read := by
    intro h
    rw [h] at hop
    cases hop
  rw [readings_row, if_neg hread]

end Row

namespace Machine

variable (m : Machine) (words : List UInt32)

/-- A machine that has other words left to read. -/
def withRest : Machine :=
  { m with input := ⟨m.input.position, words⟩ }

end Machine

namespace WordReader

theorem integer_of_integer {r r' : WordReader} {n : Nat} (h : r.integer = (.ok n, r'))
    (words : List UInt32) :
    integer ⟨r.position, wordsOfNat n ++ words⟩ = (.ok n, ⟨r'.position, words⟩) := by
  obtain ⟨hn, rfl, -⟩ := integer_eq_ok_iff.1 h
  rw [integer_words hn, position_skip, wordsOfNat, List.length_cons, Nat.add_comm 1]

end WordReader

namespace Engine

variable {l : Limits} {p : Program} {reader : WordReader} {rows : List Row} {m m' : Machine}
  {pc : Nat} {i : Instruction} {row : Row} {host : Host} {a : Artifact} {input : Bytes}
  {s : Session}

theorem Goes.rest_eq (h : Goes l m pc i row m') :
    m.input.rest = wordsOfNats (Row.readings [row]) ++ m'.input.rest := by
  cases h with
  | read hop hread =>
    rw [Row.readings_row, if_pos hop, wordsOfNats_cons, wordsOfNats_nil, List.append_nil]
    exact (WordReader.words_of_integer hread).2
  | const hop | commit hop | halt hop =>
    rw [Row.readings_row, hop]
    rfl
  | computed hop =>
    rw [Row.readings_row_of_isBinary hop]
    rfl

/-- A step makes the same row whatever follows the number that it reads. -/
theorem Goes.withRest (h : Goes l m pc i row m') (words : List UInt32) :
    Goes l (m.withRest (wordsOfNats (Row.readings [row]) ++ words)) pc i row
      (m'.withRest words) := by
  cases h with
  | read hop hread hbits =>
    rw [Row.readings_row, if_pos hop, wordsOfNats_cons, wordsOfNats_nil, List.append_nil]
    exact .read (m := m.withRest _) hop (WordReader.integer_of_integer hread words) hbits
  | const hop =>
    rw [Row.readings_row, hop]
    exact .const hop
  | commit hop =>
    rw [Row.readings_row, hop]
    exact .commit hop
  | halt hop =>
    rw [Row.readings_row, hop]
    exact .halt hop
  | computed hop hcompute hbits =>
    rw [Row.readings_row_of_isBinary hop]
    exact .computed hop hcompute hbits

theorem Reaches.rest_eq (h : Reaches l p reader rows m) :
    reader.rest = wordsOfNats (Row.readings rows) ++ m.input.rest := by
  induction h with
  | start => rfl
  | step hreach hi hsession hgoes ih =>
    rw [ih, hgoes.rest_eq, Row.readings_append, wordsOfNats_append, List.append_assoc]

/-- A run comes to the same point on all inputs that begin with what it has read. -/
theorem Reaches.withRest (h : Reaches l p reader rows m) (words : List UInt32) :
    Reaches l p ⟨reader.position, wordsOfNats (Row.readings rows) ++ words⟩ rows
      (m.withRest words) := by
  induction h generalizing words with
  | start => exact .start
  | @step rows row m m' i hreach hi hsession hgoes ih =>
    rw [Row.readings_append, wordsOfNats_append, List.append_assoc]
    exact (ih _).step hi hsession (hgoes.withRest words)

/-- Whether a run succeeds at a point has nothing to do with the machine there. -/
theorem Ends.none_of_none (h : Ends l p pc m none) : Ends l p pc m' none := by
  cases h with
  | succeeds hrows hi hop ha => exact .succeeds hrows hi hop ha

/-- A run that succeeds comes to a point at which it ends so. -/
theorem exists_reaches_of_success {imageId : Text} (hp : p.Loaded)
    (hending : (run l imageId p input).ending = .success) :
    ∃ ws rows m, input = bytesOfWords ws ∧ Reaches l p ⟨0, ws⟩ rows m ∧
      Ends l p rows.length m none ∧ run l imageId p input = .success imageId rows m.journal := by
  cases hreader : WordReader.ofBytes input with
  | error e =>
    rw [run_of_outcome (outcome_of_unreadable l p hreader)] at hending
    cases hending
  | ok reader =>
    obtain ⟨ws, rfl, hinput⟩ := WordReader.exists_words_of_ofBytes hreader
    obtain ⟨rows, m, stop, hreach, hends, hrun⟩ := exists_run_eq_ended l imageId hp hreader
    rw [hrun] at hending
    rcases stop with _ | reason | cause
    · exact ⟨ws, rows, m, hinput, hreach, hends, hrun⟩
    · cases hending
    · cases hending

/-- A successful run has read a prefix of its input, in the canonical form of the numbers in its
reading rows, and has the same session on all inputs of whole words that begin with this prefix. -/
theorem execute_append_of_success (hs : execute host l a input = .ok s)
    (hending : s.ending = .success) :
    encodeNats (Row.readings s.trace) <+: input ∧
      ∀ more : Bytes, more.length % 4 = 0 →
        execute host l a (encodeNats (Row.readings s.trace) ++ more) = .ok s := by
  obtain ⟨p, hload, -, rfl⟩ := execute_eq_ok_iff.1 hs
  have hp := Program.loaded_of_load hload
  obtain ⟨ws, rows, m, rfl, hreach, hends, hrun⟩ := exists_reaches_of_success hp hending
  rw [hrun, Session.success]
  refine ⟨⟨bytesOfWords m.input.rest, ?_⟩, fun more hmore => ?_⟩
  · have hws : ws = wordsOfNats (Row.readings rows) ++ m.input.rest := hreach.rest_eq
    rw [hws, bytesOfWords_append, bytesOfWords_wordsOfNats]
  · obtain ⟨words, rfl⟩ := exists_words_of_length hmore
    have hreader : WordReader.ofBytes (encodeNats (Row.readings rows) ++ bytesOfWords words) =
        .ok ⟨0, wordsOfNats (Row.readings rows) ++ words⟩ := by
      rw [← bytesOfWords_wordsOfNats, ← bytesOfWords_append, WordReader.ofBytes_bytesOfWords]
    exact (execute_eq_success_iff hload).2
      ((hreach.withRest words).run_eq hp hreader hends.none_of_none)

/-- What follows the operands of a difference, here four bytes that by themselves announce a number
without limbs to follow, makes no difference. -/
theorem execute_append_of_success_modsub :
    ∃ s, execute .standard .standard Operation.modsub.artifact (encodeNats [3, 5, 7]) = .ok s ∧
      s.ending = .success ∧ encodeNats (Row.readings s.trace) = encodeNats [3, 5, 7] ∧
      execute .standard .standard Operation.modsub.artifact
        (encodeNats [3, 5, 7] ++ [0xFF, 0xFF, 0xFF, 0xFF]) = .ok s := by
  let s := run .standard Operation.modsub.artifact.imageId Operation.modsub.program
    (encodeNats [3, 5, 7])
  have hending : s.ending = .success := by decide +kernel
  have hs : execute .standard .standard Operation.modsub.artifact (encodeNats [3, 5, 7]) = .ok s :=
    execute_of_success (Operation.load_blob .modsub) hending
  have hread : Row.readings s.trace = [3, 5, 7] := by decide +kernel
  obtain ⟨-, happend⟩ := execute_append_of_success hs hending
  have hmore := happend [0xFF, 0xFF, 0xFF, 0xFF] (by decide)
  rw [hread] at hmore
  exact ⟨s, hs, hending, congrArg encodeNats hread, hmore⟩

end Engine

end CircuitReceipts
