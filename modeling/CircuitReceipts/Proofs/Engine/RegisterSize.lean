import CircuitReceipts.Proofs.Engine.Reach
import CircuitReceipts.Proofs.Receipt.Acceptance

/-!
# The size of registers

The engine has a limit on the bits of a register. It is tested where a number is read or computed,
but not where a register takes a constant of the program. So at every point of a run a number in a
register, or in a row, is within the limit or is such a constant, and a number that is read or
computed beyond the limit ends the run with a fault. That constants may exceed the limit is shown by
a program of three instructions.
-/

namespace CircuitReceipts

/-- Whether a register limited to so many bits can come to hold a number in a run of a program. -/
def Program.Holdable (p : Program) (l : Limits) (v : Nat) : Prop :=
  (bitLength v : Int) ≤ l.registerBits ∨ p.HasConstant v

namespace Engine

variable {l : Limits} {p : Program} {reader : WordReader} {rows : List Row} {m : Machine}
  {imageId : Text} {input : Bytes} {i : Instruction} {v : Nat}

/-- At every point of a run the registers, and the numbers in the rows made so far, are within the
limit or constants of the program. -/
theorem Reaches.holdable (h : Reaches l p reader rows m) (hbits : 0 ≤ l.registerBits) :
    (∀ v ∈ m.registers, p.Holdable l v) ∧
      ∀ row ∈ rows, ∀ v ∈ [row.lhs, row.rhs, row.value], 0 ≤ v ∧ p.Holdable l v.toNat :=
  h.forall_values (.inl hbits) (fun _ => .inl) fun _ => .inr

/-- A run that comes to an instruction that makes a number beyond the limit, within its cycles, is
stopped by a fault that names the number's size and the place. -/
theorem Reaches.run_eq_fault (hp : p.Loaded) (hreader : WordReader.ofBytes input = .ok reader)
    (h : Reaches l p reader rows m) (hi : p.code[rows.length]? = some i)
    (hsession : (rows.length : Int) < l.session) (hmakes : Makes m i v)
    (hbits : l.registerBits < bitLength v) :
    run l imageId p input =
      .fault imageId rows (.registerSize (bitLength v) rows.length l.registerBits) :=
  h.run_eq hp hreader (.stopped hi hsession (.oversize hmakes hbits))

/-- What becomes of the limit on registers in the run of a loaded artifact, whose record is the
session if the host can tell how it ends. The numbers in the trace are within the limit or constants
of the program, which have at most the bits of a word. The same holds of all registers at every
point of the run; its points are the prefixes of the trace. And if at a point the next instruction,
within the cycles of the run, reads or computes a number beyond the limit, the record is that of a
fault there. -/
theorem holdable_of_execute (host : Host) (l : Limits) {a : Artifact} {p : Program} (input : Bytes)
    (hbits : 0 ≤ l.registerBits) (hload : Program.load a.blob = .ok p) :
    (execute host l a input = if host.Tells (shown l p input) then .ok (run l a.imageId p input)
      else .error (.misuse .tooManyDigits)) ∧
    (∀ row ∈ (run l a.imageId p input).trace, ∀ v ∈ [row.lhs, row.rhs, row.value],
      0 ≤ v ∧ p.Holdable l v.toNat) ∧
    (∀ v, p.HasConstant v → bitLength v ≤ 32) ∧
    ∀ reader, WordReader.ofBytes input = .ok reader →
      (∀ rows, (∃ m, Reaches l p reader rows m) ↔ rows <+: (run l a.imageId p input).trace) ∧
      ∀ rows m, Reaches l p reader rows m →
        (∀ v ∈ m.registers, p.Holdable l v) ∧
        ∀ i v, p.code[rows.length]? = some i → (rows.length : Int) < l.session →
          Makes m i v → l.registerBits < bitLength v →
            run l a.imageId p input = .fault a.imageId rows
              (.registerSize (bitLength v) rows.length l.registerBits) := by
  have hp := Program.loaded_of_load hload
  refine ⟨execute_of_load hload host l input, ?_, fun v h => ?_, ?_⟩
  · cases hreader : WordReader.ofBytes input with
    | error e =>
      rw [trace_run, outcome_of_unreadable l p hreader]
      exact fun row hrow => absurd hrow List.not_mem_nil
    | ok reader =>
      obtain ⟨rows, m, stop, hreach, -, hrun⟩ := exists_run_eq_ended l a.imageId hp hreader
      rw [hrun, trace_ended]
      exact (hreach.holdable hbits).2
  · exact bitLength_le_iff.2 (hp.constant_lt h)
  · intro reader hreader
    exact ⟨fun rows => exists_reaches_iff hp hreader, fun rows m hreach =>
      ⟨(hreach.holdable hbits).1, fun i v hi hsession hmakes hover =>
        hreach.run_eq_fault hp hreader hi hsession hmakes hover⟩⟩

/-- A product of two numbers of 41 bits does not fit into 64 bits. -/
theorem holdable_of_execute_modmul :
    (0 : Int) ≤ (⟨65536, 64⟩ : Limits).registerBits ∧
      Program.load Operation.modmul.artifact.blob = .ok Operation.modmul.program ∧
      ∃ s, execute .standard ⟨65536, 64⟩ Operation.modmul.artifact
          (encodeNats [2 ^ 40, 2 ^ 40, 7]) = .ok s ∧
        s.ending = .fault (.registerSize 81 3 64) ∧
        ∀ row ∈ s.trace, ∀ v ∈ [row.lhs, row.rhs, row.value],
          0 ≤ v ∧ Operation.modmul.program.Holdable ⟨65536, 64⟩ v.toNat := by
  have hbits : (0 : Int) ≤ (⟨65536, 64⟩ : Limits).registerBits := by decide
  have hload := Operation.load_blob .modmul
  obtain ⟨hs, hrows, -, -⟩ := holdable_of_execute .standard ⟨65536, 64⟩
    (a := Operation.modmul.artifact) (encodeNats [2 ^ 40, 2 ^ 40, 7]) hbits hload
  rw [if_pos (by decide +kernel)] at hs
  exact ⟨hbits, hload, _, hs, by decide +kernel, hrows⟩

/-- A program that commits a constant. -/
def committedConstant : Program :=
  ⟨1, #[⟨.const, 0, 5, 0⟩, ⟨.commit, 0, 0, 0⟩, ⟨.halt, 0, 0, 0⟩]⟩

/-- The artifact of `committedConstant`. -/
def committedConstantArtifact : Artifact :=
  ⟨"custom", Program.magic ++ bytesOfWords [1, 1, 3, 2, 0, 5, 0, 8, 0, 0, 0, 9, 0, 0, 0]⟩

/-- The limit on registers does not hold in every run: under a limit of two bits a register takes
the constant five, of three bits, and the run goes on to succeed. -/
theorem constant_exceeds_limit :
    Program.load committedConstantArtifact.blob = .ok committedConstant ∧
      (⟨65536, 2⟩ : Limits).registerBits < bitLength 5 ∧
      ∃ rows, execute .standard ⟨65536, 2⟩ committedConstantArtifact [] =
          .ok (.success committedConstantArtifact.imageId rows (encodeNat 5)) ∧
        (∃ row ∈ rows, row.value = 5) ∧
        ∃ m, Reaches ⟨65536, 2⟩ committedConstant ⟨0, []⟩ (rows.take 1) m ∧ 5 ∈ m.registers := by
  let five : Instruction := ⟨.const, 0, 5, 0⟩
  let rows : List Row := [five.row 0 0 0 5, Instruction.row ⟨.commit, 0, 0, 0⟩ 1 0 0 5,
    Instruction.row ⟨.halt, 0, 0, 0⟩ 2 0 0 0]
  have hload : Program.load committedConstantArtifact.blob = .ok committedConstant := by
    decide +kernel
  have hstart : Reaches ⟨65536, 2⟩ committedConstant ⟨0, []⟩ [] (.start 1 ⟨0, []⟩) := .start
  refine ⟨hload, by decide +kernel, rows, ?_, ⟨five.row 0 0 0 5, by simp [rows], rfl⟩, _,
    hstart.step (i := five) rfl (by decide) (.const rfl), by decide⟩
  exact execute_of_success hload rfl

end Engine

end CircuitReceipts
