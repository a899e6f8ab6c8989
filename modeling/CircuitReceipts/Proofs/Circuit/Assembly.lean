import CircuitReceipts.Circuit.Operation
import CircuitReceipts.Proofs.Codec.Reading
import CircuitReceipts.Proofs.Success

/-!
# Artifacts and programs

An artifact holds the numbers of a program, one to a word. Assembling a program and loading bytes
both come down to one relation between the two: the bytes are the magic bytes and the words of the
program's numbers, and the program is valid. Since the relation determines each of the two by the
other, loading accepts exactly what assembling produces.
-/

namespace CircuitReceipts

namespace Program

/-- The numbers of the artifact of a program: version, registers and size, and then the numbers of
each instruction. -/
def numbers (p : Program) : List Int :=
  p.header ++ p.instructions.toList.flatMap fields

def InWords (p : Program) : Prop :=
  ∀ n ∈ p.numbers, 0 ≤ n ∧ n < 0x100000000

variable {p : Program} {blob : Bytes}

/-- Instructions are read from words, four for each, exactly if the words are their fields. -/
theorem instructionsOfWords_eq_ok_iff {start : Nat} {ws : List UInt32} {is : List Instruction}
    (hlen : ws.length % 4 = 0) :
    instructionsOfWords start ws = .ok is ↔
      is.flatMap fields = ws.map fun w => (w.toNat : Int) := by
  fun_induction instructionsOfWords start ws generalizing is with
  | case1 start op a b c rest hcode =>
    simp only [reduceCtorEq, false_iff]
    intro h
    cases is with
    | nil => exact absurd h (by simp)
    | cons i is =>
      simp only [List.flatMap_cons, fields, List.cons_append, List.map_cons, List.cons.injEq] at h
      rw [← h.1, Opcode.ofNumber?_number] at hcode
      cases hcode
  | case2 start op a b c rest code hcode ih =>
    have hrest : rest.length % 4 = 0 := by
      simp only [List.length_cons] at hlen
      omega
    have hop := Opcode.eq_of_ofNumber? hcode
    simp only [bind_eq_ok, pure_eq_ok, ih hrest]
    constructor
    · rintro ⟨ks, hks, rfl⟩
      simp only [List.flatMap_cons, fields, List.cons_append, List.nil_append, List.map_cons, hks,
        hop]
    · intro h
      cases is with
      | nil => exact absurd h (by simp)
      | cons i is =>
        simp only [List.flatMap_cons, fields, List.cons_append, List.nil_append, List.map_cons,
          List.cons.injEq] at h
        obtain ⟨hi, ha, hb, hc, his⟩ := h
        rw [← hi, Opcode.ofNumber?_number, Option.some.injEq] at hcode
        refine ⟨is, his, ?_⟩
        rw [← hcode, ← ha, ← hb, ← hc]
  | case3 ws start hshort =>
    rcases ws with _ | ⟨op, _ | ⟨a, _ | ⟨b, _ | ⟨c, rest⟩⟩⟩⟩
    · cases is with
      | nil => simp
      | cons i is => simp [fields]
    -- one to three words over are excluded by their number
    · exact absurd hlen (by simp)
    · exact absurd hlen (by simp)
    · exact absurd hlen (by simp)
    · exact absurd rfl (hshort op a b c rest)

theorem length_flatMap_fields (is : List Instruction) :
    (is.flatMap fields).length = 4 * is.length := by
  induction is with
  | nil => rfl
  | cons i is ih =>
    rw [List.flatMap_cons, List.length_append, ih, List.length_cons]
    simp only [fields, List.length_cons, List.length_nil]
    omega

theorem ofWords_eq_ok_iff {total : Nat} {ws : List UInt32} :
    ofWords total ws = .ok p ↔
      p.validate = .ok () ∧ p.numbers = ws.map fun w => (w.toNat : Int) := by
  rw [numbers, header]
  constructor
  · intro h
    unfold ofWords at h
    split at h
    · next v registers count rest =>
      simp only [throw_bind, guard_eq_ok, bind_eq_ok, pure_eq_ok, not_not] at h
      obtain ⟨hversion, hcount, is, his, _, hvalid, rfl⟩ := h
      have hfields := (instructionsOfWords_eq_ok_iff (by omega)).1 his
      have hsize : is.length = count.toNat := by
        have hlen := congrArg List.length hfields
        rw [length_flatMap_fields, List.length_map] at hlen
        omega
      refine ⟨hvalid, ?_⟩
      simp only [List.cons_append, List.nil_append, List.map_cons, size, List.size_toArray,
        hfields, hversion, hsize]
    · exact absurd h (by simp)
  · rintro ⟨hvalid, hnumbers⟩
    rcases ws with _ | ⟨v, _ | ⟨registers, _ | ⟨count, rest⟩⟩⟩
    · simp at hnumbers
    · simp at hnumbers
    · simp at hnumbers
    · simp only [List.cons_append, List.nil_append, List.map_cons, List.cons.injEq] at hnumbers
      obtain ⟨hversion, hregisters, hcount, hfields⟩ := hnumbers
      have hlen : rest.length = 4 * count.toNat := by
        have h := congrArg List.length hfields
        rw [length_flatMap_fields, List.length_map] at h
        rw [size] at hcount
        simp only [Array.length_toList] at h
        omega
      have his : instructionsOfWords 0 rest = .ok p.instructions.toList :=
        (instructionsOfWords_eq_ok_iff (by omega)).2 hfields
      have hp : (⟨(registers.toNat : Int), p.instructions.toList.toArray⟩ : Program) = p := by
        rw [← hregisters]
      have hv : ¬v.toNat ≠ version := by omega
      simp only [ofWords, if_neg hv, if_neg (not_not.2 hlen), his, ok_bind, hp, hvalid]
      rfl

/-- Whether bytes are the artifact of a program: the magic bytes, and the words of its numbers. -/
def Written (p : Program) (blob : Bytes) : Prop :=
  ∃ ws, p.numbers = ws.map (fun w => (w.toNat : Int)) ∧ blob = magic ++ bytesOfWords ws

theorem load_eq_ok_iff : load blob = .ok p ↔ p.validate = .ok () ∧ p.Written blob := by
  have hmagic : magic.length = 4 := rfl
  constructor
  · intro h
    simp only [load, throw_bind, guard_eq_ok, not_not] at h
    obtain ⟨htake, h⟩ := h
    split at h
    · exact absurd h (by simp)
    next ws hws =>
    obtain ⟨hvalid, hnumbers⟩ := ofWords_eq_ok_iff.1 h
    refine ⟨hvalid, ws, hnumbers, ?_⟩
    rw [bytesOfWords_of_wordsOfBytes? hws, ← htake, List.take_append_drop]
  · rintro ⟨hvalid, ws, hnumbers, rfl⟩
    have htake : (magic ++ bytesOfWords ws).take 4 = magic := List.take_left' hmagic
    have hdrop : (magic ++ bytesOfWords ws).drop 4 = bytesOfWords ws := List.drop_left' hmagic
    simp only [load, htake, hdrop, wordsOfBytes?_bytesOfWords]
    exact ofWords_eq_ok_iff.2 ⟨hvalid, hnumbers⟩

theorem assemble_eq_ok_iff : p.assemble = .ok blob ↔ p.validate = .ok () ∧ p.Written blob := by
  simp only [assemble, Written, numbers, bind_eq_ok, mapError_eq_ok, ← wordsOfInts?_eq_some_iff]
  cases wordsOfInts? (p.header ++ p.instructions.toList.flatMap fields) with
  | none => simp
  | some ws =>
    simp only [pure_eq_ok, Option.some.injEq]
    constructor
    · rintro ⟨_, hvalid, rfl⟩
      exact ⟨hvalid, ws, rfl, rfl⟩
    · rintro ⟨hvalid, _, rfl, rfl⟩
      exact ⟨(), hvalid, rfl⟩

/-- A program is written as one byte string only. -/
theorem Written.unique {blob' : Bytes} (h : p.Written blob) (h' : p.Written blob') :
    blob = blob' := by
  obtain ⟨ws, hws, rfl⟩ := h
  obtain ⟨ws', hws', rfl⟩ := h'
  have hinj : Function.Injective fun w : UInt32 => (w.toNat : Int) := fun v w hvw =>
    UInt32.toNat.inj (Int.ofNat.inj hvw)
  rw [hinj.list_map (hws.symm.trans hws')]

theorem inWords_iff : p.InWords ↔ ∃ blob, p.Written blob := by
  rw [InWords, ← exists_words_iff]
  constructor
  · rintro ⟨ws, hws⟩
    exact ⟨_, ws, hws, rfl⟩
  · rintro ⟨_, ws, hws, -⟩
    exact ⟨ws, hws⟩

/-- The format of artifacts is exact. A valid program whose numbers have room in words is assembled
to an artifact, from which it is loaded. Bytes load to a program exactly if the program is such a
one and they are its artifact; bytes that are the artifact of no such program are refused with an
error of loading. So two artifacts that load to one program consist of the same bytes. -/
theorem load_iff_assemble :
    (∀ p : Program, p.validate = .ok () → p.InWords →
      ∃ blob, p.assemble = .ok blob ∧ load blob = .ok p) ∧
    (∀ (blob : Bytes) (p : Program), load blob = .ok p ↔
      p.validate = .ok () ∧ p.InWords ∧ p.assemble = .ok blob) ∧
    (∀ blob : Bytes,
      (¬∃ p : Program, p.validate = .ok () ∧ p.InWords ∧ p.assemble = .ok blob) ↔
        ∃ e : LoadError, load blob = .error e) ∧
    ∀ (a b : Artifact) (p : Program), load a.blob = .ok p → load b.blob = .ok p →
      a.blob = b.blob := by
  have hload (blob : Bytes) (p : Program) : load blob = .ok p ↔
      p.validate = .ok () ∧ p.InWords ∧ p.assemble = .ok blob := by
    rw [load_eq_ok_iff, assemble_eq_ok_iff, inWords_iff]
    exact ⟨fun ⟨hvalid, h⟩ => ⟨hvalid, ⟨_, h⟩, hvalid, h⟩, fun ⟨_, _, h⟩ => h⟩
  refine ⟨fun p hvalid hwords => ?_, hload, fun blob => ?_, fun a b p ha hb => ?_⟩
  · obtain ⟨blob, hblob⟩ := inWords_iff.1 hwords
    exact ⟨blob, assemble_eq_ok_iff.2 ⟨hvalid, hblob⟩, load_eq_ok_iff.2 ⟨hvalid, hblob⟩⟩
  · simp only [← hload]
    cases load blob <;> simp
  · exact (load_eq_ok_iff.1 ha).2.unique (load_eq_ok_iff.1 hb).2

/-- The circuit that inverts is valid, its numbers have room in words, and it is loaded from its
artifact and from no other bytes. -/
theorem load_iff_assemble_modinv :
    Operation.modinv.program.validate = .ok () ∧ Operation.modinv.program.InWords ∧
      ∀ blob : Bytes, load blob = .ok Operation.modinv.program ↔ blob = Operation.modinv.blob := by
  have hvalid : Operation.modinv.program.validate = .ok () := by decide +kernel
  have hwords : Operation.modinv.program.InWords := by
    rw [InWords]
    decide +kernel
  have hassemble := Operation.assemble_program .modinv
  obtain ⟨blob, hblob, hload⟩ := load_iff_assemble.1 Operation.modinv.program hvalid hwords
  obtain rfl : Operation.modinv.blob = blob := Except.ok.inj (hassemble.symm.trans hblob)
  refine ⟨hvalid, hwords, fun blob => ⟨fun h => ?_, fun h => h ▸ hload⟩⟩
  exact load_iff_assemble.2.2.2 ⟨[], blob⟩ ⟨[], Operation.modinv.blob⟩ _ h hload

end Program

end CircuitReceipts
