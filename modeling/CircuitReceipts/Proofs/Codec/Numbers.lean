import CircuitReceipts.Proofs.Codec.Reading
import CircuitReceipts.Proofs.Success

/-!
# Numbers read one after another

What is read of a stream, whatever it is arranged in afterwards, is a count of numbers, one after
another. Reading more of them goes on where reading fewer has come to; a run that fails keeps the
reader where the failed number left it. Writable numbers are read back from their words, and what
is read is writable numbers whose words stood in the stream.
-/

namespace CircuitReceipts

namespace WordReader

/-- Reads numbers one after another. -/
def numbers : (count : Nat) → WordReader → Except DecodeError (List Nat) × WordReader
  | 0, r => (.ok [], r)
  | count + 1, r =>
    match r.integer with
    | (.error e, r) => (.error e, r)
    | (.ok n, r) =>
      match numbers count r with
      | (.error e, r) => (.error e, r)
      | (.ok ns, r) => (.ok (n :: ns), r)

variable {r r' : WordReader} {ns : List Nat} {count : Nat}

/-- To read numbers is to read some of them and then the others. -/
theorem numbers_add (k count : Nat) (r : WordReader) :
    r.numbers (k + count) =
      match r.numbers k with
      | (.error e, r) => (.error e, r)
      | (.ok front, r) =>
        match r.numbers count with
        | (.error e, r) => (.error e, r)
        | (.ok back, r) => (.ok (front ++ back), r) := by
  induction k generalizing r with
  | zero =>
    simp only [Nat.zero_add, numbers]
    rcases r.numbers count with ⟨_ | back, next⟩ <;> rfl
  | succ k ih =>
    rw [Nat.add_right_comm, numbers, numbers]
    rcases r.integer with ⟨_ | n, middle⟩
    · rfl
    · simp only [ih]
      rcases middle.numbers k with ⟨_ | front, next⟩
      · rfl
      · simp only
        rcases next.numbers count with ⟨_ | back, last⟩ <;> rfl

theorem length_of_numbers (h : r.numbers count = (.ok ns, r')) : ns.length = count := by
  induction count generalizing r ns with
  | zero =>
    cases h
    rfl
  | succ count ih =>
    rw [numbers] at h
    split at h
    · cases h
    split at h
    · cases h
    next hns =>
    cases h
    rw [List.length_cons, ih hns]

/-- Numbers are not read exactly because one of them is not, after those before it have been, and
the reader is left where that one has left it. -/
theorem numbers_eq_error_iff {e : DecodeError} : r.numbers count = (.error e, r') ↔
    ∃ ns middle, ns.length < count ∧ r.numbers ns.length = (.ok ns, middle) ∧
      middle.integer = (.error e, r') := by
  induction count generalizing r with
  | zero => simp [numbers]
  | succ count ih =>
    rw [numbers]
    constructor
    · intro h
      split at h
      · next hn =>
        cases h
        exact ⟨[], r, Nat.succ_pos count, rfl, hn⟩
      next n next hn =>
      split at h
      · next hns =>
        cases h
        obtain ⟨ns, middle, hlt, hread, hfailed⟩ := ih.1 hns
        refine ⟨n :: ns, middle, Nat.succ_lt_succ hlt, ?_, hfailed⟩
        simp only [List.length_cons, numbers, hn, hread]
      · cases h
    · rintro ⟨_ | ⟨n, ns⟩, middle, hlt, hread, hfailed⟩
      · cases hread
        rw [hfailed]
      · rw [List.length_cons, numbers] at hread
        split at hread
        · cases hread
        next next hn =>
        split at hread
        · cases hread
        next hns =>
        cases hread
        have hrest := ih.2 ⟨ns, middle, Nat.lt_of_succ_lt_succ hlt, hns, hfailed⟩
        simp only [hrest]

/-- Writable numbers are read back, and nothing after them is touched. -/
theorem numbers_words (h : ∀ n ∈ ns, Writable n) (position : Nat) (tail : List UInt32) :
    ∃ next, numbers ns.length ⟨position, wordsOfNats ns ++ tail⟩ = (.ok ns, ⟨next, tail⟩) := by
  induction ns generalizing position with
  | nil => exact ⟨position, rfl⟩
  | cons n ns ih =>
    rw [List.forall_mem_cons] at h
    obtain ⟨next, hns⟩ := ih h.2 (position + (1 + (limbs n).length))
    refine ⟨next, ?_⟩
    have hn := integer_words h.1 position (wordsOfNats ns ++ tail)
    simp only [List.length_cons, wordsOfNats_cons, List.append_assoc, numbers, hn, hns]

theorem words_of_numbers (h : r.numbers count = (.ok ns, r')) :
    (∀ n ∈ ns, Writable n) ∧ r.rest = wordsOfNats ns ++ r'.rest := by
  induction count generalizing r ns with
  | zero =>
    cases h
    exact ⟨by simp, rfl⟩
  | succ count ih =>
    rw [numbers] at h
    split at h
    · cases h
    next n middle hn =>
    split at h
    · cases h
    next hns =>
    cases h
    obtain ⟨hwritable, hwords⟩ := words_of_integer hn
    obtain ⟨hwritables, hrest⟩ := ih hns
    refine ⟨List.forall_mem_cons.2 ⟨hwritable, hwritables⟩, ?_⟩
    rw [hwords, hrest, wordsOfNats_cons, List.append_assoc]

end WordReader

/-- The numbers that a byte string encodes, if it encodes so many. -/
def decodeNumbers (b : Bytes) (count : Nat) : Except DecodeError (List Nat) := do
  let r ← WordReader.ofBytes b
  let (ns, r) := r.numbers count
  let ns ← ns
  r.finish
  return ns

theorem length_of_decodeNumbers {b : Bytes} {ns : List Nat} {count : Nat}
    (h : decodeNumbers b count = .ok ns) : ns.length = count := by
  simp only [decodeNumbers, bind_eq_ok, pure_eq_ok] at h
  obtain ⟨r, -, _, hns, _, -, rfl⟩ := h
  exact WordReader.length_of_numbers (Prod.ext hns rfl)

theorem decodeNumbers_eq_ok_iff {b : Bytes} {ns : List Nat} {count : Nat} :
    decodeNumbers b count = .ok ns ↔
      ns.length = count ∧ (∀ n ∈ ns, Writable n) ∧ b = encodeNats ns := by
  constructor
  · intro h
    refine ⟨length_of_decodeNumbers h, ?_⟩
    simp only [decodeNumbers, bind_eq_ok, pure_eq_ok] at h
    obtain ⟨r, hreader, _, hns, _, hfinish, rfl⟩ := h
    obtain ⟨hwritable, hwords⟩ := WordReader.words_of_numbers (Prod.ext hns rfl)
    rw [WordReader.finish_eq_ok_iff.1 hfinish, List.append_nil] at hwords
    obtain ⟨ws, rfl, rfl⟩ := WordReader.exists_words_of_ofBytes hreader
    exact ⟨hwritable, by rw [← bytesOfWords_wordsOfNats, ← hwords]⟩
  · rintro ⟨rfl, hwritable, rfl⟩
    obtain ⟨next, hread⟩ := WordReader.numbers_words hwritable 0 []
    rw [List.append_nil] at hread
    simp only [decodeNumbers, WordReader.ofBytes_encodeNats, ok_bind, hread]
    rfl

end CircuitReceipts
