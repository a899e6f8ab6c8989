import CircuitReceipts.Proofs.Value.Shape

/-!
# The cursor of a reader

A reader may be called in any order and goes on after a failure where the failure has left it. All
that a call can do to it is to move it forward over words that are there, which is shown of each
call and from it of a sequence of calls. So a reader of a word stream always stands in that stream:
its position counts the words before it and the rest are the words after it. How far it moves is
said of each reading: a number that is read moves it over the words of that number and a number that
is not over one word at most; and a shape moves it as its numbers do, one after another, up to the
one that fails or the part that is no shape.
-/

namespace CircuitReceipts

namespace WordReader

variable {r r' r'' : WordReader} {ws : List UInt32} {n count : Nat}

/-! ### Moving forward -/

theorem skip_skip (r : WordReader) (j k : Nat) : (r.skip j).skip k = r.skip (j + k) := by
  rw [skip, skip, skip, List.drop_drop, Nat.add_assoc]

@[simp] theorem remaining_skip (r : WordReader) (k : Nat) :
    (r.skip k).remaining = r.remaining - k :=
  List.length_drop

/-- Whether the second reader is the first one moved forward over words that were left to it. -/
def Advances (r r' : WordReader) : Prop :=
  ∃ count ≤ r.remaining, r' = r.skip count

theorem Advances.refl (r : WordReader) : r.Advances r :=
  ⟨0, Nat.zero_le _, rfl⟩

theorem Advances.trans (h : r.Advances r') (h' : r'.Advances r'') : r.Advances r'' := by
  obtain ⟨j, hj, rfl⟩ := h
  obtain ⟨k, hk, rfl⟩ := h'
  rw [remaining_skip] at hk
  exact ⟨j + k, by omega, skip_skip r j k⟩

theorem Advances.position_le (h : r.Advances r') : r.position ≤ r'.position := by
  obtain ⟨count, -, rfl⟩ := h
  exact Nat.le_add_right _ _

/-- A reader in a stream has as many words before it as its position says, and the others left. -/
structure StandsIn (r : WordReader) (ws : List UInt32) : Prop where
  position_le : r.position ≤ ws.length
  rest_eq : r.rest = ws.drop r.position

theorem standsIn_start (ws : List UInt32) : StandsIn ⟨0, ws⟩ ws :=
  ⟨Nat.zero_le _, rfl⟩

theorem StandsIn.position_add_remaining (h : r.StandsIn ws) :
    r.position + r.remaining = ws.length := by
  rw [remaining, h.rest_eq, List.length_drop]
  exact Nat.add_sub_of_le h.position_le

theorem StandsIn.advance (h : r.StandsIn ws) (ha : r.Advances r') : r'.StandsIn ws := by
  obtain ⟨count, hcount, rfl⟩ := ha
  have hlength := h.position_add_remaining
  refine ⟨?_, ?_⟩
  · rw [position_skip]
    omega
  · rw [rest_skip, h.rest_eq, List.drop_drop, position_skip]

/-- Words stand in the stream from the position of a reader on exactly if they are next to be
read. -/
theorem StandsIn.extract_eq_iff (h : r.StandsIn ws) {words : List UInt32} :
    ws.extract r.position (r.skip words.length).position = words ↔ words <+: r.rest := by
  rw [position_skip, List.extract_eq_take_drop, Nat.add_sub_cancel_left, ← h.rest_eq,
    List.prefix_iff_eq_take, eq_comm]

/-! ### What a call moves over -/

theorem advances_word (r : WordReader) : r.Advances r.word.2 := by
  rw [word]
  split
  · exact .refl r
  · next hrest => exact ⟨1, by simp [remaining, hrest], rfl⟩

/-- A number that is not read moves the reader over its count, if there is a word left for one. -/
theorem eq_skip_of_integer_error {e : DecodeError} (h : r.integer = (.error e, r')) :
    r' = r.skip (min 1 r.remaining) := by
  rw [integer] at h
  split at h
  · next hrest =>
    cases h
    rw [remaining, hrest]
    rfl
  next count words hrest =>
  have hmin : min 1 r.remaining = 1 := by
    rw [remaining, hrest, List.length_cons]
    omega
  rw [hmin]
  simp only at h
  split at h
  · cases h
    rfl
  · split at h <;> cases h
    rfl

theorem advances_of_integer {x : Except DecodeError Nat} (h : r.integer = (x, r')) :
    r.Advances r' := by
  cases x with
  | error e => exact ⟨_, Nat.min_le_right _ _, eq_skip_of_integer_error h⟩
  | ok n =>
    obtain ⟨-, hmoved, hnext⟩ := integer_eq_ok_iff.1 h
    exact ⟨_, hnext.length_le, hmoved⟩

theorem advances_of_numbers {x : Except DecodeError (List Nat)} (h : r.numbers count = (x, r')) :
    r.Advances r' := by
  induction count generalizing r x with
  | zero =>
    cases h
    exact .refl _
  | succ count ih =>
    rw [numbers] at h
    split at h
    · next hn =>
      cases h
      exact advances_of_integer hn
    next hn =>
    have hfirst := advances_of_integer hn
    split at h <;>
      next hns =>
        cases h
        exact hfirst.trans (ih hns)

theorem value_snd (s : Shape) (r : WordReader) : (r.value s).2 = (r.numbers s.leading).2 := by
  rw [Shape.value_eq_numbers]
  rcases r.numbers s.leading with ⟨e | ns, next⟩
  · rfl
  · cases s.stranger? <;> rfl

theorem advances_value (s : Shape) (r : WordReader) : r.Advances (r.value s).2 :=
  value_snd s r ▸ advances_of_numbers rfl

/-! ### Any calls -/

/-- What may be called on a reader. -/
inductive Call where
  | word
  | integer
  | shape (s : Shape)
  | finish

/-- The reader after a call, whether the call has succeeded or failed. -/
def call (r : WordReader) : Call → WordReader
  | .word => r.word.2
  | .integer => r.integer.2
  | .shape s => (r.value s).2
  | .finish => r

def calls (r : WordReader) (made : List Call) : WordReader :=
  made.foldl call r

theorem advances_call (r : WordReader) (c : Call) : r.Advances (r.call c) := by
  cases c with
  | word => exact advances_word r
  | integer => exact advances_of_integer rfl
  | shape s => exact advances_value s r
  | finish => exact .refl r

theorem advances_calls (r : WordReader) (made : List Call) : r.Advances (r.calls made) := by
  induction made generalizing r with
  | nil => exact .refl r
  | cons c made ih => exact (advances_call r c).trans (ih (r.call c))

/-- Numbers that have been read leave the reader where so many calls for a number leave it. -/
theorem calls_of_numbers {ns : List Nat} (h : r.numbers count = (.ok ns, r')) :
    r.calls (List.replicate count .integer) = r' := by
  induction count generalizing r ns with
  | zero =>
    cases h
    rfl
  | succ count ih =>
    rw [numbers] at h
    split at h
    · cases h
    next n next hn =>
    split at h
    · cases h
    next hns =>
    cases h
    have hcall : r.call .integer = next := congrArg Prod.snd hn
    rw [List.replicate_succ, calls, List.foldl_cons, hcall]
    exact ih hns

/-- The numbers of a shape are read one after another; where the shape is not read, the reader
stands where the number that is not read has left it, or the last one before a part that is no
shape. -/
theorem exists_numbers_of_value_error {s : Shape} {e : ReadError} (h : r.value s = (.error e, r')) :
    ∃ ns middle, r.numbers ns.length = (.ok ns, middle) ∧
      ((∃ cause, e = .decode cause ∧ ns.length < s.leading ∧
          middle.integer = (.error cause, r')) ∨
        ∃ t, e = .notAShape t ∧ s.stranger? = some t ∧ ns.length = s.leading ∧ r' = middle) := by
  rcases Shape.value_eq_error_iff.1 h with ⟨cause, rfl, hread⟩ | ⟨t, ns, rfl, hstranger, hread⟩
  · obtain ⟨ns, middle, hlt, hns, hfailed⟩ := numbers_eq_error_iff.1 hread
    exact ⟨ns, middle, hns, .inl ⟨cause, rfl, hlt, hfailed⟩⟩
  · have hlen := length_of_numbers hread
    exact ⟨ns, r', hlen ▸ hread, .inr ⟨t, rfl, hstranger, hlen, rfl⟩⟩

/-- The cursor of a reader of whole words is sound under any use. After any calls, failed ones
among them, the reader stands in its words: the position is not past their end, and what remains is
what follows it. No later calls take it back. A number is read exactly if it is writable and its
words are those between the two positions, and a number that is not read moves the position by at
most one word. Where a shape is not read, some of its numbers have been, as by so many calls for a
number, and the reader stands where the next one has failed, or where the last one has left it
before a part that is no shape. -/
theorem cursor_after_calls (b : Bytes) (haligned : b.length % 4 = 0) :
    ∃ ws, b = bytesOfWords ws ∧ ofBytes b = .ok ⟨0, ws⟩ ∧ ∀ made : List Call,
      let r := calls ⟨0, ws⟩ made
      (r.position ≤ ws.length ∧ r.position + r.remaining = ws.length ∧
        r.rest = ws.drop r.position) ∧
      (∀ later, r.position ≤ (r.calls later).position) ∧
      (∀ n next, r.integer = (.ok n, next) ↔ Writable n ∧
        next = r.skip (wordsOfNat n).length ∧
        ws.extract r.position next.position = wordsOfNat n) ∧
      (∀ e next, r.integer = (.error e, next) → next.position ≤ r.position + 1) ∧
      ∀ s e next, r.value s = (.error e, next) → ∃ ns : List Nat,
        let middle := r.calls (List.replicate ns.length .integer)
        r.numbers ns.length = (.ok ns, middle) ∧
        ((∃ cause, e = .decode cause ∧ ns.length < s.leading ∧
            middle.integer = (.error cause, next)) ∨
          ∃ t, e = .notAShape t ∧ s.stranger? = some t ∧ ns.length = s.leading ∧
            next = middle) := by
  obtain ⟨ws, rfl⟩ := exists_words_of_length haligned
  refine ⟨ws, rfl, ofBytes_bytesOfWords ws, fun made => ?_⟩
  intro r
  -- All a call can do is move the reader forward, so wherever calls leave it, it is in its words.
  have hstands : r.StandsIn ws := (standsIn_start ws).advance (advances_calls _ made)
  refine ⟨⟨hstands.position_le, hstands.position_add_remaining, hstands.rest_eq⟩,
    fun later => (advances_calls r later).position_le, fun n next => ?_, fun e next h => ?_,
    fun s e next h => ?_⟩
  · rw [integer_eq_ok_iff, and_congr_right_iff, and_congr_right_iff]
    rintro - rfl
    exact hstands.extract_eq_iff.symm
  · rw [eq_skip_of_integer_error h, position_skip]
    omega
  · obtain ⟨ns, middle, hns, hleft⟩ := exists_numbers_of_value_error h
    have hmiddle := calls_of_numbers hns
    refine ⟨ns, ?_⟩
    rw [hmiddle]
    exact ⟨hns, hleft⟩

/-- Two shapes that are not read, the first for a part that is no shape and the second for a number
that announces three limbs of which two are left, and further calls up to the end of the words. -/
theorem cursor_after_calls_failing :
    let b : Bytes := [1, 0, 0, 0, 7, 0, 0, 0, 0, 0, 0, 0, 3, 0, 0, 0, 5, 0, 0, 0, 0, 0, 0, 0]
    let ws : List UInt32 := [1, 7, 0, 3, 5, 0]
    let r : WordReader := calls ⟨0, ws⟩ [.shape (.tuple [.scalar, .none])]
    let s : Shape := .tuple [.scalar, .tuple [.scalar, .scalar]]
    b.length % 4 = 0 ∧ ofBytes b = .ok ⟨0, ws⟩ ∧ r = ⟨2, [0, 3, 5, 0]⟩ ∧
      ws.extract 0 2 = wordsOfNat 7 ∧
      r.value s = (.error (.decode (.missingLimbs 3 2)), ⟨4, [5, 0]⟩) ∧
      (∃ ns : List Nat, ns.length < 3 ∧
        (r.calls (List.replicate ns.length .integer)).integer =
          (.error (.missingLimbs 3 2), ⟨4, [5, 0]⟩)) ∧
      r.position ≤ (r.calls [.shape s, .word, .integer, .integer, .finish]).position ∧
      r.calls [.shape s, .word, .integer, .integer, .finish] = ⟨6, []⟩ := by
  intro b ws r s
  have haligned : b.length % 4 = 0 := by decide
  have hreader : ofBytes b = .ok ⟨0, ws⟩ := by decide
  have hvalue : r.value s = (.error (.decode (.missingLimbs 3 2)), ⟨4, [5, 0]⟩) := rfl
  obtain ⟨ws', -, hreader', hcalls⟩ := cursor_after_calls b haligned
  obtain rfl : ws' = ws := by
    rw [hreader'] at hreader
    simpa using hreader
  obtain ⟨-, -, hinteger, -, -⟩ := hcalls []
  obtain ⟨-, hlater, -, -, hshape⟩ := hcalls [.shape (.tuple [.scalar, .none])]
  refine ⟨haligned, hreader, rfl, ((hinteger 7 ⟨2, [0, 3, 5, 0]⟩).1 rfl).2.2, hvalue, ?_,
    hlater _, rfl⟩
  obtain ⟨ns, -, ⟨cause, hcause, hlt, hfailed⟩ | ⟨t, hcause, -⟩⟩ := hshape _ _ _ hvalue
  · cases hcause
    exact ⟨ns, hlt, hfailed⟩
  · cases hcause

end WordReader

end CircuitReceipts
