import CircuitReceipts.Codec
import Mathlib.Algebra.Group.Nat.Defs

/-!
# Reading what was written

A number in a word stream is preceded by the count of its limbs, so only a number whose count has
room in a word can be written. Such a number is read back, whatever follows it in the stream;
conversely whatever is read is such a number, and its words stood in the stream. Both readings are
kept as one equation about the words taken. Integers that are to have one word each are words
exactly if all of them have room.
-/

namespace CircuitReceipts

/-- Whether the count of the limbs of a number has room in one word. -/
def Writable (n : Nat) : Prop :=
  (limbs n).length < 0x100000000

theorem length_limbs_le_iff {n k : Nat} : (limbs n).length ≤ k ↔ n < 0x100000000 ^ k := by
  induction k generalizing n with
  | zero =>
    rw [Nat.le_zero, List.length_eq_zero_iff, Nat.pow_zero, Nat.lt_one_iff]
    constructor
    · intro h
      have hn := ofLimbs_limbs n
      rw [h] at hn
      exact hn.symm
    · rintro rfl
      exact limbs_zero
  | succ k ih =>
    by_cases hn : n = 0
    · subst hn
      rw [limbs_zero, List.length_nil]
      exact iff_of_true (Nat.zero_le _) (Nat.pow_pos (by decide))
    · rw [limbs_of_ne_zero hn, List.length_cons, Nat.add_le_add_iff_right, ih, Nat.pow_succ,
        Nat.div_lt_iff_lt_mul (by decide)]

theorem bitLength_le_iff {n k : Nat} : bitLength n ≤ k ↔ n < 2 ^ k := by
  rw [bitLength]
  split
  · next hn =>
    subst hn
    exact iff_of_true (Nat.zero_le _) (Nat.pow_pos (by decide))
  · next hn => rw [Nat.succ_le_iff, Nat.log2_lt hn]

/-- Each limb holds 32 bits. -/
theorem length_limbs_le_of_bitLength {n k : Nat} (h : bitLength n ≤ 32 * k) :
    (limbs n).length ≤ k := by
  rw [length_limbs_le_iff, show 0x100000000 = 2 ^ 32 from rfl, ← Nat.pow_mul]
  exact bitLength_le_iff.1 h

theorem length_limbs_mono {m n : Nat} (hmn : m ≤ n) : (limbs m).length ≤ (limbs n).length :=
  length_limbs_le_iff.2 (Nat.lt_of_le_of_lt hmn (length_limbs_le_iff.1 (Nat.le_refl _)))

theorem Writable.mono {m n : Nat} (h : Writable n) (hmn : m ≤ n) : Writable m :=
  Nat.lt_of_le_of_lt (length_limbs_mono hmn) h

/-- Whether the count of the limbs of a number leaves one bit of a word free, which is what it takes
for products and sums of two such numbers to be writable. -/
def Short (n : Nat) : Prop :=
  (limbs n).length < 0x80000000

theorem Short.writable {n : Nat} (h : Short n) : Writable n :=
  Nat.lt_trans h (by decide)

theorem Short.mono {m n : Nat} (h : Short n) (hmn : m ≤ n) : Short m :=
  Nat.lt_of_le_of_lt (length_limbs_mono hmn) h

theorem short_of_lt {n : Nat} (h : n < 0x100000000) : Short n := by
  have h1 : (limbs n).length ≤ 1 := length_limbs_le_iff.2 (by simpa using h)
  exact Nat.lt_of_le_of_lt h1 (by decide)

theorem writable_of_lt {n : Nat} (h : n < 0x100000000) : Writable n :=
  (short_of_lt h).writable

theorem Short.mul {m n : Nat} (hm : Short m) (hn : Short n) : Writable (m * n) := by
  have hlen : (limbs (m * n)).length ≤ (limbs m).length + (limbs n).length := by
    rw [length_limbs_le_iff, Nat.pow_add]
    exact Nat.mul_lt_mul'' (length_limbs_le_iff.1 (Nat.le_refl _))
      (length_limbs_le_iff.1 (Nat.le_refl _))
  rw [Short] at hm hn
  rw [Writable]
  omega

theorem Short.add {m n : Nat} (hm : Short m) (hn : Short n) : Writable (m + n) := by
  have hmax : Short (max m n) := by
    rcases Nat.le_total m n with h | h
    · rwa [Nat.max_eq_right h]
    · rwa [Nat.max_eq_left h]
  exact (hmax.mul (short_of_lt (show 2 < _ by decide))).mono (by omega)

def wordsOfNats (ns : List Nat) : List UInt32 :=
  ns.flatMap wordsOfNat

@[simp] theorem wordsOfNats_nil : wordsOfNats [] = [] := rfl

@[simp] theorem wordsOfNats_cons (n : Nat) (ns : List Nat) :
    wordsOfNats (n :: ns) = wordsOfNat n ++ wordsOfNats ns := by
  simp [wordsOfNats]

@[simp] theorem wordsOfNats_append (ms ns : List Nat) :
    wordsOfNats (ms ++ ns) = wordsOfNats ms ++ wordsOfNats ns := by
  simp [wordsOfNats]

theorem bytesOfWords_wordsOfNats (ns : List Nat) :
    bytesOfWords (wordsOfNats ns) = encodeNats ns := by
  induction ns with
  | nil => rfl
  | cons n ns ih => rw [wordsOfNats_cons, bytesOfWords_append, ih, encodeNats_cons, encodeNat]

theorem exists_words_of_length {b : Bytes} (h : b.length % 4 = 0) : ∃ ws, b = bytesOfWords ws := by
  obtain ⟨ws, hws⟩ :=
    Option.ne_none_iff_exists'.1 fun hnone => wordsOfBytes?_eq_none_iff.1 hnone h
  exact ⟨ws, (bytesOfWords_of_wordsOfBytes? hws).symm⟩

theorem wordsOfInts?_eq_some_iff {ns : List Int} {ws : List UInt32} :
    wordsOfInts? ns = some ws ↔ ns = ws.map fun w => (w.toNat : Int) := by
  induction ns generalizing ws with
  | nil => cases ws <;> simp [wordsOfInts?]
  | cons n ns ih =>
    rw [wordsOfInts?] at ih ⊢
    rw [List.mapM_cons]
    simp only [Option.pure_def, Option.bind_eq_bind, Option.bind_eq_some_iff,
      Option.ite_none_right_eq_some, Option.some.injEq]
    constructor
    · rintro ⟨w, ⟨⟨hn, hlt⟩, rfl⟩, vs, hvs, rfl⟩
      rw [List.map_cons, ← ih.1 hvs, UInt32.toNat_ofNat', Nat.mod_eq_of_lt (by omega),
        Int.toNat_of_nonneg hn]
    · intro h
      cases ws with
      | nil => exact absurd h (by simp)
      | cons w vs =>
        rw [List.map_cons, List.cons.injEq] at h
        obtain ⟨rfl, hns⟩ := h
        have hlt := w.toNat_lt
        exact ⟨w, ⟨by omega, by simp⟩, vs, ih.2 hns, rfl⟩

theorem exists_words_iff {ns : List Int} :
    (∃ ws : List UInt32, ns = ws.map fun w => (w.toNat : Int)) ↔
      ∀ n ∈ ns, 0 ≤ n ∧ n < 0x100000000 := by
  constructor
  · rintro ⟨ws, rfl⟩ n hn
    obtain ⟨w, -, rfl⟩ := List.mem_map.1 hn
    have hlt := w.toNat_lt
    omega
  · intro h
    refine ⟨ns.map fun n => UInt32.ofNat n.toNat, ?_⟩
    rw [List.map_map]
    refine (List.map_id ns).symm.trans (List.map_congr_left fun n hn => ?_)
    obtain ⟨hnonneg, hlt⟩ := h n hn
    rw [Function.comp_apply, UInt32.toNat_ofNat', Nat.mod_eq_of_lt (by omega),
      Int.toNat_of_nonneg hnonneg, id]

namespace WordReader

theorem ofBytes_bytesOfWords (ws : List UInt32) : ofBytes (bytesOfWords ws) = .ok ⟨0, ws⟩ := by
  rw [ofBytes, wordsOfBytes?_bytesOfWords]

theorem ofBytes_encodeNats (ns : List Nat) : ofBytes (encodeNats ns) = .ok ⟨0, wordsOfNats ns⟩ := by
  rw [← bytesOfWords_wordsOfNats, ofBytes_bytesOfWords]

theorem exists_words_of_ofBytes {b : Bytes} {r : WordReader} (h : ofBytes b = .ok r) :
    ∃ ws, r = ⟨0, ws⟩ ∧ b = bytesOfWords ws := by
  rw [ofBytes] at h
  split at h
  · next ws hws =>
    cases h
    exact ⟨ws, rfl, (bytesOfWords_of_wordsOfBytes? hws).symm⟩
  · cases h

theorem finish_eq_ok_iff {r : WordReader} : r.finish = .ok () ↔ r.rest = [] := by
  rw [finish, remaining]
  cases r.rest <;> simp

theorem integer_words {n : Nat} (hn : Writable n) (position : Nat) (tail : List UInt32) :
    integer ⟨position, wordsOfNat n ++ tail⟩ =
      (.ok n, ⟨position + (1 + (limbs n).length), tail⟩) := by
  have hcount : (UInt32.ofNat (limbs n).length).toNat = (limbs n).length := by
    rw [UInt32.toNat_ofNat', Nat.mod_eq_of_lt hn]
  have htake : (limbs n ++ tail).take (limbs n).length = limbs n := by simp
  have htail : (limbs n ++ tail).drop (limbs n).length = tail := by simp
  have hlen : ¬(limbs n ++ tail).length < (limbs n).length := by simp
  simp only [integer, wordsOfNat, List.cons_append, hcount, htake, if_neg hlen,
    if_neg (getLast?_limbs n), ofLimbs_limbs, skip, Nat.add_comm 1, List.drop_succ_cons, htail]

theorem words_of_integer {r r' : WordReader} {n : Nat} (h : r.integer = (.ok n, r')) :
    Writable n ∧ r.rest = wordsOfNat n ++ r'.rest := by
  rw [integer] at h
  split at h
  · exact absurd h (by simp)
  next count ws hrest =>
  simp only at h
  split at h
  · exact absurd h (by simp)
  next hlen =>
  split at h
  · exact absurd h (by simp)
  next htop =>
  simp only [Prod.mk.injEq, Except.ok.injEq] at h
  obtain ⟨rfl, rfl⟩ := h
  have hl : limbs (ofLimbs (ws.take count.toNat)) = ws.take count.toNat := limbs_ofLimbs htop
  have hlength : (ws.take count.toNat).length = count.toNat := by
    rw [List.length_take]
    omega
  refine ⟨?_, ?_⟩
  · rw [Writable, hl, hlength]
    exact count.toNat_lt
  · have hcount : UInt32.ofNat count.toNat = count := by simp
    rw [wordsOfNat, hl, hlength, hcount, hrest, rest_skip, hrest, Nat.add_comm 1,
      List.drop_succ_cons, List.cons_append, List.take_append_drop]

/-- A number is read exactly if it is writable and its words are next, and the reader is moved over
these. -/
theorem integer_eq_ok_iff {r r' : WordReader} {n : Nat} : r.integer = (.ok n, r') ↔
    Writable n ∧ r' = r.skip (wordsOfNat n).length ∧ wordsOfNat n <+: r.rest := by
  have hread (hn : Writable n) {tail : List UInt32} (hrest : r.rest = wordsOfNat n ++ tail) :
      r.integer = (.ok n, r.skip (wordsOfNat n).length) := by
    have hr : r = ⟨r.position, wordsOfNat n ++ tail⟩ := by rw [← hrest]
    rw [hr, integer_words hn, skip, List.drop_left, wordsOfNat, List.length_cons, Nat.add_comm 1]
  constructor
  · intro h
    obtain ⟨hn, hrest⟩ := words_of_integer h
    have hmoved := (hread hn hrest).symm.trans h
    exact ⟨hn, (congrArg Prod.snd hmoved).symm, r'.rest, hrest.symm⟩
  · rintro ⟨hn, rfl, tail, hrest⟩
    exact hread hn hrest.symm

end WordReader

end CircuitReceipts
