import CircuitReceipts.Proofs.Codec.Numbers
import CircuitReceipts.Session.Row
import Mathlib.Data.List.Basic

/-!
# Rows and leaves

A row is *plain* when its six header numbers have room in a word and its three values are writable
natural numbers. A plain row is made of six words and three writable numbers, and its leaf is the
bytes of just these. A byte string is read as a row exactly if it is such a leaf, so plain rows and
the byte strings that are leaves determine each other, and all other byte strings are refused.
-/

namespace CircuitReceipts

namespace Row

variable {b : Bytes} {r : Row} {ws : List UInt32} {ns : List Nat}

def values (r : Row) : List Int :=
  [r.lhs, r.rhs, r.value]

/-- A row with room in a leaf for each of its numbers. -/
structure Plain (r : Row) : Prop where
  header : ∀ n ∈ r.header, 0 ≤ n ∧ n < 0x100000000
  values : ∀ v ∈ r.values, ∃ n : Nat, v = n ∧ Writable n

theorem plain_of_lt (hheader : ∀ n ∈ r.header, 0 ≤ n ∧ n < 0x100000000)
    (hvalues : ∀ v ∈ r.values, 0 ≤ v ∧ v < 0x100000000) : r.Plain := by
  refine ⟨hheader, fun v hv => ⟨v.toNat, ?_, writable_of_lt ?_⟩⟩
  · exact (Int.toNat_of_nonneg (hvalues v hv).1).symm
  · have hlt := (hvalues v hv).2
    omega

theorem eq_of_header_of_values {r' : Row} (hheader : r.header = r'.header)
    (hvalues : r.values = r'.values) : r = r' := by
  cases r
  cases r'
  simp only [header, List.cons.injEq, and_true] at hheader
  simp only [values, List.cons.injEq, and_true] at hvalues
  rw [Row.mk.injEq]
  tauto

theorem header_ofParts (hws : ws.length = 6) (ns : List Nat) :
    (ofParts ws ns).header = ws.map fun w => (w.toNat : Int) := by
  match ws, hws with
  | [_, _, _, _, _, _], _ => rfl

theorem values_ofParts (ws : List UInt32) (hns : ns.length = 3) :
    (ofParts ws ns).values = ns.map Int.ofNat := by
  match ns, hns with
  | [_, _, _], _ => rfl

/-- A plain row is made of six words and three writable numbers. -/
theorem plain_iff : r.Plain ↔ ∃ ws ns, ws.length = 6 ∧ ns.length = 3 ∧
    (∀ n ∈ ns, Writable n) ∧ r = ofParts ws ns := by
  constructor
  · intro hplain
    obtain ⟨ws, hws⟩ := exists_words_iff.2 hplain.header
    have hlen : ws.length = 6 := by
      rw [← List.length_map, ← hws]
      rfl
    have hvalues := hplain.values
    simp only [values, List.forall_mem_cons] at hvalues
    obtain ⟨⟨lhs, hlhs, hwlhs⟩, ⟨rhs, hrhs, hwrhs⟩, ⟨value, hvalue, hwvalue⟩, -⟩ := hvalues
    refine ⟨ws, [lhs, rhs, value], hlen, rfl, by simp [hwlhs, hwrhs, hwvalue], ?_⟩
    apply eq_of_header_of_values
    · rw [header_ofParts hlen, hws]
    · rw [values_ofParts ws rfl, values, hlhs, hrhs, hvalue]
      rfl
  · rintro ⟨ws, ns, hws, hns, hwritable, rfl⟩
    constructor
    · rw [header_ofParts hws]
      exact exists_words_iff.1 ⟨ws, rfl⟩
    · rw [values_ofParts ws hns]
      intro v hv
      obtain ⟨n, hn, rfl⟩ := List.mem_map.1 hv
      exact ⟨n, rfl, hwritable n hn⟩

theorem leaf_ofParts (hws : ws.length = 6) (hns : ns.length = 3) :
    (ofParts ws ns).leaf = .ok (bytesOfWords (ws ++ wordsOfNats ns)) := by
  have hwords : wordsOfInts? (ofParts ws ns).header = some ws :=
    wordsOfInts?_eq_some_iff.2 (header_ofParts hws ns)
  obtain ⟨lhs, rhs, value, rfl⟩ := List.length_eq_three.1 hns
  have hlhs : (ofParts ws [lhs, rhs, value]).lhs = lhs := rfl
  have hrhs : (ofParts ws [lhs, rhs, value]).rhs = rhs := rfl
  have hvalue : (ofParts ws [lhs, rhs, value]).value = value := rfl
  rw [leaf, hwords, bytesOfWords_append, bytesOfWords_wordsOfNats]
  simp only [hlhs, hrhs, hvalue, naturalOfInt_natCast, mapError_ok, ok_bind]
  rfl

theorem readWords_append (ws : List UInt32) (position : Nat) (tail : List UInt32) :
    readWords ws.length ⟨position, ws ++ tail⟩ = .ok (ws, ⟨position + ws.length, tail⟩) := by
  induction ws generalizing position with
  | nil => rfl
  | cons w ws ih =>
    have hskip : WordReader.skip ⟨position, w :: (ws ++ tail)⟩ 1 = ⟨position + 1, ws ++ tail⟩ := rfl
    simp only [List.length_cons, List.cons_append, readWords, WordReader.word, hskip, ih]
    rw [Nat.add_assoc, Nat.add_comm 1]
    rfl

theorem words_of_readWords {count : Nat} {reader next : WordReader}
    (h : readWords count reader = .ok (ws, next)) :
    ws.length = count ∧ reader.rest = ws ++ next.rest := by
  induction count generalizing reader ws with
  | zero =>
    cases h
    exact ⟨rfl, rfl⟩
  | succ count ih =>
    rw [readWords, WordReader.word] at h
    cases hrest : reader.rest with
    | nil => simp [hrest] at h
    | cons w tail =>
      simp only [hrest, bind_eq_ok] at h
      obtain ⟨⟨us, last⟩, hus, h⟩ := h
      cases h
      obtain ⟨hlen, htail⟩ := ih hus
      rw [WordReader.rest_skip, hrest, List.drop_one, List.tail_cons] at htail
      exact ⟨by rw [List.length_cons, hlen], by rw [htail, List.cons_append]⟩

/-- A row's values are read as numbers are, without the reader that a failure leaves. -/
theorem readIntegers_eq (count : Nat) (reader : WordReader) :
    readIntegers count reader =
      match reader.numbers count with
      | (.error e, _) => .error e
      | (.ok ns, next) => .ok (ns, next) := by
  induction count generalizing reader with
  | zero => rfl
  | succ count ih =>
    rw [readIntegers, WordReader.numbers]
    rcases reader.integer with ⟨_ | n, middle⟩
    · rfl
    · simp only [ih]
      rcases middle.numbers count with ⟨_ | ns, next⟩ <;> rfl

theorem readIntegers_eq_ok_iff {count : Nat} {reader next : WordReader} :
    readIntegers count reader = .ok (ns, next) ↔ reader.numbers count = (.ok ns, next) := by
  rw [readIntegers_eq]
  rcases reader.numbers count with ⟨_ | ks, last⟩ <;> simp

/-- A byte string is read as a row exactly if it is the bytes of six words and three writable
numbers, and the row is made of these. -/
theorem ofLeaf_eq_ok_iff : ofLeaf b = .ok r ↔ ∃ ws ns, ws.length = 6 ∧ ns.length = 3 ∧
    (∀ n ∈ ns, Writable n) ∧ b = bytesOfWords (ws ++ wordsOfNats ns) ∧ r = ofParts ws ns := by
  constructor
  · intro h
    simp only [ofLeaf, bind_eq_ok] at h
    obtain ⟨reader, hreader, ⟨ws, middle⟩, hheader, ⟨ns, last⟩, hvalues, _, hfinish, h⟩ := h
    cases h
    obtain ⟨hws, hrest⟩ := words_of_readWords hheader
    have hnumbers := readIntegers_eq_ok_iff.1 hvalues
    obtain ⟨hwritable, hmiddle⟩ := WordReader.words_of_numbers hnumbers
    obtain ⟨words, rfl, rfl⟩ := WordReader.exists_words_of_ofBytes hreader
    refine ⟨ws, ns, hws, WordReader.length_of_numbers hnumbers, hwritable, ?_, rfl⟩
    rw [WordReader.finish_eq_ok_iff.1 hfinish, List.append_nil] at hmiddle
    rw [← hmiddle, ← hrest]
  · rintro ⟨ws, ns, hws, hns, hwritable, rfl, rfl⟩
    have hheader := readWords_append ws 0 (wordsOfNats ns)
    obtain ⟨position, hnumbers⟩ := WordReader.numbers_words hwritable (0 + ws.length) []
    rw [hws] at hheader hnumbers
    rw [hns, List.append_nil] at hnumbers
    have hvalues := readIntegers_eq_ok_iff.2 hnumbers
    rw [ofLeaf, WordReader.ofBytes_bytesOfWords]
    simp only [ok_bind, hheader, hvalues]
    rfl

theorem Plain.exists_leaf (h : r.Plain) : ∃ b, r.leaf = .ok b ∧ ofLeaf b = .ok r := by
  obtain ⟨ws, ns, hws, hns, hwritable, rfl⟩ := plain_iff.1 h
  exact ⟨_, leaf_ofParts hws hns, ofLeaf_eq_ok_iff.2 ⟨ws, ns, hws, hns, hwritable, rfl, rfl⟩⟩

theorem Plain.ofLeaf_eq (h : r.Plain) (hleaf : r.leaf = .ok b) : ofLeaf b = .ok r := by
  obtain ⟨b', hleaf', hread⟩ := h.exists_leaf
  rwa [← Except.ok.inj (hleaf.symm.trans hleaf')] at hread

theorem exists_leaves {rows : List Row} (h : ∀ row ∈ rows, row.Plain) :
    ∃ leaves, rows.mapM leaf = .ok leaves :=
  exists_mapM_eq_ok fun row hrow => by
    obtain ⟨b, hb, -⟩ := (h row hrow).exists_leaf
    exact ⟨b, hb⟩

theorem plain_of_ofLeaf (h : ofLeaf b = .ok r) : r.Plain ∧ r.leaf = .ok b := by
  obtain ⟨ws, ns, hws, hns, hwritable, rfl, rfl⟩ := ofLeaf_eq_ok_iff.1 h
  exact ⟨plain_iff.2 ⟨ws, ns, hws, hns, hwritable, rfl⟩, leaf_ofParts hws hns⟩

theorem values_of_ofLeaf (h : ofLeaf b = .ok r) :
    ∃ lhs rhs value : Nat, (r.lhs = lhs ∧ r.rhs = rhs ∧ r.value = value) ∧
      Writable lhs ∧ Writable rhs ∧ Writable value := by
  obtain ⟨-, ns, -, hns, hwritable, -, rfl⟩ := ofLeaf_eq_ok_iff.1 h
  obtain ⟨lhs, rhs, value, rfl⟩ := List.length_eq_three.1 hns
  exact ⟨lhs, rhs, value, ⟨rfl, rfl, rfl⟩, hwritable lhs (by simp), hwritable rhs (by simp),
    hwritable value (by simp)⟩

/-- Plain rows and leaves determine each other. Every plain row has a leaf, from which it is read
back. And every byte string is the leaf of just the row that is read from it, which is plain, or it
is refused with a decoding error, and then it is the leaf of no plain row. -/
theorem ofLeaf_leaf :
    (∀ r : Row, r.Plain → ∃ b, r.leaf = .ok b ∧ ofLeaf b = .ok r) ∧
    ∀ b : Bytes, (∃ r : Row, ofLeaf b = .ok r ∧ r.Plain ∧ r.leaf = .ok b) ∨
      (∃ e : DecodeError, ofLeaf b = .error e) ∧ ∀ r : Row, r.Plain → r.leaf ≠ .ok b := by
  refine ⟨fun r => Plain.exists_leaf, fun b => ?_⟩
  cases h : ofLeaf b with
  | ok r =>
    obtain ⟨hplain, hleaf⟩ := plain_of_ofLeaf h
    exact .inl ⟨r, rfl, hplain, hleaf⟩
  | error e =>
    refine .inr ⟨⟨e, rfl⟩, fun r hplain hleaf => ?_⟩
    obtain ⟨b', hleaf', hread⟩ := hplain.exists_leaf
    rw [hleaf, Except.ok.injEq] at hleaf'
    subst hleaf'
    rw [h] at hread
    cases hread

/-- The row of a product of a number of two limbs, and its leaf with the last limb left out. -/
theorem ofLeaf_leaf_mul :
    let r : Row := ⟨2, 2, 5, 3, 0, 1, 0x100000000, 2, 0x200000000⟩
    let ws : List UInt32 := [2, 2, 5, 3, 0, 1, 2, 0, 1, 1, 2, 2, 0, 2]
    r.Plain ∧ r.leaf = .ok (bytesOfWords ws) ∧ ofLeaf (bytesOfWords ws) = .ok r ∧
      (∃ e, ofLeaf (bytesOfWords ws.dropLast) = .error e) ∧
      ∀ r : Row, r.Plain → r.leaf ≠ .ok (bytesOfWords ws.dropLast) := by
  intro r ws
  have hlt : ∀ n ∈ [0x100000000, 2, 0x200000000], n < 0x100000000 ^ 2 := by decide
  have hplain : r.Plain := plain_iff.2 ⟨[2, 2, 5, 3, 0, 1], [0x100000000, 2, 0x200000000], rfl, rfl,
    fun n hn => Nat.lt_of_le_of_lt (length_limbs_le_iff.2 (hlt n hn)) (by decide), rfl⟩
  obtain ⟨b, hleaf, hread⟩ := ofLeaf_leaf.1 r hplain
  have hbytes : r.leaf.toOption = some (bytesOfWords ws) := by decide +kernel
  rw [hleaf] at hbytes
  obtain rfl : b = bytesOfWords ws := Option.some.inj hbytes
  have hshort : (ofLeaf (bytesOfWords ws.dropLast)).toOption = none := by decide +kernel
  rcases ofLeaf_leaf.2 (bytesOfWords ws.dropLast) with ⟨r', hr', -⟩ | hrefused
  · rw [hr'] at hshort
    cases hshort
  · exact ⟨hplain, hleaf, hread, hrefused⟩

end Row

end CircuitReceipts
