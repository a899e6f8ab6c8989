import CircuitReceipts.Proofs.Receipt.Required
import CircuitReceipts.Proofs.Transcript.Slicing
import CircuitReceipts.Proofs.Transcript.Squeezing

/-!
# More queries

A seal with more queries opens more rows. From one state of a transcript a longer run of draws
begins with the shorter one: the elements that are drawn for it begin with those that are drawn for
the shorter run, and a value depends on no bit behind its own, although the shorter run may end in
the middle of an element and of a block. The rows to be opened are a closure, and a closure grows
with its roots.
-/

namespace CircuitReceipts

namespace Transcript

variable {bits more : List Bool} {width m n : Nat}

/-! ### Longer runs of draws -/

theorem elements_add (t : Transcript) (m n : Nat) :
    (t.elements (m + n)).1 = (t.elements m).1 ++ ((t.elements m).2.elements n).1 := by
  induction m generalizing t with
  | zero => rw [Nat.zero_add, elements, List.nil_append]
  | succ m ih =>
    rw [Nat.add_right_comm]
    exact congrArg (t.element.1 :: ·) (ih t.element.2)

/-- The elements that are drawn do not depend on how many are still to be drawn. -/
theorem elements_isPrefix (t : Transcript) (hmn : m ≤ n) :
    (t.elements m).1 <+: (t.elements n).1 := by
  obtain ⟨k, rfl⟩ := Nat.exists_eq_add_of_le hmn
  rw [elements_add]
  exact List.prefix_append _ _

theorem cut_add (bits : List Bool) (width m n : Nat) :
    cut width bits (m + n) = cut width bits m ++ cut width (bits.drop (m * width)) n := by
  induction m generalizing bits with
  | zero => rw [Nat.zero_add, cut, List.nil_append, Nat.zero_mul, List.drop_zero]
  | succ m ih =>
    rw [Nat.add_right_comm, cut, cut, ih, List.cons_append, List.drop_drop, Nat.succ_mul,
      Nat.add_comm width]

theorem cut_append (h : n * width ≤ bits.length) :
    cut width (bits ++ more) n = cut width bits n := by
  induction n generalizing bits with
  | zero => rfl
  | succ n ih =>
    rw [Nat.succ_mul] at h
    have hwidth : width ≤ bits.length := by omega
    have hrest : n * width ≤ (bits.drop width).length := by
      rw [List.length_drop]
      omega
    rw [cut, cut, List.take_append_of_le_length hwidth, List.drop_append_of_le_length hwidth,
      ih hrest]

theorem cut_isPrefix {all : List Bool} (hbits : bits <+: all) (henough : m * width ≤ bits.length)
    (hmn : m ≤ n) : cut width bits m <+: cut width all n := by
  obtain ⟨more, rfl⟩ := hbits
  obtain ⟨k, rfl⟩ := Nat.exists_eq_add_of_le hmn
  rw [cut_add, cut_append henough]
  exact List.prefix_append _ _

theorem le_elementCount (bits : Int) : bits ≤ bitsPerElement * elementCount bits := by
  simp only [elementCount, bitsPerElement]
  omega

theorem elementCount_mono {a b : Int} (hab : a ≤ b) : elementCount a ≤ elementCount b := by
  simp only [elementCount, bitsPerElement]
  omega

/-- Values of at least one bit, of which fewer are drawn, come first when more are drawn. -/
theorem draw_isPrefix_of_pos (t : Transcript) {k n w : Int} (hk : 0 ≤ k) (hkn : k ≤ n)
    (hw : 0 < w) : (t.draw k w).1 <+: (t.draw n w).1 := by
  have hdrawn (c : Int) : (Call.draw c w).drawn = elementCount (c * w) :=
    if_neg (Int.ne_of_gt hw)
  have hbits : k * w ≤ n * w := Int.mul_le_mul_of_nonneg_right hkn (Int.le_of_lt hw)
  have helements := elements_isPrefix t (elementCount_mono hbits)
  rw [draw_eq_cut, draw_eq_cut, hdrawn, hdrawn]
  refine cut_isPrefix ?_ ?_ (Int.toNat_le_toNat hkn)
  · obtain ⟨more, hmore⟩ := helements
    rw [← hmore, List.flatMap_append]
    exact List.prefix_append _ _
  · have hroom := le_elementCount (k * w)
    have hproduct : ((k.toNat * w.toNat : Nat) : Int) = k * w := by
      rw [Int.natCast_mul, Int.toNat_of_nonneg hk, Int.toNat_of_nonneg (Int.le_of_lt hw)]
    rw [length_flatMap_lowBits, length_elements]
    omega

theorem draw_isPrefix (t : Transcript) {k n : Int} (hkn : k ≤ n) (w : Int) :
    (t.draw k w).1 <+: (t.draw n w).1 := by
  rcases Int.lt_or_le 0 w with hw | hw
  · rcases Int.le_total 0 k with hk | hk
    · exact draw_isPrefix_of_pos t hk hkn hw
    · rw [draw_eq_cut, Int.toNat_of_nonpos hk]
      exact List.nil_prefix
  · rw [draw_eq_cut, draw_eq_cut, Int.toNat_of_nonpos hw, cut_zero, cut_zero,
      List.prefix_replicate_iff]
    simpa using Int.toNat_le_toNat hkn

end Transcript

namespace Code

variable {code : Code} {roots roots' challenges challenges' : List Nat}

/-! ### More rows -/

theorem closure_mono (hroots : ∀ r ∈ roots', r < code.size) (hsub : roots ⊆ roots') :
    code.closure roots ⊆ code.closure roots' := fun pc hpc =>
  closure_subset (S := (· ∈ code.closure roots'))
    (fun hw _ hs => sources_subset_closure hw hs)
    (fun r hr => mem_closure_of_mem (hsub hr) (hroots r (hsub hr))) pc hpc

theorem picked_mono (hsub : challenges ⊆ challenges') :
    code.picked challenges ⊆ code.picked challenges' := by
  intro pc hpc
  obtain ⟨q, hq, hplace⟩ := mem_picked.1 hpc
  exact mem_picked.2 ⟨q, hsub hq, hplace⟩

/-- More queries open more rows. From one state of a transcript, fewer values of any width are the
first of those that are drawn when more are asked for; so of the rows of a program that has any, all
that have to be opened under fewer queries have to be opened under more. -/
theorem openedRows_subset_of_le (t : Transcript) {k n : Int} (hkn : k ≤ n) :
    (∀ width : Int, (t.draw k width).1 <+: (t.draw n width).1) ∧
      ∀ code : Code, 0 < code.size → ∃ rows more, code.openedRows t k = .ok rows ∧
        code.openedRows t n = .ok more ∧ rows ⊆ more := by
  refine ⟨t.draw_isPrefix hkn, fun code hcode => ?_⟩
  refine ⟨_, _, openedRows_eq hcode t k, openedRows_eq hcode t n, ?_⟩
  have hpicked : code.picked (t.draw k (challengeWidth code.size)).1 ⊆
      code.picked (t.draw n (challengeWidth code.size)).1 :=
    picked_mono (t.draw_isPrefix hkn _).subset
  refine closure_mono (lt_of_mem_roots hcode) ?_
  rw [List.append_assoc, List.append_assoc]
  exact List.append_subset.2
    ⟨List.subset_append_of_subset_left _ hpicked, List.subset_append_right _ _⟩

/-- Two values of forty bits end in the middle of the second element, and four take a third one. -/
theorem openedRows_subset_of_le_two :
    let t := (Transcript.new .sha256 Transcript.standardDomain).put [1, 2, 3]
    let code : Code := Operation.extfieldsub.program.instructions
    (2 : Int) ≤ 4 ∧ (Transcript.Call.draw 2 40).drawn = 2 ∧
      (Transcript.Call.draw 4 40).drawn = 3 ∧ (t.draw 2 40).1 <+: (t.draw 4 40).1 ∧
      0 < code.size ∧ ∃ rows more, code.openedRows t 2 = .ok rows ∧
        code.openedRows t 4 = .ok more ∧ rows ⊆ more := by
  intro t code
  have htwo : (2 : Int) ≤ 4 := by decide
  have hcode : 0 < code.size := by decide
  obtain ⟨hdraw, hopened⟩ := openedRows_subset_of_le t htwo
  exact ⟨htwo, by decide, by decide, hdraw 40, hcode, hopened code hcode⟩

end Code

end CircuitReceipts
