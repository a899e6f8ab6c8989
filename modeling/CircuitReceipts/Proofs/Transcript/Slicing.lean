import CircuitReceipts.Transcript
import Mathlib.Algebra.Order.Floor.Div
import Mathlib.Data.Nat.Digits.Defs

/-!
# Slices of challenge bits

The values that a transcript draws are slices of one number, the one that the low bits of the drawn
elements spell. There are as many elements as hold the bits of the values and no more. So a cursor
that walks over the elements bit by bit, as many bits as the values have, reads the values, and it
never leaves the elements; only at the end may it stand one element behind the last.
-/

namespace CircuitReceipts

namespace Transcript

variable {t : Transcript} {xs : List Nat} {bits : List Bool}

/-! ### Numbers spelled by bits -/

theorem ofBits_append (bs cs : List Bool) :
    ofBits (bs ++ cs) = ofBits bs + 2 ^ bs.length * ofBits cs := by
  induction bs with
  | nil => simp [ofBits]
  | cons b bs ih =>
    rw [List.cons_append, ofBits, ofBits, ih, List.length_cons, Nat.pow_succ', Nat.mul_add,
      Nat.add_assoc, Nat.mul_assoc]

theorem ofBits_cons_div_two (b : Bool) (bs : List Bool) :
    (b.toNat + 2 * ofBits bs) / 2 = ofBits bs := by
  have := b.toNat_lt
  omega

theorem ofBits_take (count : Nat) (bs : List Bool) :
    ofBits (bs.take count) = ofBits bs % 2 ^ count := by
  induction count generalizing bs with
  | zero => simp [ofBits, Nat.mod_one]
  | succ count ih =>
    cases bs with
    | nil => simp [ofBits]
    | cons b bs =>
      have hbit : (b.toNat + 2 * ofBits bs) % 2 = b.toNat := by cases b <;> simp
      rw [List.take_succ_cons, ofBits, ofBits, ih, Nat.pow_succ', Nat.mod_mul, hbit,
        ofBits_cons_div_two]

theorem ofBits_drop (count : Nat) (bs : List Bool) :
    ofBits (bs.drop count) = ofBits bs / 2 ^ count := by
  induction count generalizing bs with
  | zero => simp
  | succ count ih =>
    cases bs with
    | nil => simp [ofBits]
    | cons b bs =>
      rw [List.drop_succ_cons, ofBits, ih, Nat.pow_succ', ← Nat.div_div_eq_div_mul,
        ofBits_cons_div_two]

theorem lowBits_succ (count n : Nat) :
    lowBits (count + 1) n = n.testBit 0 :: lowBits count (n / 2) := by
  rw [lowBits, List.range_succ_eq_map, List.map_cons, List.map_map]
  congr 1
  exact List.map_congr_left fun j _ => Nat.testBit_succ n j

theorem ofBits_lowBits (count n : Nat) : ofBits (lowBits count n) = n % 2 ^ count := by
  induction count generalizing n with
  | zero => simp [lowBits, ofBits, Nat.mod_one]
  | succ count ih =>
    have hbit : (n.testBit 0).toNat = n % 2 := by
      rw [Nat.testBit_zero]
      rcases Nat.mod_two_eq_zero_or_one n with h | h <;> rw [h] <;> rfl
    rw [lowBits_succ, ofBits, ih, hbit, Nat.pow_succ', Nat.mod_mul]

/-- The number that the low bits of elements spell, the first element lowest. -/
def spelled (xs : List Nat) : Nat :=
  Nat.ofDigits (2 ^ bitsPerElement) (xs.map (· % 2 ^ bitsPerElement))

theorem ofBits_flatMap_lowBits (xs : List Nat) :
    ofBits (xs.flatMap (lowBits bitsPerElement)) = spelled xs := by
  induction xs with
  | nil => rfl
  | cons x xs ih =>
    rw [List.flatMap_cons, ofBits_append, ih, ofBits_lowBits, length_lowBits, spelled, spelled,
      List.map_cons, Nat.ofDigits_cons]

/-- The values that are cut from bits are slices of the number that the bits spell. -/
theorem getElem?_cut {width count i : Nat} (bits : List Bool) (hi : i < count) :
    (cut width bits count)[i]? = some (ofBits bits / 2 ^ (i * width) % 2 ^ width) := by
  induction count generalizing bits i with
  | zero => exact absurd hi (Nat.not_lt_zero i)
  | succ count ih =>
    rw [cut]
    cases i with
    | zero => rw [List.getElem?_cons_zero, ofBits_take, Nat.zero_mul, Nat.pow_zero, Nat.div_one]
    | succ i =>
      rw [List.getElem?_cons_succ, ih _ (Nat.lt_of_succ_lt_succ hi), ofBits_drop,
        Nat.div_div_eq_div_mul, ← Nat.pow_add, Nat.succ_mul, Nat.add_comm width]

/-! ### Walking over the bits of elements -/

/-- A place in a list of elements: a bit of one of them. -/
structure Cursor where
  element : Nat
  bit : Nat
deriving DecidableEq

namespace Cursor

def behind (bits : Nat) : Cursor :=
  ⟨bits / bitsPerElement, bits % bitsPerElement⟩

/-- The cursor one bit further on, which may be the first bit of the next element. -/
def next (c : Cursor) : Cursor :=
  if c.bit + 1 = bitsPerElement then ⟨c.element + 1, 0⟩ else ⟨c.element, c.bit + 1⟩

theorem next_behind (p : Nat) : (behind p).next = behind (p + 1) := by
  by_cases hlast : p % 63 + 1 = 63
  · have hnext : (behind p).next = ⟨p / 63 + 1, 0⟩ := if_pos hlast
    have hbehind : behind (p + 1) = ⟨(p + 1) / 63, (p + 1) % 63⟩ := rfl
    rw [hnext, hbehind, Cursor.mk.injEq]
    omega
  · have hnext : (behind p).next = ⟨p / 63, p % 63 + 1⟩ := if_neg hlast
    have hbehind : behind (p + 1) = ⟨(p + 1) / 63, (p + 1) % 63⟩ := rfl
    rw [hnext, hbehind, Cursor.mk.injEq]
    omega

end Cursor

/-- The bit at a cursor, if the cursor is at an element. -/
def bitAt? (xs : List Nat) (c : Cursor) : Option Bool :=
  xs[c.element]?.map (·.testBit c.bit)

/-- A number read bit by bit from a cursor on, the lowest bit first, and the cursor behind it. -/
def readNumber? (xs : List Nat) (c : Cursor) : (width : Nat) → Option (Nat × Cursor)
  | 0 => some (0, c)
  | width + 1 => do
    let bit ← bitAt? xs c
    let (n, c) ← readNumber? xs c.next width
    return (bit.toNat + 2 * n, c)

/-- Numbers of one width read one after another. -/
def readNumbers? (xs : List Nat) (width : Nat) (c : Cursor) :
    (count : Nat) → Option (List Nat × Cursor)
  | 0 => some ([], c)
  | count + 1 => do
    let (n, c) ← readNumber? xs c width
    let (ns, c) ← readNumbers? xs width c count
    return (n :: ns, c)

theorem length_flatMap_lowBits (xs : List Nat) :
    (xs.flatMap (lowBits bitsPerElement)).length = bitsPerElement * xs.length := by
  simp [List.length_flatMap, Nat.mul_comm]

theorem bitAt?_behind (xs : List Nat) (p : Nat) :
    bitAt? xs (.behind p) = (xs.flatMap (lowBits bitsPerElement))[p]? := by
  induction xs generalizing p with
  | nil => rfl
  | cons x xs ih =>
    rw [List.flatMap_cons]
    rcases Nat.lt_or_ge p bitsPerElement with hp | hp
    · rw [List.getElem?_append_left (by rwa [length_lowBits]), bitAt?, Cursor.behind,
        Nat.div_eq_of_lt hp, Nat.mod_eq_of_lt hp]
      simp [lowBits, hp]
    · obtain ⟨q, rfl⟩ := Nat.exists_eq_add_of_le hp
      have hpos : 0 < bitsPerElement := by decide
      rw [List.getElem?_append_right (by rwa [length_lowBits]), length_lowBits,
        Nat.add_sub_cancel_left, ← ih, bitAt?, bitAt?, Cursor.behind, Cursor.behind,
        Nat.add_div_left q hpos, Nat.add_mod_left, List.getElem?_cons_succ]

/-- As long as the bits last, a number is read from them. -/
theorem readNumber?_behind {p width : Nat} (h : p + width ≤ bitsPerElement * xs.length) :
    readNumber? xs (.behind p) width =
      some (ofBits (((xs.flatMap (lowBits bitsPerElement)).drop p).take width),
        .behind (p + width)) := by
  induction width generalizing p with
  | zero => rfl
  | succ width ih =>
    have hp : p < (xs.flatMap (lowBits bitsPerElement)).length := by
      rw [length_flatMap_lowBits]
      omega
    rw [readNumber?, bitAt?_behind, List.getElem?_eq_getElem hp, Cursor.next_behind,
      ih (by omega), List.drop_eq_getElem_cons hp, List.take_succ_cons, ofBits, Nat.add_assoc p 1,
      Nat.add_comm 1]
    rfl

/-- As long as the bits last, values are read from them as they are cut from them. -/
theorem readNumbers?_behind {p width count : Nat}
    (h : p + count * width ≤ bitsPerElement * xs.length) :
    readNumbers? xs width (.behind p) count =
      some (cut width ((xs.flatMap (lowBits bitsPerElement)).drop p) count,
        .behind (p + count * width)) := by
  induction count generalizing p with
  | zero => rw [readNumbers?, cut, Nat.zero_mul, Nat.add_zero]
  | succ count ih =>
    rw [Nat.succ_mul] at h
    rw [readNumbers?, readNumber?_behind (by omega)]
    have hrest := ih (p := p + width) (by omega)
    simp only [Option.bind_eq_bind, Option.bind_some, hrest, cut, List.drop_drop, Nat.succ_mul]
    congr 3
    omega

/-! ### Drawn values -/

theorem length_elements (t : Transcript) (count : Nat) : (t.elements count).1.length = count := by
  induction count generalizing t with
  | zero => rfl
  | succ count ih => exact congrArg (· + 1) (ih t.element.2)

theorem elementCount_natCast (bits : Nat) : elementCount bits = bits ⌈/⌉ bitsPerElement := by
  rw [Nat.ceilDiv_eq_add_pred_div, elementCount]
  simp only [bitsPerElement]
  omega

/-- Values of at least one bit are drawn as slices. The elements that are drawn for them are as many
as hold their bits. A cursor that walks over these elements from the first bit on reads the values
without leaving the elements. Each value is the slice at its place of the number that the elements
spell, and is as wide as was asked for. -/
theorem draw_slices (t : Transcript) (count : Nat) {width : Nat} (hwidth : 0 < width) :
    let drawn := t.elements (count * width ⌈/⌉ bitsPerElement)
    let values := (t.draw count width).1
    (t.draw count width).2 = drawn.2 ∧ drawn.1.length = count * width ⌈/⌉ bitsPerElement ∧
      readNumbers? drawn.1 width ⟨0, 0⟩ count = some (values, .behind (count * width)) ∧
      values.length = count ∧
      (∀ i < count, values[i]? = some (spelled drawn.1 / 2 ^ (i * width) % 2 ^ width)) ∧
      ∀ v ∈ values, v < 2 ^ width := by
  intro drawn values
  have hdraw : t.draw count width =
      (cut width (drawn.1.flatMap (lowBits bitsPerElement)) count, drawn.2) := by
    rw [draw, if_neg (by omega), ← Int.natCast_mul, elementCount_natCast]
    rfl
  have hvalues : values = cut width (drawn.1.flatMap (lowBits bitsPerElement)) count :=
    congrArg Prod.fst hdraw
  have hlength : drawn.1.length = count * width ⌈/⌉ bitsPerElement := length_elements ..
  have henough : count * width ≤ bitsPerElement * drawn.1.length := by
    have hpos : 0 < bitsPerElement := by decide
    rw [hlength]
    exact le_smul_ceilDiv hpos
  have hslice (i : Nat) (hi : i < count) :
      values[i]? = some (spelled drawn.1 / 2 ^ (i * width) % 2 ^ width) := by
    rw [hvalues, getElem?_cut _ hi, ofBits_flatMap_lowBits]
  refine ⟨by rw [hdraw], hlength, ?_, ?_, hslice, fun v hv => ?_⟩
  · have hread := readNumbers?_behind (p := 0) ((Nat.zero_add _).trans_le henough)
    rwa [List.drop_zero, ← hvalues, Nat.zero_add] at hread
  · rw [hvalues, length_cut]
  · obtain ⟨i, hi, rfl⟩ := List.mem_iff_getElem.1 hv
    have hcount : i < count := by rwa [hvalues, length_cut] at hi
    rw [Option.some.inj ((List.getElem?_eq_getElem hi).symm.trans (hslice i hcount))]
    exact Nat.mod_lt _ (Nat.two_pow_pos width)

/-- Nine values of seven bits use up one element, and the cursor comes to stand behind it. -/
theorem draw_slices_of_full_element :
    let t := (new .sha256 standardDomain).put [1, 2, 3]
    let drawn := t.elements 1
    let values := (t.draw (9 : Nat) (7 : Nat)).1
    0 < 7 ∧ (t.draw (9 : Nat) (7 : Nat)).2 = drawn.2 ∧ drawn.1.length = 1 ∧
      readNumbers? drawn.1 7 ⟨0, 0⟩ 9 = some (values, ⟨1, 0⟩) ∧ values.length = 9 ∧
      (∀ i < 9, values[i]? = some (spelled drawn.1 / 2 ^ (i * 7) % 2 ^ 7)) ∧
      ∀ v ∈ values, v < 2 ^ 7 := by
  intro t drawn values
  have hseven : 0 < 7 := by decide
  have hone : 9 * 7 ⌈/⌉ bitsPerElement = 1 := by decide
  have hbehind : Cursor.behind (9 * 7) = ⟨1, 0⟩ := by decide
  have hslices := draw_slices t 9 hseven
  rw [hone, hbehind] at hslices
  exact ⟨hseven, hslices⟩

end Transcript

end CircuitReceipts
