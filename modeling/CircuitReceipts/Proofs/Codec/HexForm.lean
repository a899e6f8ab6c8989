import CircuitReceipts.Proofs.Codec.Hex
import CircuitReceipts.Proofs.Success

/-!
# Hexadecimal forms read back

The hexadecimal form of a value keeps its tuples and has a text in the place of each integer. Read
text by text it gives back the value: integers of any size and of both signs are read as they were
written, and the tuples around them stay.
-/

namespace CircuitReceipts

namespace Value

/-- Integers in nested tuples. -/
inductive IntegerTree : Value → Prop where
  | int (n : Int) : IntegerTree (.int n)
  | tuple {items : List Value} (each : ∀ v ∈ items, IntegerTree v) : IntegerTree (.tuple items)

mutual

/-- The value with an integer in the place of each of its texts, if it is made of the hexadecimal
texts of integers. -/
def ofHexForm? : Value → Option Value
  | text t => (ofHexText t).toOption.map .int
  | tuple items => (ofHexFormEach? items).map .tuple
  | _ => Option.none

def ofHexFormEach? : List Value → Option (List Value)
  | [] => some []
  | w :: ws => do
    let v ← ofHexForm? w
    let vs ← ofHexFormEach? ws
    return v :: vs

end

variable {v : Value} {vs : List Value}

theorem ofHexForm?_text {t : Text} {n : Int} (h : ofHexText t = .ok n) :
    (text t).ofHexForm? = some (.int n) := by
  rw [ofHexForm?, h]
  rfl

theorem exists_hexFormEach (h : ∀ v ∈ vs, ∃ w, v.hexForm = .ok w ∧ w.ofHexForm? = some v) :
    ∃ ws, hexFormEach vs = .ok ws ∧ ofHexFormEach? ws = some vs := by
  induction vs with
  | nil => exact ⟨[], rfl, rfl⟩
  | cons v vs ih =>
    rw [List.forall_mem_cons] at h
    obtain ⟨w, hw, hback⟩ := h.1
    obtain ⟨ws, hws, hbacks⟩ := ih h.2
    refine ⟨w :: ws, ?_, ?_⟩
    · rw [hexFormEach, hw, hws]
      rfl
    · rw [ofHexFormEach?, hback, hbacks]
      rfl

theorem IntegerTree.exists_hexForm (h : v.IntegerTree) :
    ∃ w, v.hexForm = .ok w ∧ w.ofHexForm? = some v := by
  induction h with
  | int n => exact ⟨.text (hexText n), rfl, ofHexForm?_text (ofHexText_hexText n)⟩
  | tuple _ ih =>
    obtain ⟨ws, hws, hbacks⟩ := exists_hexFormEach ih
    refine ⟨.tuple ws, ?_, ?_⟩
    · rw [hexForm, hws]
      rfl
    · rw [ofHexForm?, hbacks]
      rfl

/-- Hexadecimal forms are read back. The text of every integer, a negative one included, is read as
that integer; and integers in nested tuples have a form, which is read back text by text. -/
theorem ofHexForm_hexForm :
    (∀ n : Int, ofHexText (hexText n) = .ok n) ∧
      ∀ v : Value, v.IntegerTree → ∃ w, v.hexForm = .ok w ∧ w.ofHexForm? = some v :=
  ⟨ofHexText_hexText, fun _ => IntegerTree.exists_hexForm⟩

/-- One digit and three, of both signs, and an empty tuple. -/
theorem ofHexForm_hexForm_nested :
    let v : Value := .tuple [.int (-5), .tuple [.int 0xabc, .tuple []], .int 0]
    let w : Value := .tuple [.text "0x-5", .tuple [.text "0xabc", .tuple []], .text "0x00"]
    v.IntegerTree ∧ v.hexForm = .ok w ∧ w.ofHexForm? = some v := by
  intro v w
  have hv : v.IntegerTree := by
    refine .tuple ?_
    simp only [List.forall_mem_cons]
    refine ⟨.int _, .tuple ?_, .int _, by simp⟩
    simp only [List.forall_mem_cons]
    exact ⟨.int _, .tuple (by simp), by simp⟩
  obtain ⟨w', hw', hback⟩ := ofHexForm_hexForm.2 v hv
  have hform : v.hexForm = .ok (.tuple [.text (hexText (-5)),
      .tuple [.text (hexText 0xabc), .tuple []], .text (hexText 0)]) := rfl
  have hw : v.hexForm = .ok w := by
    have htexts : hexText (-5) = "0x-5" ∧ hexText 0xabc = "0xabc" ∧ hexText 0 = "0x00" := by
      decide +kernel
    rw [hform, htexts.1, htexts.2.1, htexts.2.2]
  obtain rfl := Except.ok.inj (hw'.symm.trans hw)
  exact ⟨hv, hw, hback⟩

end Value

end CircuitReceipts
