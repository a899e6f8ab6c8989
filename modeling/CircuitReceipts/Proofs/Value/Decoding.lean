import CircuitReceipts.Proofs.Value.Shape

/-!
# Operands and their encodings

An operand is built of natural numbers by tuples and lists. Its encoding forgets which of the two
was used and keeps everything else: with the shape of the operand it is decoded to the operand with
tuples for its lists. Nothing else is decoded. Whatever a reader takes from a stream for a shape is
the words of as many writable numbers as the shape has places, so the bytes that decode to a value
are the bytes that it encodes to, and all other bytes are refused with a decoding error.
-/

namespace CircuitReceipts

namespace Value

/-- An operand: natural numbers in nested tuples and lists, the limbs of each counted by one
word. -/
inductive Operand : Value → Prop where
  | int {n : Nat} (writable : Writable n) : Operand (.int n)
  | tuple {items : List Value} (each : ∀ v ∈ items, Operand v) : Operand (.tuple items)
  | list {items : List Value} (each : ∀ v ∈ items, Operand v) : Operand (.list items)

mutual

/-- A value with tuples for its lists. -/
def tupled : Value → Value
  | tuple items => .tuple (tupledEach items)
  | list items => .tuple (tupledEach items)
  | v => v

def tupledEach : List Value → List Value
  | [] => []
  | v :: vs => tupled v :: tupledEach vs

end

variable {v : Value} {vs : List Value} {ns : List Nat}

theorem flatten_int (n : Nat) : (int n).flatten = .ok [n] := by
  simp only [flatten, natural, naturalOfInt_natCast, ok_bind]
  rfl

theorem encode_of_flatten (h : v.flatten = .ok ns) : v.encode = .ok (encodeNats ns) := by
  rw [encode, h]
  rfl

theorem flattenEach_cons_eq_ok : flattenEach (v :: vs) = .ok ns ↔
    ∃ front back, v.flatten = .ok front ∧ flattenEach vs = .ok back ∧ ns = front ++ back := by
  simp only [flattenEach, bind_eq_ok, pure_eq_ok]
  constructor
  · rintro ⟨front, hfront, back, hback, rfl⟩
    exact ⟨front, back, hfront, hback, rfl⟩
  · rintro ⟨front, back, hfront, hback, rfl⟩
    exact ⟨front, hfront, back, hback, rfl⟩

theorem exists_flattenEach
    (each : ∀ v ∈ vs, ∃ ns, v.flatten = .ok ns ∧ ∀ n ∈ ns, Writable n) :
    ∃ ns, flattenEach vs = .ok ns ∧ ∀ n ∈ ns, Writable n := by
  induction vs with
  | nil => exact ⟨[], rfl, by simp⟩
  | cons v vs ih =>
    rw [List.forall_mem_cons] at each
    obtain ⟨front, hfront, hwfront⟩ := each.1
    obtain ⟨back, hback, hwback⟩ := ih each.2
    refine ⟨front ++ back, flattenEach_cons_eq_ok.2 ⟨front, back, hfront, hback, rfl⟩, ?_⟩
    exact fun n hn => (List.mem_append.1 hn).elim (hwfront n) (hwback n)

theorem Operand.exists_flatten (h : v.Operand) :
    ∃ ns, v.flatten = .ok ns ∧ ∀ n ∈ ns, Writable n := by
  induction h with
  | @int n writable => exact ⟨[n], flatten_int n, by simpa using writable⟩
  | tuple each ih =>
    obtain ⟨ns, hns⟩ := exists_flattenEach ih
    exact ⟨ns, by rwa [flatten]⟩
  | list each ih =>
    obtain ⟨ns, hns⟩ := exists_flattenEach ih
    exact ⟨ns, by rwa [flatten]⟩

theorem eq_int_of_flatten (hshape : v.shape = .scalar) (h : v.flatten = .ok ns) :
    ∃ n : Nat, v = .int n ∧ ns = [n] := by
  cases v with
  | int n =>
    simp only [flatten, natural, naturalOfInt, bind_eq_ok, guard_eq_ok, pure_eq_ok, Except.ok.injEq]
      at h
    obtain ⟨_, ⟨hn, rfl⟩, rfl⟩ := h
    exact ⟨n.toNat, by rw [Int.toNat_of_nonneg (by omega)], rfl⟩
  | bool b => simp [flatten, natural] at h
  | float x => simp [flatten, natural] at h
  | none => simp [flatten, natural] at h
  | text t => simp [flatten, natural] at h
  | tuple items => simp [shape] at hshape
  | list items => simp [shape] at hshape

mutual

theorem operand_of_flatten : ∀ {v : Value} {ns : List Nat}, v.flatten = .ok ns →
    (∀ n ∈ ns, Writable n) → v.Operand
  | .tuple items, ns, h, hns => .tuple (operands_of_flattenEach (by rwa [flatten] at h) hns)
  | .list items, ns, h, hns => .list (operands_of_flattenEach (by rwa [flatten] at h) hns)
  | .int n, ns, h, hns => by
    obtain ⟨k, hk, rfl⟩ := eq_int_of_flatten rfl h
    rw [hk]
    exact .int (hns k (List.mem_singleton_self k))
  | .bool _, _, h, _ | .float _, _, h, _ | .none, _, h, _ | .text _, _, h, _ => by
    simp [flatten, natural] at h

theorem operands_of_flattenEach : ∀ {vs : List Value} {ns : List Nat},
    flattenEach vs = .ok ns → (∀ n ∈ ns, Writable n) → ∀ v ∈ vs, v.Operand
  | [], _, _, _ => fun _ hv => absurd hv List.not_mem_nil
  | v :: vs, ns, h, hns => by
    obtain ⟨front, back, hfront, hback, rfl⟩ := flattenEach_cons_eq_ok.1 h
    rw [List.forall_mem_append] at hns
    exact List.forall_mem_cons.2
      ⟨operand_of_flatten hfront hns.1, operands_of_flattenEach hback hns.2⟩

end

mutual

theorem length_flatten : ∀ {v : Value} {ns : List Nat}, v.flatten = .ok ns →
    ns.length = v.shape.size
  | .tuple items, ns, h => by
    rw [flatten] at h
    rw [shape, Shape.size, length_flattenEach h]
  | .list items, ns, h => by
    rw [flatten] at h
    rw [shape, Shape.size, length_flattenEach h]
  | .int n, ns, h => by
    obtain ⟨k, -, rfl⟩ := eq_int_of_flatten rfl h
    rfl
  | .bool _, _, h | .float _, _, h | .none, _, h | .text _, _, h => by
    simp [flatten, natural] at h

theorem length_flattenEach : ∀ {vs : List Value} {ns : List Nat}, flattenEach vs = .ok ns →
    ns.length = Shape.sizeEach (shapeEach vs)
  | [], ns, h => by
    cases h
    rfl
  | v :: vs, ns, h => by
    obtain ⟨front, back, hfront, hback, rfl⟩ := flattenEach_cons_eq_ok.1 h
    rw [List.length_append, shapeEach, Shape.sizeEach, length_flatten hfront,
      length_flattenEach hback]

end

mutual

/-- A value is determined by its shape and the numbers it encodes, up to the difference between
tuples and lists. -/
theorem tupled_eq_fill : ∀ {v : Value} {ns : List Nat}, v.flatten = .ok ns →
    v.tupled = v.shape.fill ns
  | .tuple items, ns, h => by
    rw [flatten] at h
    rw [tupled, shape, Shape.fill_tuple, tupledEach_eq_fillEach h]
  | .list items, ns, h => by
    rw [flatten] at h
    rw [tupled, shape, Shape.fill_tuple, tupledEach_eq_fillEach h]
  | .int n, ns, h => by
    obtain ⟨k, hk, rfl⟩ := eq_int_of_flatten rfl h
    rw [hk]
    rfl
  | .bool _, _, h | .float _, _, h | .none, _, h | .text _, _, h => by
    simp [flatten, natural] at h

theorem tupledEach_eq_fillEach : ∀ {vs : List Value} {ns : List Nat}, flattenEach vs = .ok ns →
    tupledEach vs = Shape.fillEach (shapeEach vs) ns
  | [], _, _ => rfl
  | v :: vs, ns, h => by
    obtain ⟨front, back, hfront, hback, rfl⟩ := flattenEach_cons_eq_ok.1 h
    rw [tupledEach, shapeEach, Shape.fillEach_cons (proper_shape v) (length_flatten hfront),
      tupled_eq_fill hfront, tupledEach_eq_fillEach hback]

end

end Value

namespace Shape

variable {s : Shape} {b : Bytes} {v : Value}

/-- Bytes decode to a value exactly if they are the encoding of as many writable numbers as the
shape has places, and the value is made of these. -/
theorem decode_eq_ok_iff (hproper : s.proper = true) : decode b s = .ok v ↔
    ∃ ns : List Nat, ns.length = s.size ∧ (∀ n ∈ ns, Writable n) ∧ v = s.fill ns ∧
      b = encodeNats ns := by
  simp only [decode_eq b hproper, mapError_eq_ok, map_eq_ok, decodeNumbers_eq_ok_iff]
  constructor
  · rintro ⟨ns, ⟨hlen, hwritable, hb⟩, rfl⟩
    exact ⟨ns, hlen, hwritable, rfl, hb⟩
  · rintro ⟨ns, hlen, hwritable, rfl, hb⟩
    exact ⟨ns, ⟨hlen, hwritable, hb⟩, rfl⟩

theorem error_of_decode (hproper : s.proper = true) {e : ReadError} (h : decode b s = .error e) :
    ∃ cause, e = .decode cause := by
  rw [decode_eq b hproper, mapError_eq_error] at h
  obtain ⟨cause, -, rfl⟩ := h
  exact ⟨cause, rfl⟩

/-- The numbers that a value encodes decode with its shape to the value with tuples for its lists.
-/
theorem decode_of_flatten {ns : List Nat} (h : v.flatten = .ok ns) (hns : ∀ n ∈ ns, Writable n) :
    decode (encodeNats ns) v.shape = .ok v.tupled := by
  rw [Value.tupled_eq_fill h]
  exact decode_encodeNats (Value.proper_shape v) (Value.length_flatten h) hns

/-- A decoded value is an operand without lists, of the shape and with the encoding that it was
decoded from. -/
theorem of_decode (hproper : s.proper = true) (h : decode b s = .ok v) :
    v.Operand ∧ v.tupled = v ∧ v.shape = s ∧ v.encode = .ok b := by
  obtain ⟨ns, hlen, hwritable, rfl, rfl⟩ := (decode_eq_ok_iff hproper).1 h
  have hns := flatten_fill s ns hproper hlen
  have hshape := shape_fill s ns hproper hlen
  refine ⟨Value.operand_of_flatten hns hwritable, ?_, hshape, Value.encode_of_flatten hns⟩
  rw [Value.tupled_eq_fill hns, hshape]

/-- Tuples in the place of lists change neither the shape of an operand nor its encoding. -/
theorem shape_and_encode_tupled (hv : v.Operand) :
    v.tupled.shape = v.shape ∧ v.tupled.encode = v.encode := by
  obtain ⟨ns, hns, -⟩ := hv.exists_flatten
  have hproper := Value.proper_shape v
  have hlen := Value.length_flatten hns
  rw [Value.tupled_eq_fill hns, shape_fill _ ns hproper hlen, Value.encode_of_flatten hns,
    Value.encode_of_flatten (flatten_fill _ ns hproper hlen)]
  exact ⟨rfl, rfl⟩

/-- The codec is an exact bijection. Every operand has an encoding, which decodes with its shape to
the operand with tuples for its lists. Conversely, bytes decode with a shape to an operand exactly
if it has that shape and encodes to just these bytes; a decoded value is an operand without lists;
and where there is no such operand, there is a decoding error. -/
theorem decode_encode :
    (∀ v : Value, v.Operand → ∃ b, v.encode = .ok b ∧ decode b v.shape = .ok v.tupled) ∧
    ∀ (b : Bytes) (s : Shape), s.proper = true →
      (∀ v : Value, v.Operand →
        (decode b s = .ok v.tupled ↔ v.shape = s ∧ v.encode = .ok b)) ∧
      (∀ v : Value, decode b s = .ok v → v.Operand ∧ v.tupled = v) ∧
      ((∀ v : Value, v.Operand → v.shape = s → v.encode ≠ .ok b) →
        ∃ cause, decode b s = .error (.decode cause)) := by
  refine ⟨fun v hv => ?_, fun b s hproper => ⟨fun v hv => ⟨fun h => ?_, ?_⟩, fun v h => ?_,
    fun hnone => ?_⟩⟩
  · obtain ⟨ns, hns, hwritable⟩ := hv.exists_flatten
    exact ⟨_, Value.encode_of_flatten hns, decode_of_flatten hns hwritable⟩
  · obtain ⟨-, -, hshape, hbytes⟩ := of_decode hproper h
    obtain ⟨hshape', hbytes'⟩ := shape_and_encode_tupled hv
    exact ⟨hshape'.symm.trans hshape, hbytes'.symm.trans hbytes⟩
  · rintro ⟨rfl, hbytes⟩
    obtain ⟨ns, hns, hwritable⟩ := hv.exists_flatten
    obtain rfl := Except.ok.inj ((Value.encode_of_flatten hns).symm.trans hbytes)
    exact decode_of_flatten hns hwritable
  · obtain ⟨hv, htupled, -⟩ := of_decode hproper h
    exact ⟨hv, htupled⟩
  · cases h : decode b s with
    | ok v =>
      obtain ⟨hv, -, hshape, hbytes⟩ := of_decode hproper h
      exact absurd hbytes (hnone v hv hshape)
    | error e =>
      obtain ⟨cause, rfl⟩ := error_of_decode hproper h
      exact ⟨cause, rfl⟩

/-- A tuple of a number, and of a list of a number of two limbs and an empty tuple. -/
theorem decode_encode_nested :
    let v : Value := .tuple [.int 1, .list [.int 0x100000000, .tuple []]]
    let s : Shape := .tuple [.scalar, .tuple [.scalar, .tuple []]]
    let b : Bytes := [1, 0, 0, 0, 1, 0, 0, 0, 2, 0, 0, 0, 0, 0, 0, 0, 1, 0, 0, 0]
    v.Operand ∧ v.shape = s ∧ v.encode = .ok b ∧
      decode b s = .ok (.tuple [.int 1, .tuple [.int 0x100000000, .tuple []]]) := by
  intro v s b
  have hflatten : v.flatten = .ok [1, 0x100000000] := rfl
  have hwritable : ∀ n ∈ [1, 0x100000000], Writable n := by
    intro n hn
    have hlt : n < 0x100000000 ^ 2 := by
      revert n
      decide
    exact Nat.lt_of_le_of_lt (length_limbs_le_iff.2 hlt) (by decide)
  have hv : v.Operand := Value.operand_of_flatten hflatten hwritable
  have hbytes : encodeNats [1, 0x100000000] = b := by decide +kernel
  have hencode : v.encode = .ok b := hbytes ▸ Value.encode_of_flatten hflatten
  exact ⟨hv, rfl, hencode, ((decode_encode.2 b s rfl).1 v hv).2 ⟨rfl, hencode⟩⟩

end Shape

end CircuitReceipts
