import CircuitReceipts.Proofs.Value.Decoding

/-!
# Flat and nested

A list of numbers, a value of a shape and a stream of words hold the same numbers in the same order.
Integers are put into a shape by a walk that takes them off the front of the list, and which never
finds the list exhausted, and ends exactly at its end, if there are as many of them as the shape has
places. And what is decoded with a shape is what is decoded with the flat shape of as many places,
put into it; where the one is refused, so is the other, for the same reason.
-/

namespace CircuitReceipts

namespace Shape

/-! ### Taking integers off a list -/

mutual

/-- The value of the shape with the integers at the front of a list, and the rest of the list,
unless the list is exhausted before the shape is filled. -/
def take? : Shape → List Int → Option (Value × List Int)
  | tuple parts, zs => (takeEach? parts zs).map fun (vs, rest) => (.tuple vs, rest)
  | _, [] => Option.none
  | _, z :: zs => some (.int z, zs)

def takeEach? : List Shape → List Int → Option (List Value × List Int)
  | [], zs => some ([], zs)
  | s :: ss, zs => do
    let (v, rest) ← take? s zs
    let (vs, rest) ← takeEach? ss rest
    return (v :: vs, rest)

end

variable {s : Shape} {zs : List Int} {v : Value}

mutual

theorem take_snd : ∀ (s : Shape) (zs : List Int), (s.take zs).2 = zs.drop s.size
  | tuple parts, zs => takeEach_snd parts zs
  | scalar, _ | list _, _ | text _, _ | none, _ | number _, _ => List.drop_one.symm

theorem takeEach_snd : ∀ (ss : List Shape) (zs : List Int),
    (takeEach ss zs).2 = zs.drop (sizeEach ss)
  | [], zs => rfl
  | s :: ss, zs => by
    have hrest : (takeEach (s :: ss) zs).2 = (takeEach ss (s.take zs).2).2 := rfl
    rw [hrest, take_snd s, takeEach_snd ss, List.drop_drop, sizeEach]

end

mutual

/-- The list is exhausted only if it is shorter than the shape has places. -/
theorem take?_eq : ∀ (s : Shape) (zs : List Int),
    s.take? zs = if s.size ≤ zs.length then some (s.take zs) else Option.none
  | tuple parts, zs => by
    rw [take?, takeEach?_eq parts zs, size, take]
    split <;> rfl
  | scalar, zs | list _, zs | text _, zs | none, zs | number _, zs => by
    cases zs <;> simp [take?, take, size]

theorem takeEach?_eq : ∀ (ss : List Shape) (zs : List Int),
    takeEach? ss zs = if sizeEach ss ≤ zs.length then some (takeEach ss zs) else Option.none
  | [], zs => rfl
  | s :: ss, zs => by
    rw [takeEach?, take?_eq s zs, sizeEach]
    by_cases hfront : s.size ≤ zs.length
    · have hback : sizeEach ss ≤ (zs.drop s.size).length ↔ s.size + sizeEach ss ≤ zs.length := by
        rw [List.length_drop]
        omega
      simp only [if_pos hfront, Option.bind_eq_bind, Option.bind_some, take_snd, takeEach?_eq ss,
        hback]
      split
      · rw [takeEach, ← take_snd s zs]
        rfl
      · rfl
    · have hshort : ¬s.size + sizeEach ss ≤ zs.length := by omega
      rw [if_neg hfront, if_neg hshort]
      rfl

end

theorem group_eq_ok_iff : s.group zs = .ok v ↔ s.take? zs = some (v, []) := by
  have htake : s.take zs = (v, []) ↔ zs.length ≤ s.size ∧ (s.take zs).1 = v := by
    rw [Prod.ext_iff, take_snd, List.drop_eq_nil_iff, and_comm]
  rw [group, take?_eq]
  split
  · next hlen =>
    rw [if_pos (Nat.le_of_eq hlen.symm), Option.some.injEq, htake, Except.ok.injEq]
    simp [hlen]
  · next hlen =>
    simp only [reduceCtorEq, Option.ite_none_right_eq_some, Option.some.injEq, htake, false_iff]
    omega

theorem exists_group_iff : (∃ v, s.group zs = .ok v) ↔ zs.length = s.size := by
  rw [group]
  split
  · next hlen => simp [hlen]
  · next hlen => simp [hlen]

theorem group_eq_fill {ns : List Nat} (hlen : ns.length = s.size) :
    s.group (ns.map Int.ofNat) = .ok (s.fill ns) :=
  if_pos ((List.length_map Int.ofNat).trans hlen)

/-! ### The flat shape -/

def flat (count : Nat) : Shape :=
  tuple (List.replicate count scalar)

@[simp] theorem size_flat (count : Nat) : (flat count).size = count := by
  rw [flat, size]
  induction count with
  | zero => rfl
  | succ count ih =>
    rw [List.replicate_succ, sizeEach, ih]
    exact Nat.add_comm 1 count

@[simp] theorem proper_flat (count : Nat) : (flat count).proper = true := by
  rw [flat, proper]
  induction count with
  | zero => rfl
  | succ count ih => rw [List.replicate_succ, properEach, ih]; rfl

theorem fill_flat (ns : List Nat) :
    (flat ns.length).fill ns = .tuple (ns.map fun (n : Nat) => .int n) := by
  rw [flat, fill_tuple]
  congr 1
  induction ns with
  | nil => rfl
  | cons n ns ih =>
    have hcons : fillEach (.scalar :: List.replicate ns.length .scalar) ([n] ++ ns) =
        .int n :: fillEach (List.replicate ns.length .scalar) ns :=
      fillEach_cons rfl rfl
    rw [List.length_cons, List.replicate_succ, List.map_cons, ← ih, ← hcons, List.singleton_append]

theorem decode_flat (b : Bytes) (count : Nat) : decode b (flat count) =
    ((decodeNumbers b count).map fun ns => .tuple (ns.map fun (n : Nat) => .int n)).mapError
      .decode := by
  rw [decode_eq b (proper_flat count), size_flat]
  cases h : decodeNumbers b count with
  | error e => rfl
  | ok ns =>
    obtain rfl := length_of_decodeNumbers h
    simp only [Except.map, fill_flat]

/-- Integers side by side, in a list, encode themselves. -/
theorem encode_list (ns : List Nat) :
    (Value.list (ns.map fun (n : Nat) => .int n)).encode = .ok (encodeNats ns) := by
  have hflatten : Value.flattenEach (ns.map fun (n : Nat) => .int n) = .ok ns := by
    induction ns with
    | nil => rfl
    | cons n ns ih =>
      exact Value.flattenEach_cons_eq_ok.2 ⟨[n], ns, Value.flatten_int n, ih, rfl⟩
  exact Value.encode_of_flatten hflatten

/-- Arranging, flattening and decoding agree on every shape. Writable numbers are arranged in a
shape exactly if there are as many of them as it has places, which is if the walk along the list
uses it up; what comes out has the shape, and holds and encodes just these numbers. And bytes decode
with a shape exactly if they do with the flat shape of as many places, and to the numbers that they
decode to there, arranged in the shape; otherwise both are refused with the same error. -/
theorem group_eq_decode (s : Shape) (hproper : s.proper = true) :
    (∀ ns : List Nat, (∀ n ∈ ns, Writable n) →
      ((∃ v, s.group (ns.map Int.ofNat) = .ok v) ↔ ns.length = s.size) ∧
      ∀ v, s.group (ns.map Int.ofNat) = .ok v →
        s.take? (ns.map Int.ofNat) = some (v, []) ∧ v.shape = s ∧ v.flatten = .ok ns ∧
        v.encode = .ok (encodeNats ns) ∧
        (Value.list (ns.map fun (n : Nat) => .int n)).encode = .ok (encodeNats ns) ∧
        decode (encodeNats ns) s = .ok v) ∧
    ∀ b : Bytes,
      ((∃ v, decode b s = .ok v) ↔ ∃ w, decode b (flat s.size) = .ok w) ∧
      (∀ w, decode b (flat s.size) = .ok w → ∃ (ns : List Nat) (v : Value),
        w = .tuple (ns.map fun (n : Nat) => .int n) ∧ s.group (ns.map Int.ofNat) = .ok v ∧
        decode b s = .ok v) ∧
      ∀ e, decode b s = .error e ↔ decode b (flat s.size) = .error e := by
  refine ⟨fun ns hns => ⟨?_, fun v hv => ?_⟩, fun b => ?_⟩
  · rw [exists_group_iff, List.length_map]
  · have hlen : ns.length = s.size := by
      rw [← List.length_map Int.ofNat, exists_group_iff.1 ⟨v, hv⟩]
    obtain rfl := Except.ok.inj (hv.symm.trans (group_eq_fill hlen))
    have hflatten := flatten_fill s ns hproper hlen
    exact ⟨group_eq_ok_iff.1 hv, shape_fill s ns hproper hlen, hflatten,
      Value.encode_of_flatten hflatten, encode_list ns, decode_encodeNats hproper hlen hns⟩
  · rw [decode_eq b hproper, decode_flat]
    cases h : decodeNumbers b s.size with
    | error e => exact ⟨by simp [Except.map], by simp [Except.map], fun _ => Iff.rfl⟩
    | ok ns =>
      refine ⟨by simp [Except.map], ?_, by simp [Except.map]⟩
      rintro _ ⟨⟩
      exact ⟨ns, _, rfl, group_eq_fill (length_of_decodeNumbers h), rfl⟩

/-- Three numbers, one of two limbs, in a pair of a pair and a tuple of an empty tuple and a
number. -/
theorem group_eq_decode_nested :
    let s : Shape := .tuple [.tuple [.scalar, .scalar], .tuple [.tuple [], .scalar]]
    let v : Value := .tuple [.tuple [.int 1, .int 0x100000000], .tuple [.tuple [], .int 0]]
    s.proper = true ∧ (∀ n ∈ [1, 0x100000000, 0], Writable n) ∧
      s.group [1, 0x100000000, 0] = .ok v ∧ v.shape = s ∧ v.flatten = .ok [1, 0x100000000, 0] ∧
      v.encode = .ok (encodeNats [1, 0x100000000, 0]) ∧
      decode (encodeNats [1, 0x100000000, 0]) s = .ok v ∧
      ∃ e, decode [] (flat 3) = .error e ∧ decode [] s = .error e := by
  intro s v
  have hproper : s.proper = true := rfl
  have hwritable : ∀ n ∈ [1, 0x100000000, 0], Writable n := by
    intro n hn
    have hlt : n < 0x100000000 ^ 2 := by
      revert n
      decide
    exact Nat.lt_of_le_of_lt (length_limbs_le_iff.2 hlt) (by decide)
  have hgroup : s.group ([1, 0x100000000, 0].map Int.ofNat) = .ok v := rfl
  obtain ⟨hnumbers, hbytes⟩ := group_eq_decode s hproper
  obtain ⟨-, hshape, hflatten, hencode, -, hdecode⟩ := (hnumbers _ hwritable).2 v hgroup
  have hempty : decode [] (flat 3) = .error (.decode (.truncated 0)) := rfl
  exact ⟨hproper, hwritable, hgroup, hshape, hflatten, hencode, hdecode, _, hempty,
    ((hbytes []).2.2 _).2 hempty⟩

end Shape

end CircuitReceipts
