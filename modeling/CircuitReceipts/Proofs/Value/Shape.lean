import CircuitReceipts.Proofs.Codec.Numbers
import CircuitReceipts.Value.Shape

/-!
# Numbers in a shape

As many integers as a shape has places can be put into it. The value made of them has that shape and
gives back the integers, depth first, and where they are natural numbers it is what is read from
their words. If a part of the shape is no shape, the numbers before that part are read and no more.
All this goes by recursion on the shape; the integers of a tuple are cut into those of its first
part and the rest.
-/

namespace CircuitReceipts

namespace Shape

/-- The value of a shape that holds given integers. -/
def arrange (s : Shape) (zs : List Int) : Value :=
  (s.take zs).1

def arrangeEach (ss : List Shape) (zs : List Int) : List Value :=
  (takeEach ss zs).1

/-- The value of a shape that holds given numbers. -/
def fill (s : Shape) (ns : List Nat) : Value :=
  (s.take (ns.map Int.ofNat)).1

def fillEach (ss : List Shape) (ns : List Nat) : List Value :=
  (takeEach ss (ns.map Int.ofNat)).1

theorem fill_eq_arrange (s : Shape) (ns : List Nat) : s.fill ns = s.arrange (ns.map Int.ofNat) :=
  rfl

theorem arrange_scalar (z : Int) : scalar.arrange [z] = .int z := rfl

theorem arrange_tuple (parts : List Shape) (zs : List Int) :
    (tuple parts).arrange zs = .tuple (arrangeEach parts zs) := rfl

theorem fill_scalar (n : Nat) : scalar.fill [n] = .int n := rfl

theorem fill_tuple (parts : List Shape) (ns : List Nat) :
    (tuple parts).fill ns = .tuple (fillEach parts ns) := rfl

variable {s : Shape} {ss : List Shape}

theorem exists_append_of_sizeEach_cons {α : Type} {xs : List α}
    (h : xs.length = sizeEach (s :: ss)) :
    ∃ front back, xs = front ++ back ∧ front.length = s.size ∧ back.length = sizeEach ss := by
  rw [sizeEach] at h
  refine ⟨xs.take s.size, xs.drop s.size, (List.take_append_drop ..).symm, ?_, ?_⟩
  · rw [List.length_take]
    omega
  · rw [List.length_drop]
    omega

mutual

/-- A shape takes its integers and leaves those that follow. -/
theorem take_append : ∀ (s : Shape) (zs rest : List Int), s.proper = true → zs.length = s.size →
    s.take (zs ++ rest) = (s.arrange zs, rest)
  | scalar, zs, rest, _, hlen => by
    obtain ⟨z, rfl⟩ := List.length_eq_one_iff.1 hlen
    rfl
  | tuple parts, zs, rest, hproper, hlen => by
    rw [take, takeEach_append parts zs rest hproper hlen, arrange_tuple]
  | list _, _, _, hproper, _ | text _, _, _, hproper, _ | none, _, _, hproper, _
  | number _, _, _, hproper, _ => by simp [proper] at hproper

theorem takeEach_append : ∀ (ss : List Shape) (zs rest : List Int), properEach ss = true →
    zs.length = sizeEach ss → takeEach ss (zs ++ rest) = (arrangeEach ss zs, rest)
  | [], zs, rest, _, hlen => by
    obtain rfl := List.length_eq_zero_iff.1 hlen
    rfl
  | s :: ss, zs, rest, hproper, hlen => by
    rw [properEach, Bool.and_eq_true] at hproper
    obtain ⟨front, back, rfl, hfront, hback⟩ := exists_append_of_sizeEach_cons hlen
    rw [arrangeEach, List.append_assoc, takeEach, takeEach, take_append s front _ hproper.1 hfront,
      take_append s front _ hproper.1 hfront]
    simp only [takeEach_append ss back rest hproper.2 hback, arrangeEach]

end

theorem arrangeEach_cons {front back : List Int} (hproper : s.proper = true)
    (hfront : front.length = s.size) :
    arrangeEach (s :: ss) (front ++ back) = s.arrange front :: arrangeEach ss back := by
  rw [arrangeEach, takeEach, take_append s front back hproper hfront]
  rfl

theorem fillEach_cons {front back : List Nat} (hproper : s.proper = true)
    (hfront : front.length = s.size) :
    fillEach (s :: ss) (front ++ back) = s.fill front :: fillEach ss back := by
  rw [fillEach, List.map_append]
  exact arrangeEach_cons hproper ((List.length_map Int.ofNat).trans hfront)

mutual

theorem shape_arrange : ∀ (s : Shape) (zs : List Int), s.proper = true → zs.length = s.size →
    (s.arrange zs).shape = s
  | scalar, zs, _, hlen => by
    obtain ⟨z, rfl⟩ := List.length_eq_one_iff.1 hlen
    rfl
  | tuple parts, zs, hproper, hlen => by
    rw [arrange_tuple, Value.shape, shapeEach_arrangeEach parts zs hproper hlen]
  | list _, _, hproper, _ | text _, _, hproper, _ | none, _, hproper, _
  | number _, _, hproper, _ => by simp [proper] at hproper

theorem shapeEach_arrangeEach : ∀ (ss : List Shape) (zs : List Int), properEach ss = true →
    zs.length = sizeEach ss → Value.shapeEach (arrangeEach ss zs) = ss
  | [], zs, _, _ => rfl
  | s :: ss, zs, hproper, hlen => by
    rw [properEach, Bool.and_eq_true] at hproper
    obtain ⟨front, back, rfl, hfront, hback⟩ := exists_append_of_sizeEach_cons hlen
    rw [arrangeEach_cons hproper.1 hfront, Value.shapeEach, shape_arrange s front hproper.1 hfront,
      shapeEach_arrangeEach ss back hproper.2 hback]

end

mutual

theorem flatten_arrange : ∀ (s : Shape) (zs : List Int), s.proper = true → zs.length = s.size →
    (s.arrange zs).flatten = zs.mapM naturalOfInt
  | scalar, zs, _, hlen => by
    obtain ⟨z, rfl⟩ := List.length_eq_one_iff.1 hlen
    rw [arrange_scalar, Value.flatten, Value.natural, List.mapM_cons, List.mapM_nil]
    · rfl
    · simp
    · simp
  | tuple parts, zs, hproper, hlen => by
    rw [arrange_tuple, Value.flatten, flattenEach_arrangeEach parts zs hproper hlen]
  | list _, _, hproper, _ | text _, _, hproper, _ | none, _, hproper, _
  | number _, _, hproper, _ => by simp [proper] at hproper

theorem flattenEach_arrangeEach : ∀ (ss : List Shape) (zs : List Int), properEach ss = true →
    zs.length = sizeEach ss → Value.flattenEach (arrangeEach ss zs) = zs.mapM naturalOfInt
  | [], zs, _, hlen => by
    obtain rfl := List.length_eq_zero_iff.1 hlen
    rfl
  | s :: ss, zs, hproper, hlen => by
    rw [properEach, Bool.and_eq_true] at hproper
    obtain ⟨front, back, rfl, hfront, hback⟩ := exists_append_of_sizeEach_cons hlen
    rw [arrangeEach_cons hproper.1 hfront, Value.flattenEach,
      flatten_arrange s front hproper.1 hfront, flattenEach_arrangeEach ss back hproper.2 hback,
      List.mapM_append]

end

mutual

theorem alike_arrange : ∀ (s : Shape) (xs ys : List Int), s.proper = true → xs.length = s.size →
    ys.length = s.size → (s.arrange xs).alike (s.arrange ys) = decide (xs = ys)
  | scalar, xs, ys, _, hxs, hys => by
    obtain ⟨x, rfl⟩ := List.length_eq_one_iff.1 hxs
    obtain ⟨y, rfl⟩ := List.length_eq_one_iff.1 hys
    rw [arrange_scalar, arrange_scalar, Bool.eq_iff_iff]
    simp [Value.alike, Value.number?, Value.Number.same]
  | tuple parts, xs, ys, hproper, hxs, hys => by
    rw [arrange_tuple, arrange_tuple, Value.alike,
      alikeEach_arrangeEach parts xs ys hproper hxs hys]
  | list _, _, _, hproper, _, _ | text _, _, _, hproper, _, _ | none, _, _, hproper, _, _
  | number _, _, _, hproper, _, _ => by simp [proper] at hproper

theorem alikeEach_arrangeEach : ∀ (ss : List Shape) (xs ys : List Int), properEach ss = true →
    xs.length = sizeEach ss → ys.length = sizeEach ss →
    Value.alikeEach (arrangeEach ss xs) (arrangeEach ss ys) = decide (xs = ys)
  | [], xs, ys, _, hxs, hys => by
    obtain rfl := List.length_eq_zero_iff.1 hxs
    obtain rfl := List.length_eq_zero_iff.1 hys
    rfl
  | s :: ss, xs, ys, hproper, hxs, hys => by
    rw [properEach, Bool.and_eq_true] at hproper
    obtain ⟨x, xs, rfl, hx, hxs⟩ := exists_append_of_sizeEach_cons hxs
    obtain ⟨y, ys, rfl, hy, hys⟩ := exists_append_of_sizeEach_cons hys
    rw [arrangeEach_cons hproper.1 hx, arrangeEach_cons hproper.1 hy, Value.alikeEach,
      alike_arrange s x y hproper.1 hx hy, alikeEach_arrangeEach ss xs ys hproper.2 hxs hys,
      ← Bool.decide_and, decide_eq_decide]
    constructor
    · rintro ⟨rfl, rfl⟩
      rfl
    · exact fun h => List.append_inj h (hx.trans hy.symm)

end

theorem shape_fill (s : Shape) (ns : List Nat) (hproper : s.proper = true)
    (hlen : ns.length = s.size) : (s.fill ns).shape = s :=
  shape_arrange s _ hproper ((List.length_map _).trans hlen)

theorem mapM_naturalOfInt (ns : List Nat) : (ns.map Int.ofNat).mapM naturalOfInt = .ok ns := by
  rw [List.mapM_map]
  exact (mapM_eq_ok_map fun n _ => naturalOfInt_natCast n).trans (by rw [List.map_id'])

theorem flatten_fill (s : Shape) (ns : List Nat) (hproper : s.proper = true)
    (hlen : ns.length = s.size) : (s.fill ns).flatten = .ok ns :=
  (flatten_arrange s _ hproper ((List.length_map _).trans hlen)).trans (mapM_naturalOfInt ns)

theorem alike_fill {ns : List Nat} (hproper : s.proper = true) (hlen : ns.length = s.size) :
    (s.fill ns).alike (s.fill ns) = true :=
  have hlen := (List.length_map Int.ofNat).trans hlen
  (alike_arrange _ _ _ hproper hlen hlen).trans (decide_eq_true rfl)

/-! ### Reading a shape -/

mutual

/-- The number of integers in a shape before its first part that is no shape. -/
def leading : Shape → Nat
  | scalar => 1
  | tuple parts => leadingEach parts
  | _ => 0

def leadingEach : List Shape → Nat
  | [] => 0
  | s :: ss => leading s + if s.proper then leadingEach ss else 0

end

mutual

/-- The first part of a shape that is no shape. -/
def stranger? : Shape → Option Shape
  | scalar => Option.none
  | tuple parts => strangerEach? parts
  | s => some s

def strangerEach? : List Shape → Option Shape
  | [] => Option.none
  | s :: ss => (stranger? s).or (strangerEach? ss)

end

mutual

theorem stranger?_eq_none_iff : ∀ s : Shape, s.stranger? = Option.none ↔ s.proper = true
  | scalar => by simp [stranger?, proper]
  | tuple parts => by rw [stranger?, strangerEach?_eq_none_iff parts, proper]
  | list _ | text _ | none | number _ => by simp [stranger?, proper]

theorem strangerEach?_eq_none_iff : ∀ ss : List Shape,
    strangerEach? ss = Option.none ↔ properEach ss = true
  | [] => by simp [strangerEach?, properEach]
  | s :: ss => by
    rw [strangerEach?, Option.or_eq_none_iff, stranger?_eq_none_iff s, strangerEach?_eq_none_iff ss,
      properEach, Bool.and_eq_true]

end

mutual

theorem leading_eq_size : ∀ {s : Shape}, s.proper = true → s.leading = s.size
  | scalar, _ => rfl
  | tuple _, hproper => leadingEach_eq_sizeEach hproper
  | list _, hproper | text _, hproper | none, hproper | number _, hproper => by
    simp [proper] at hproper

theorem leadingEach_eq_sizeEach : ∀ {ss : List Shape}, properEach ss = true →
    leadingEach ss = sizeEach ss
  | [], _ => rfl
  | s :: ss, hproper => by
    rw [properEach, Bool.and_eq_true] at hproper
    rw [leadingEach, if_pos hproper.1, leading_eq_size hproper.1, leadingEach_eq_sizeEach hproper.2,
      sizeEach]

end

mutual

/-- What is read for a shape is the numbers before its first part that is no shape; at that part the
reading stops, and if there is none the numbers are put into the shape. -/
theorem value_eq_numbers : ∀ (s : Shape) (r : WordReader),
    r.value s =
      match r.numbers s.leading with
      | (.error e, r) => (.error (.decode e), r)
      | (.ok ns, r) =>
        match s.stranger? with
        | some t => (.error (.notAShape t), r)
        | Option.none => (.ok (s.fill ns), r)
  | scalar, r => by
    simp only [WordReader.value, leading, WordReader.numbers]
    rcases r.integer with ⟨_ | n, next⟩ <;> rfl
  | tuple parts, r => by
    rw [WordReader.value, values_eq_numbers parts r, leading, stranger?]
    rcases r.numbers (leadingEach parts) with ⟨_ | ns, next⟩
    · rfl
    · cases strangerEach? parts <;> rfl
  | list _, _ | text _, _ | none, _ | number _, _ => rfl

theorem values_eq_numbers : ∀ (ss : List Shape) (r : WordReader),
    r.values ss =
      match r.numbers (leadingEach ss) with
      | (.error e, r) => (.error (.decode e), r)
      | (.ok ns, r) =>
        match strangerEach? ss with
        | some t => (.error (.notAShape t), r)
        | Option.none => (.ok (fillEach ss ns), r)
  | [], r => rfl
  | s :: ss, r => by
    rw [WordReader.values, value_eq_numbers s r, leadingEach, strangerEach?]
    -- The numbers of the other parts follow those of the first only if that one is proper.
    cases hstranger : s.stranger? with
    | some t =>
      have hproper : ¬s.proper = true := by
        rw [← stranger?_eq_none_iff, hstranger]
        simp
      rw [if_neg hproper, Nat.add_zero]
      rcases r.numbers s.leading with ⟨_ | front, middle⟩ <;> rfl
    | none =>
      have hproper : s.proper = true := (stranger?_eq_none_iff s).1 hstranger
      rw [if_pos hproper, WordReader.numbers_add]
      rcases hfront : r.numbers s.leading with ⟨_ | front, middle⟩
      · rfl
      · have hlen : front.length = s.size :=
          (WordReader.length_of_numbers hfront).trans (leading_eq_size hproper)
        simp only [values_eq_numbers ss middle]
        rcases middle.numbers (leadingEach ss) with ⟨_ | back, next⟩
        · rfl
        · simp only [Option.none_or, fillEach_cons hproper hlen]
          cases strangerEach? ss <;> rfl

end

/-- No value is read for a shape exactly if one of the numbers before its first part that is no
shape is not read, or all of them are and there is such a part. -/
theorem value_eq_error_iff {r next : WordReader} {e : ReadError} : r.value s = (.error e, next) ↔
    (∃ cause, e = .decode cause ∧ r.numbers s.leading = (.error cause, next)) ∨
      ∃ t ns, e = .notAShape t ∧ s.stranger? = some t ∧ r.numbers s.leading = (.ok ns, next) := by
  rw [value_eq_numbers]
  rcases r.numbers s.leading with ⟨cause | ns, last⟩
  · simp [eq_comm]
  · cases s.stranger? with
    | none => simp
    | some t => simp [eq_comm]

/-- What is read for a proper shape is as many numbers as it has places, put into the shape. -/
theorem value_eq (s : Shape) (r : WordReader) (hproper : s.proper = true) :
    r.value s =
      match r.numbers s.size with
      | (.error e, r) => (.error (.decode e), r)
      | (.ok ns, r) => (.ok (s.fill ns), r) := by
  rw [value_eq_numbers, leading_eq_size hproper, (stranger?_eq_none_iff s).2 hproper]

theorem decode_eq (b : Bytes) (hproper : s.proper = true) :
    decode b s = ((decodeNumbers b s.size).map s.fill).mapError .decode := by
  rw [decode, decodeNumbers]
  cases WordReader.ofBytes b with
  | error e => rfl
  | ok r =>
    simp only [mapError_ok, ok_bind, value_eq s r hproper]
    rcases r.numbers s.size with ⟨_ | ns, next⟩
    · rfl
    · simp only [ok_bind]
      cases next.finish <;> rfl

theorem decode_encodeNats {ns : List Nat} (hproper : s.proper = true) (hlen : ns.length = s.size)
    (hns : ∀ n ∈ ns, Writable n) : decode (encodeNats ns) s = .ok (s.fill ns) := by
  rw [decode_eq _ hproper, decodeNumbers_eq_ok_iff.2 ⟨hlen, hns, rfl⟩]
  rfl

end Shape

end CircuitReceipts
