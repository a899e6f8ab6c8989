import CircuitReceipts.Proofs.Circuit.Builtin
import CircuitReceipts.Proofs.Value.Decoding

/-!
# References of the built-in operations

Operands of the right shape are integers in nested tuples or lists. Where an operation is defined
on them, its reference is the value, in the shape of its result, of the numbers that its circuit
commits.
-/

namespace CircuitReceipts

namespace Value

variable {v : Value} {items : List Value} {ns : List Nat}

/-- A value of a tuple shape holds values of the shapes of its parts. -/
theorem items_of_shape {parts : List Shape} (h : v.shape = .tuple parts) :
    ∃ items, shapeEach items = parts ∧ Operation.operandsOf v = items ∧
      v.flatten = flattenEach items ∧ Pair.components v = .ok items := by
  cases v with
  | tuple items => exact ⟨items, by simpa [shape] using h, rfl, by rw [flatten], rfl⟩
  | list items => exact ⟨items, by simpa [shape] using h, rfl, by rw [flatten], rfl⟩
  | int | bool | float | none | text => simp [shape] at h

theorem exists_of_shapeEach_cons {s : Shape} {ss : List Shape}
    (hshape : shapeEach items = s :: ss) (h : flattenEach items = .ok ns) :
    ∃ v vs front back, items = v :: vs ∧ ns = front ++ back ∧ v.shape = s ∧
      v.flatten = .ok front ∧ shapeEach vs = ss ∧ flattenEach vs = .ok back := by
  cases items with
  | nil => simp [shapeEach] at hshape
  | cons v vs =>
    rw [shapeEach, List.cons.injEq] at hshape
    obtain ⟨front, back, hfront, hback, rfl⟩ := flattenEach_cons_eq_ok.1 h
    exact ⟨v, vs, front, back, rfl, rfl, hshape.1, hfront, hshape.2, hback⟩

theorem eq_nil_of_shapeEach_nil (hshape : shapeEach items = []) (h : flattenEach items = .ok ns) :
    items = [] ∧ ns = [] := by
  cases items with
  | nil =>
    rw [flattenEach, Except.ok.injEq] at h
    exact ⟨rfl, h.symm⟩
  | cons v vs => simp [shapeEach] at hshape

theorem eq_map_int_of_flattenEach {k : Nat} (hshape : shapeEach items = List.replicate k .scalar)
    (h : flattenEach items = .ok ns) :
    items = ns.map (fun (n : Nat) => .int n) ∧ ns.length = k := by
  induction k generalizing items ns with
  | zero =>
    obtain ⟨rfl, rfl⟩ := eq_nil_of_shapeEach_nil hshape h
    exact ⟨rfl, rfl⟩
  | succ k ih =>
    obtain ⟨v, vs, front, back, rfl, rfl, hv, hfront, hvs, hback⟩ :=
      exists_of_shapeEach_cons hshape h
    obtain ⟨n, rfl, rfl⟩ := eq_int_of_flatten hv hfront
    obtain ⟨rfl, rfl⟩ := ih hvs hback
    exact ⟨rfl, rfl⟩

theorem operandsOf_pairs (hshape : v.shape = .tuple [Operation.pair, Operation.pair, .scalar])
    (h : v.flatten = .ok ns) :
    ∃ (u w : Value) (a₀ a₁ b₀ b₁ m : Nat), Operation.operandsOf v = [u, w, .int m] ∧
      Pair.components u = .ok [.int a₀, .int a₁] ∧ Pair.components w = .ok [.int b₀, .int b₁] ∧
      ns = [a₀, a₁, b₀, b₁, m] := by
  -- a pair has two integers as components, in either kind of container
  have hpair {u : Value} {front : List Nat} (hu : u.shape = Operation.pair)
      (hf : u.flatten = .ok front) :
      ∃ x y : Nat, Pair.components u = .ok [.int x, .int y] ∧ front = [x, y] := by
    obtain ⟨items, hitems, -, hflat, hcomponents⟩ := items_of_shape hu
    rw [hflat] at hf
    obtain ⟨rfl, hlen⟩ := eq_map_int_of_flattenEach (k := 2) hitems hf
    obtain ⟨x, y, rfl⟩ := List.length_eq_two.1 hlen
    exact ⟨x, y, hcomponents, rfl⟩
  obtain ⟨items, hitems, hoperands, hflat, -⟩ := items_of_shape hshape
  rw [hflat] at h
  obtain ⟨u, rest, front, back, rfl, rfl, hu, hfront, hrest, hback⟩ :=
    exists_of_shapeEach_cons hitems h
  obtain ⟨w, last, front', back', rfl, rfl, hw, hfront', hlast, hback'⟩ :=
    exists_of_shapeEach_cons hrest hback
  obtain ⟨a₀, a₁, ha, rfl⟩ := hpair hu hfront
  obtain ⟨b₀, b₁, hb, rfl⟩ := hpair hw hfront'
  obtain ⟨rfl, hlen⟩ := eq_map_int_of_flattenEach (k := 1) hlast hback'
  obtain ⟨m, rfl⟩ := List.length_eq_one_iff.1 hlen
  exact ⟨u, w, a₀, a₁, b₀, b₁, m, hoperands, ha, hb, rfl⟩

theorem operandsOf_scalars {k : Nat} (hshape : v.shape = .tuple (List.replicate k .scalar))
    (h : v.flatten = .ok ns) :
    Operation.operandsOf v = ns.map (fun (n : Nat) => .int n) ∧ ns.length = k := by
  obtain ⟨items, hitems, hoperands, hflat, -⟩ := items_of_shape hshape
  rw [hflat] at h
  obtain ⟨rfl, hlen⟩ := eq_map_int_of_flattenEach hitems h
  exact ⟨hoperands, hlen⟩

end Value

namespace Operation

variable {op : Operation} {operands : Value} {ns : List Nat}

theorem length_operands (hshape : operands.shape = op.inputShape)
    (h : operands.flatten = .ok ns) : ns.length = op.inputShape.size := by
  rw [← hshape, Value.length_flatten h]

theorem proper_inputShape (op : Operation) : op.inputShape.proper = true := by
  cases op <;> rfl

theorem proper_outputShape (op : Operation) : op.outputShape.proper = true := by
  cases op <;> rfl

theorem length_outcome (h : ns.length = op.inputShape.size) :
    (op.outcome ns).length = op.outputShape.size := by
  cases op with
  | modadd | modsub | modmul =>
    obtain ⟨a, b, m, rfl⟩ := List.length_eq_three.1 h
    rfl
  | modinv =>
    obtain ⟨a, m, rfl⟩ := List.length_eq_two.1 h
    rfl
  | extfieldadd | extfieldsub =>
    obtain ⟨a₀, a₁, b₀, b₁, m, rfl⟩ := exists_of_length_eq_five h
    rfl

theorem mod_int {a : Int} {m : Nat} (hm : m ≠ 0) :
    (Value.int a).mod (.int m) = .ok (.int ((a % m).toNat : Nat)) := by
  have hnonneg := Int.emod_nonneg a (by omega : (m : Int) ≠ 0)
  have hmod : a.fmod m = ((a % m).toNat : Nat) := by
    rw [Int.fmod_eq_emod_of_nonneg _ (Int.natCast_nonneg m), Int.toNat_of_nonneg hnonneg]
  rw [← hmod]
  simp [Value.mod, Value.number, Value.number?, Value.Number.mod, hm]
  rfl

/-- A natural number has the inverse that `inverseMod?` finds, or else none. -/
theorem inverse_int (a m : Nat) : (Value.int a).inverse (.int m) =
    match inverseMod? a m with
    | some v => .ok (.int v)
    | none => .error .badValue := by
  have hmod (n : Nat) : (n : Int).fmod m = ((n % m : Nat) : Int) := by
    rw [Int.fmod_eq_emod_of_nonneg _ (Int.natCast_nonneg m), Int.natCast_emod]
  simp only [Value.inverse, Value.integer, Value.number?, ok_bind, hmod, Int.natAbs_natCast,
    inverseMod?_mod, if_neg (Int.not_lt.2 (Int.natCast_nonneg (a % m)))]
  cases h : inverseMod? a m with
  | none => rfl
  | some v =>
    have hv : v % m = v := Nat.mod_eq_of_lt (inverseMod?_eq_some_iff.1 h).1
    simp only [hv]
    rfl

theorem check_pair {u : Value} {x y m : Nat} (hu : Pair.components u = .ok [.int x, .int y])
    (hm : m ≠ 0) : Pair.check u (.int m) = .ok (.int x, .int y) := by
  have hbelow : Pair.belowOne (.int m) = .ok false := by
    simp [Pair.belowOne, Value.number?]
    omega
  simp [Pair.check, hu, hbelow]

theorem combine_eq_ok {f : Value → Value → Except Misuse Value} {u w c₀ c₁ d₀ d₁ : Value}
    {a₀ a₁ b₀ b₁ m : Nat} (hu : Pair.components u = .ok [.int a₀, .int a₁])
    (hw : Pair.components w = .ok [.int b₀, .int b₁]) (hm : m ≠ 0)
    (hc₀ : f (.int a₀) (.int b₀) = .ok c₀) (hc₁ : f (.int a₁) (.int b₁) = .ok c₁)
    (hd₀ : c₀.mod (.int m) = .ok d₀) (hd₁ : c₁.mod (.int m) = .ok d₁) :
    Pair.combine f u w (.int m) = .ok (.tuple [d₀, d₁]) := by
  simp only [Pair.combine, check_pair hu hm, check_pair hw hm, ok_bind, hc₀, hc₁, hd₀, hd₁,
    mapError_ok]
  rfl

theorem check_pair_zero {u x y : Value} (hu : Pair.components u = .ok [x, y]) :
    Pair.check u (.int 0) = .error (.modulus (.int 0)) := by
  rw [Pair.check, hu]
  rfl

theorem expected_eq_ok (hshape : operands.shape = op.inputShape)
    (hflatten : operands.flatten = .ok ns) (h : op.Admissible ns) :
    op.expected operands = .ok (op.outputShape.fill (op.outcome ns)) := by
  obtain ⟨hm, hcoprime⟩ := h
  rw [expected, checkOperands, if_pos hshape, ok_bind]
  cases op with
  | modadd =>
    obtain ⟨hoperands, hlen⟩ := Value.operandsOf_scalars (k := 3) hshape hflatten
    obtain ⟨a, b, m, rfl⟩ := List.length_eq_three.1 hlen
    rw [hoperands]
    have hmod := mod_int (a := a + b) hm
    rw [← Nat.cast_add, ← Int.natCast_emod, Int.toNat_natCast] at hmod
    exact congrArg (Except.mapError ReferenceError.misuse) hmod
  | modsub =>
    obtain ⟨hoperands, hlen⟩ := Value.operandsOf_scalars (k := 3) hshape hflatten
    obtain ⟨a, b, m, rfl⟩ := List.length_eq_three.1 hlen
    rw [hoperands]
    exact congrArg (Except.mapError ReferenceError.misuse) (mod_int (a := a - b) hm)
  | modmul =>
    obtain ⟨hoperands, hlen⟩ := Value.operandsOf_scalars (k := 3) hshape hflatten
    obtain ⟨a, b, m, rfl⟩ := List.length_eq_three.1 hlen
    rw [hoperands]
    have hmod := mod_int (a := a * b) hm
    rw [← Nat.cast_mul, ← Int.natCast_emod, Int.toNat_natCast] at hmod
    exact congrArg (Except.mapError ReferenceError.misuse) hmod
  | modinv =>
    obtain ⟨hoperands, hlen⟩ := Value.operandsOf_scalars (k := 2) hshape hflatten
    obtain ⟨a, m, rfl⟩ := List.length_eq_two.1 hlen
    rw [hoperands]
    obtain ⟨v, hv⟩ : ∃ v, inverseMod? a m = some v :=
      exists_inverseMod?_iff.2 ⟨hm, hcoprime rfl⟩
    have houtcome : modinv.outcome [a, m] = [v] := by
      rw [outcome, hv, Option.getD_some]
    rw [houtcome]
    have hinverse := inverse_int a m
    rw [hv] at hinverse
    exact congrArg (Except.mapError ReferenceError.misuse) hinverse
  | extfieldadd =>
    obtain ⟨u, w, a₀, a₁, b₀, b₁, m, hoperands, ha, hb, rfl⟩ :=
      Value.operandsOf_pairs hshape hflatten
    have h₀ := mod_int (a := a₀ + b₀) hm
    have h₁ := mod_int (a := a₁ + b₁) hm
    rw [← Nat.cast_add, ← Int.natCast_emod, Int.toNat_natCast] at h₀ h₁
    rw [hoperands]
    exact congrArg (Except.mapError ReferenceError.pair)
      (combine_eq_ok (f := Value.add) ha hb hm rfl rfl h₀ h₁)
  | extfieldsub =>
    obtain ⟨u, w, a₀, a₁, b₀, b₁, m, hoperands, ha, hb, rfl⟩ :=
      Value.operandsOf_pairs hshape hflatten
    rw [hoperands]
    exact congrArg (Except.mapError ReferenceError.pair) (combine_eq_ok (f := Value.sub) ha hb hm
      rfl rfl (mod_int (a := a₀ - b₀) hm) (mod_int (a := a₁ - b₁) hm))

/-- Why a reference has no result on operands on which its operation is not defined. -/
def undefinedness : Operation → ReferenceError
  | modadd | modsub | modmul => .misuse .divisionByZero
  | modinv => .misuse .badValue
  | extfieldadd | extfieldsub => .pair (.modulus (.int 0))

theorem expected_eq_error (hshape : operands.shape = op.inputShape)
    (hflatten : operands.flatten = .ok ns) (h : ¬op.Admissible ns) :
    op.expected operands = .error op.undefinedness := by
  have hmodulus (hop : op ≠ modinv) : modulus ns = 0 := by
    by_contra hm
    exact h ⟨hm, fun h => absurd h hop⟩
  rw [expected, checkOperands, if_pos hshape, ok_bind]
  cases op with
  | modadd | modsub | modmul =>
    obtain ⟨hoperands, hlen⟩ := Value.operandsOf_scalars (k := 3) hshape hflatten
    obtain ⟨a, b, m, rfl⟩ := List.length_eq_three.1 hlen
    obtain rfl : m = 0 := hmodulus (by decide)
    rw [hoperands]
    rfl
  | modinv =>
    obtain ⟨hoperands, hlen⟩ := Value.operandsOf_scalars (k := 2) hshape hflatten
    obtain ⟨a, m, rfl⟩ := List.length_eq_two.1 hlen
    have hnone : inverseMod? a m = none := by
      rw [inverseMod?, if_neg fun hm => h ⟨hm.1, fun _ => hm.2⟩]
    have hinverse := inverse_int a m
    rw [hnone] at hinverse
    rw [hoperands]
    exact congrArg (Except.mapError ReferenceError.misuse) hinverse
  | extfieldadd | extfieldsub =>
    obtain ⟨u, w, a₀, a₁, b₀, b₁, m, hoperands, ha, -, rfl⟩ :=
      Value.operandsOf_pairs hshape hflatten
    obtain rfl : m = 0 := hmodulus (by decide)
    rw [hoperands]
    simp only [reference, Pair.add, Pair.sub, Pair.combine, Nat.cast_zero, check_pair_zero ha]
    rfl

end Operation

end CircuitReceipts
