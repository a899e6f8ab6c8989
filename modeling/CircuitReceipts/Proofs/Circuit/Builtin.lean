import CircuitReceipts.Proofs.Circuit.Width

/-!
# The built-in circuits

What the built-in circuits compute. Values that are consistent throughout such a circuit belong to
operands on which its operation is defined, and what they commit is determined by the operands; on
such operands there are consistent values; and on all others some instruction has no result.
-/

namespace CircuitReceipts

/-- A difference of two remainders, lifted by the modulus so that it is not negative, leaves the
remainder of the difference. -/
theorem sub_mod_eq {a b m : Nat} (hm : m ≠ 0) :
    (a % m + m - b % m) % m = (((a : Int) - b) % m).toNat := by
  have hb : b % m < m := Nat.mod_lt _ (by omega)
  have hle : b % m ≤ a % m + m := by omega
  have hcast : (((a % m + m - b % m) % m : Nat) : Int) = ((a : Int) - b) % m := by
    rw [Int.natCast_emod, Nat.cast_sub hle]
    push_cast
    rw [Int.sub_emod, Int.emod_emod_of_dvd _ (dvd_refl _), Int.add_emod_right,
      Int.emod_emod_of_dvd _ (dvd_refl _), ← Int.sub_emod]
  rw [← hcast, Int.toNat_natCast]

namespace Operation

/-- The modulus of an operation: the last of its operands. -/
def modulus (ns : List Nat) : Nat :=
  ns.getLastD 0

/-- Whether an operation is defined on operands: the modulus is not zero, and a number to be
inverted has no divisor in common with it. -/
structure Admissible (op : Operation) (ns : List Nat) : Prop where
  modulus_ne_zero : modulus ns ≠ 0
  coprime : op = .modinv → Nat.gcd (ns.headD 0) (modulus ns) = 1

/-- The numbers that an operation gives on operands on which it is defined. -/
def outcome : Operation → List Nat → List Nat
  | modadd, [a, b, m] => [(a + b) % m]
  | modsub, [a, b, m] => [(((a : Int) - b) % m).toNat]
  | modmul, [a, b, m] => [a * b % m]
  | modinv, [a, m] => [(inverseMod? a m).getD 0]
  | extfieldadd, [a₀, a₁, b₀, b₁, m] => [(a₀ + b₀) % m, (a₁ + b₁) % m]
  | extfieldsub, [a₀, a₁, b₀, b₁, m] =>
    [(((a₀ : Int) - b₀) % m).toNat, (((a₁ : Int) - b₁) % m).toNat]
  | _, _ => []

theorem writable_modulus {ns : List Nat} (h : ∀ n ∈ ns, Writable n) : Writable (modulus ns) := by
  rcases List.mem_cons.1 (List.getLastD_mem_cons (l := ns) (a := 0)) with hzero | hmem
  · rw [modulus, hzero]
    exact writable_of_lt (by decide)
  · exact h _ hmem

theorem Admissible.lt_modulus {op : Operation} {ns : List Nat} {n : Nat} (h : op.Admissible ns)
    (hn : n ∈ op.outcome ns) : n < modulus ns := by
  have hpos := Nat.pos_of_ne_zero h.modulus_ne_zero
  have hint {m : Nat} (x : Int) (hm : 0 < m) : (x % m).toNat < m := by
    have := Int.emod_lt_of_pos x (Int.natCast_pos.2 hm)
    omega
  fun_cases outcome op ns with
  | case1 a b m =>
    obtain rfl := List.mem_singleton.1 hn
    exact Nat.mod_lt _ hpos
  | case2 a b m =>
    obtain rfl := List.mem_singleton.1 hn
    exact hint _ hpos
  | case3 a b m =>
    obtain rfl := List.mem_singleton.1 hn
    exact Nat.mod_lt _ hpos
  | case4 a m =>
    obtain ⟨v, hv⟩ : ∃ v, inverseMod? a m = some v :=
      exists_inverseMod?_iff.2 ⟨h.modulus_ne_zero, h.coprime rfl⟩
    obtain rfl := List.mem_singleton.1 hn
    rw [hv, Option.getD_some]
    exact (inverseMod?_eq_some_iff.1 hv).1
  | case5 a₀ a₁ b₀ b₁ m => rcases List.mem_pair.1 hn with rfl | rfl <;> exact Nat.mod_lt _ hpos
  | case6 a₀ a₁ b₀ b₁ m => rcases List.mem_pair.1 hn with rfl | rfl <;> exact hint _ hpos
  | case7 => simp_all [outcome]

/-- The operands that values of a built-in circuit belong to: those of its reading positions. -/
def operandsIn (op : Operation) (values : Nat → Nat) : List Nat :=
  (op.program.code.positions .read op.program.size).map values

theorem operandsIn_eq (op : Operation) (values : Nat → Nat) :
    op.operandsIn values = (List.range op.inputShape.size).map values := by
  have h : op.program.code.positions .read op.program.size = List.range op.inputShape.size := by
    cases op <;> decide +kernel
  rw [operandsIn, h]

/-- The equations between the values of a built-in circuit. -/
def Equations (values : Nat → Nat) : Operation → Prop
  | modadd =>
    values 0 + values 1 = values 3 ∧ (values 2 ≠ 0 ∧ values 3 % values 2 = values 4) ∧
      values 4 = values 5 ∧ values 6 = 0
  | modsub =>
    (values 2 ≠ 0 ∧ values 0 % values 2 = values 3) ∧
      (values 2 ≠ 0 ∧ values 1 % values 2 = values 4) ∧ values 3 + values 2 = values 5 ∧
      (values 4 ≤ values 5 ∧ values 5 - values 4 = values 6) ∧
      (values 2 ≠ 0 ∧ values 6 % values 2 = values 7) ∧ values 7 = values 8 ∧ values 9 = 0
  | modmul =>
    values 0 * values 1 = values 3 ∧ (values 2 ≠ 0 ∧ values 3 % values 2 = values 4) ∧
      values 4 = values 5 ∧ values 6 = 0
  | modinv =>
    inverseMod? (values 0) (values 1) = some (values 2) ∧ values 2 = values 3 ∧ values 4 = 0
  | extfieldadd =>
    values 0 + values 2 = values 5 ∧ (values 4 ≠ 0 ∧ values 5 % values 4 = values 6) ∧
      values 1 + values 3 = values 7 ∧ (values 4 ≠ 0 ∧ values 7 % values 4 = values 8) ∧
      values 6 = values 9 ∧ values 8 = values 10 ∧ values 11 = 0
  | extfieldsub =>
    (values 4 ≠ 0 ∧ values 0 % values 4 = values 5) ∧
      (values 4 ≠ 0 ∧ values 1 % values 4 = values 6) ∧
      (values 4 ≠ 0 ∧ values 2 % values 4 = values 7) ∧
      (values 4 ≠ 0 ∧ values 3 % values 4 = values 8) ∧ values 5 + values 4 = values 9 ∧
      (values 7 ≤ values 9 ∧ values 9 - values 7 = values 10) ∧
      (values 4 ≠ 0 ∧ values 10 % values 4 = values 11) ∧ values 6 + values 4 = values 12 ∧
      (values 8 ≤ values 12 ∧ values 12 - values 8 = values 13) ∧
      (values 4 ≠ 0 ∧ values 13 % values 4 = values 14) ∧ values 11 = values 15 ∧
      values 14 = values 16 ∧ values 17 = 0

/-- Values are consistent throughout a built-in circuit exactly when they satisfy its equations. -/
theorem consistent_iff_equations {op : Operation} {values : Nat → Nat} :
    (∀ pc < op.program.size, op.program.code.Consistent values pc) ↔ op.Equations values := by
  have hsize : op.gates.length = op.program.size := by cases op <;> decide +kernel
  rw [consistent_iff_gates (Nat.le_refl _), ← hsize, List.take_length]
  cases op <;>
    simp only [gates, Gate.HoldFrom, Gate.Holds, sourceValue, Option.map_some, Option.getD_some,
      Nat.zero_add, Nat.reduceAdd, true_and, and_true, compute_add_eq_ok, compute_sub_eq_ok,
      compute_mul_eq_ok, compute_mod_eq_ok, compute_inv_eq_ok, Equations]

/-- Values that are consistent throughout a built-in circuit belong to operands on which the
operation is defined, and what is committed are the numbers that it gives on them. -/
theorem of_consistent {op : Operation} {values : Nat → Nat}
    (h : ∀ pc < op.program.size, op.program.code.Consistent values pc) :
    op.Admissible (op.operandsIn values) ∧
      op.program.code.commits.map values = op.outcome (op.operandsIn values) := by
  rw [consistent_iff_equations] at h
  rw [operandsIn_eq]
  cases op with
  | modadd =>
    obtain ⟨h3, ⟨hm, h4⟩, h5, -⟩ := h
    have hcommits : modadd.program.code.commits = [5] := by decide +kernel
    refine ⟨⟨hm, by simp⟩, ?_⟩
    rw [hcommits, List.map_singleton, ← h5, ← h4, ← h3]
    rfl
  | modsub =>
    obtain ⟨⟨hm, h3⟩, ⟨-, h4⟩, h5, ⟨-, h6⟩, ⟨-, h7⟩, h8, -⟩ := h
    have hcommits : modsub.program.code.commits = [8] := by decide +kernel
    refine ⟨⟨hm, by simp⟩, ?_⟩
    rw [hcommits, List.map_singleton, ← h8, ← h7, ← h6, ← h5, ← h4, ← h3, sub_mod_eq hm]
    rfl
  | modmul =>
    obtain ⟨h3, ⟨hm, h4⟩, h5, -⟩ := h
    have hcommits : modmul.program.code.commits = [5] := by decide +kernel
    refine ⟨⟨hm, by simp⟩, ?_⟩
    rw [hcommits, List.map_singleton, ← h5, ← h4, ← h3]
    rfl
  | modinv =>
    obtain ⟨h2, h3, -⟩ := h
    have hcommits : modinv.program.code.commits = [3] := by decide +kernel
    have hinv := exists_inverseMod?_iff.1 ⟨_, h2⟩
    refine ⟨⟨hinv.1, fun _ => hinv.2⟩, ?_⟩
    have houtcome : modinv.outcome [values 0, values 1] =
        [(inverseMod? (values 0) (values 1)).getD 0] := rfl
    rw [hcommits, List.map_singleton, ← h3]
    exact (houtcome.trans (by rw [h2, Option.getD_some])).symm
  | extfieldadd =>
    obtain ⟨h5, ⟨hm, h6⟩, h7, ⟨-, h8⟩, h9, h10, -⟩ := h
    have hcommits : extfieldadd.program.code.commits = [9, 10] := by decide +kernel
    refine ⟨⟨hm, by simp⟩, ?_⟩
    rw [hcommits, List.map_cons, List.map_singleton, ← h9, ← h10, ← h6, ← h8, ← h5, ← h7]
    rfl
  | extfieldsub =>
    obtain ⟨⟨hm, h5⟩, ⟨-, h6⟩, ⟨-, h7⟩, ⟨-, h8⟩, h9, ⟨-, h10⟩, ⟨-, h11⟩, h12, ⟨-, h13⟩, ⟨-, h14⟩,
      h15, h16, -⟩ := h
    have hcommits : extfieldsub.program.code.commits = [15, 16] := by decide +kernel
    refine ⟨⟨hm, by simp⟩, ?_⟩
    rw [hcommits, List.map_cons, List.map_singleton, ← h15, ← h16, ← h11, ← h14, ← h10, ← h13,
      ← h9, ← h12, ← h5, ← h6, ← h7, ← h8, sub_mod_eq hm, sub_mod_eq hm]
    rfl

theorem exists_of_length_eq_five {ns : List Nat} (h : ns.length = 5) :
    ∃ a₀ a₁ b₀ b₁ m, ns = [a₀, a₁, b₀, b₁, m] := by
  match ns, h with
  | [a₀, a₁, b₀, b₁, m], _ => exact ⟨a₀, a₁, b₀, b₁, m, rfl⟩

/-- On operands on which its operation is defined, a built-in circuit has consistent values. -/
theorem exists_consistent {op : Operation} {ns : List Nat} (hlen : ns.length = op.inputShape.size)
    (h : op.Admissible ns) :
    ∃ values, op.operandsIn values = ns ∧
      ∀ pc < op.program.size, op.program.code.Consistent values pc := by
  obtain ⟨hm, hcoprime⟩ := h
  simp only [consistent_iff_equations, operandsIn_eq]
  cases op with
  | modadd =>
    obtain ⟨a, b, m, rfl⟩ := List.length_eq_three.1 hlen
    refine ⟨fun k => [a, b, m, a + b, (a + b) % m, (a + b) % m, 0].getD k 0, rfl, ?_⟩
    exact ⟨rfl, ⟨hm, rfl⟩, rfl, rfl⟩
  | modsub =>
    obtain ⟨a, b, m, rfl⟩ := List.length_eq_three.1 hlen
    have hle : b % m ≤ a % m + m := by
      have : b % m < m := Nat.mod_lt _ (Nat.pos_of_ne_zero hm)
      omega
    refine ⟨fun k => [a, b, m, a % m, b % m, a % m + m, a % m + m - b % m, (a % m + m - b % m) % m,
      (a % m + m - b % m) % m, 0].getD k 0, rfl, ?_⟩
    exact ⟨⟨hm, rfl⟩, ⟨hm, rfl⟩, rfl, ⟨hle, rfl⟩, ⟨hm, rfl⟩, rfl, rfl⟩
  | modmul =>
    obtain ⟨a, b, m, rfl⟩ := List.length_eq_three.1 hlen
    refine ⟨fun k => [a, b, m, a * b, a * b % m, a * b % m, 0].getD k 0, rfl, ?_⟩
    exact ⟨rfl, ⟨hm, rfl⟩, rfl, rfl⟩
  | modinv =>
    obtain ⟨a, m, rfl⟩ := List.length_eq_two.1 hlen
    obtain ⟨v, hv⟩ := exists_inverseMod?_iff.2 ⟨hm, hcoprime rfl⟩
    exact ⟨fun k => [a, m, v, v, 0].getD k 0, rfl, hv, rfl, rfl⟩
  | extfieldadd =>
    obtain ⟨a₀, a₁, b₀, b₁, m, rfl⟩ := exists_of_length_eq_five hlen
    refine ⟨fun k => [a₀, a₁, b₀, b₁, m, a₀ + b₀, (a₀ + b₀) % m, a₁ + b₁, (a₁ + b₁) % m,
      (a₀ + b₀) % m, (a₁ + b₁) % m, 0].getD k 0, rfl, ?_⟩
    exact ⟨rfl, ⟨hm, rfl⟩, rfl, ⟨hm, rfl⟩, rfl, rfl, rfl⟩
  | extfieldsub =>
    obtain ⟨a₀, a₁, b₀, b₁, m, rfl⟩ := exists_of_length_eq_five hlen
    have hle (a b : Nat) : b % m ≤ a % m + m := by
      have : b % m < m := Nat.mod_lt _ (Nat.pos_of_ne_zero hm)
      omega
    refine ⟨fun k => [a₀, a₁, b₀, b₁, m, a₀ % m, a₁ % m, b₀ % m, b₁ % m, a₀ % m + m,
      a₀ % m + m - b₀ % m, (a₀ % m + m - b₀ % m) % m, a₁ % m + m, a₁ % m + m - b₁ % m,
      (a₁ % m + m - b₁ % m) % m, (a₀ % m + m - b₀ % m) % m, (a₁ % m + m - b₁ % m) % m, 0].getD k 0,
      rfl, ?_⟩
    exact ⟨⟨hm, rfl⟩, ⟨hm, rfl⟩, ⟨hm, rfl⟩, ⟨hm, rfl⟩, rfl, ⟨hle _ _, rfl⟩, ⟨hm, rfl⟩, rfl,
      ⟨hle _ _, rfl⟩, ⟨hm, rfl⟩, rfl, rfl, rfl⟩

theorem isSome_widths (op : Operation) : (Gate.widths [] op.gates).isSome = true := by
  cases op <;> decide

/-- The values of a built-in circuit on short operands are writable. -/
theorem writable_of_consistent {op : Operation} {values : Nat → Nat}
    (h : ∀ pc < op.program.size, op.program.code.Consistent values pc)
    (hshort : ∀ n ∈ op.operandsIn values, Short n) :
    ∀ pc < op.program.size, Writable (values pc) := by
  have hread : ∀ k ∈ op.program.code.positions .read op.program.size, Short (values k) :=
    fun k hk => hshort _ (List.mem_map_of_mem hk)
  exact Code.writable_of_widths h hread (by rw [gates_program]; exact isSome_widths op)

/-- Whether a circuit that takes in the given operands comes, with consistent values, to a computing
instruction that has no result, for the given reason. -/
def Fails (op : Operation) (ns : List Nat) (reason : Halt) : Prop :=
  ∃ (values : Nat → Nat) (n : Nat), (op.program.code.positions .read n).map values = ns ∧
    (∀ pc < n, op.program.code.Consistent values pc) ∧
      ∃ i, op.program.code[n]? = some i ∧ i.op.isBinary = true ∧
        compute i.op (op.program.code.before values i.b n) (op.program.code.before values i.c n) =
          .error reason

theorem fails_of_modulus_eq_zero {op : Operation} {ns : List Nat}
    (hlen : ns.length = op.inputShape.size) (h : modulus ns = 0) : op.Fails ns .zeroModulus := by
  have hprefix {values : Nat → Nat} {n : Nat} (hn : n ≤ op.program.size)
      (hgates : Gate.HoldFrom values 0 (op.gates.take n)) :
      ∀ pc < n, op.program.code.Consistent values pc := (consistent_iff_gates hn).2 hgates
  cases op with
  | modadd =>
    obtain ⟨a, b, m, rfl⟩ := List.length_eq_three.1 hlen
    obtain rfl : m = 0 := h
    refine ⟨fun k => [a, b, 0, a + b].getD k 0, 4, rfl, hprefix (by decide +kernel) ?_,
      _, rfl, rfl, rfl⟩
    exact ⟨trivial, trivial, trivial, rfl, trivial⟩
  | modsub =>
    obtain ⟨a, b, m, rfl⟩ := List.length_eq_three.1 hlen
    obtain rfl : m = 0 := h
    refine ⟨fun k => [a, b, 0].getD k 0, 3, rfl, hprefix (by decide +kernel) ?_, _, rfl, rfl, rfl⟩
    exact ⟨trivial, trivial, trivial, trivial⟩
  | modmul =>
    obtain ⟨a, b, m, rfl⟩ := List.length_eq_three.1 hlen
    obtain rfl : m = 0 := h
    refine ⟨fun k => [a, b, 0, a * b].getD k 0, 4, rfl, hprefix (by decide +kernel) ?_,
      _, rfl, rfl, rfl⟩
    exact ⟨trivial, trivial, trivial, rfl, trivial⟩
  | modinv =>
    obtain ⟨a, m, rfl⟩ := List.length_eq_two.1 hlen
    obtain rfl : m = 0 := h
    refine ⟨fun k => [a, 0].getD k 0, 2, rfl, hprefix (by decide +kernel) ?_, _, rfl, rfl, rfl⟩
    exact ⟨trivial, trivial, trivial⟩
  | extfieldadd =>
    obtain ⟨a₀, a₁, b₀, b₁, m, rfl⟩ := exists_of_length_eq_five hlen
    obtain rfl : m = 0 := h
    refine ⟨fun k => [a₀, a₁, b₀, b₁, 0, a₀ + b₀].getD k 0, 6, rfl, hprefix (by decide +kernel) ?_,
      _, rfl, rfl, rfl⟩
    exact ⟨trivial, trivial, trivial, trivial, trivial, rfl, trivial⟩
  | extfieldsub =>
    obtain ⟨a₀, a₁, b₀, b₁, m, rfl⟩ := exists_of_length_eq_five hlen
    obtain rfl : m = 0 := h
    refine ⟨fun k => [a₀, a₁, b₀, b₁, 0].getD k 0, 5, rfl, hprefix (by decide +kernel) ?_,
      _, rfl, rfl, rfl⟩
    exact ⟨trivial, trivial, trivial, trivial, trivial, trivial⟩

theorem fails_of_not_coprime {ns : List Nat} (hlen : ns.length = modinv.inputShape.size)
    (hm : modulus ns ≠ 0) (h : Nat.gcd (ns.headD 0) (modulus ns) ≠ 1) :
    modinv.Fails ns (.noInverse (ns.headD 0) (modulus ns)) := by
  obtain ⟨a, m, rfl⟩ := List.length_eq_two.1 hlen
  have hnone : inverseMod? a m = none := by
    cases hv : inverseMod? a m with
    | none => rfl
    | some v => exact absurd (exists_inverseMod?_iff.1 ⟨v, hv⟩).2 h
  have hprefix : ∀ pc < 2, modinv.program.code.Consistent (fun k => [a, m].getD k 0) pc :=
    (consistent_iff_gates (by decide +kernel)).2 ⟨trivial, trivial, trivial⟩
  have hcompute : compute .inv a m = .error (.noInverse a m) := by
    rw [compute, if_neg (show m ≠ 0 from hm), hnone]
  exact ⟨_, 2, rfl, hprefix, _, rfl, rfl, hcompute⟩

end Operation

end CircuitReceipts
