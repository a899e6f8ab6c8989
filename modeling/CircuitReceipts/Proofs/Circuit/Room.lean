import CircuitReceipts.Proofs.Circuit.Builtin
import CircuitReceipts.Proofs.Engine.Run

/-!
# How much room a circuit needs

A register has a limited number of bits. Most instructions produce a number that is no greater than
one they have read: a remainder and an inverse stay below their modulus, and a difference below what
is subtracted from. Only numbers from outside, sums and products can be greater. So the limits of a
run leave room for all values of a built-in circuit as soon as they do for its operands and for the
few sums and products that its operation names.
-/

namespace CircuitReceipts

theorem bitLength_mono {m n : Nat} (hmn : m ≤ n) : bitLength m ≤ bitLength n :=
  bitLength_le_iff.2 (Nat.lt_of_le_of_lt hmn (bitLength_le_iff.1 (Nat.le_refl _)))

/-- Whether an instruction can produce a number, without taking it from the input, that is greater
than all it has read. -/
def Opcode.enlarges : Opcode → Bool
  | const | add | mul => true
  | _ => false

namespace Code

variable {code : Code} {values : Nat → Nat} {n : Nat}

/-- What holds of zero and, with a number, of all below it holds of all values of a circuit if it
holds of those that are read and of those that can be greater than their sources. -/
theorem forall_of_enlarging {P : Nat → Prop} (hzero : P 0)
    (hmono : ∀ {v w : Nat}, v ≤ w → P w → P v) (hvalues : ∀ pc < n, code.Consistent values pc)
    (hread : ∀ pc ∈ code.positions .read n, P (values pc))
    (henlarges : ∀ {pc : Nat} {i : Instruction}, pc < n → code[pc]? = some i →
      i.op.enlarges = true → P (values pc)) :
    ∀ pc < n, P (values pc) := by
  intro pc
  induction pc using Nat.strong_induction_on with
  | _ pc ih =>
  intro hpc
  obtain ⟨i, hi, hproduces⟩ := hvalues pc hpc
  have hbefore (register : Int) : P (code.before values register pc) := by
    rw [before]
    cases hw : code.lastWriter register pc with
    | none => exact hzero
    | some w =>
      have hlt := (lastWriter_eq_some hw).1
      exact ih w hlt (Nat.lt_trans hlt hpc)
  rw [Produces] at hproduces
  cases hop : i.op with
  | read =>
    refine hread pc (mem_positions.2 ⟨hpc, ?_⟩)
    rw [hi, Option.map_some, hop]
  | const | add | mul => exact henlarges hpc hi (by rw [hop]; rfl)
  | sub =>
    simp only [hop, compute_sub_eq_ok] at hproduces
    exact hproduces.2 ▸ hmono (Nat.sub_le _ _) (hbefore i.b)
  | mod =>
    simp only [hop, compute_mod_eq_ok] at hproduces
    have hlt := Nat.mod_lt (code.before values i.b pc) (Nat.pos_of_ne_zero hproduces.1)
    exact hproduces.2 ▸ hmono (Nat.le_of_lt hlt) (hbefore i.c)
  | inv =>
    simp only [hop, compute_inv_eq_ok] at hproduces
    exact hmono (Nat.le_of_lt (inverseMod?_eq_some_iff.1 hproduces).1) (hbefore i.c)
  | commit =>
    simp only [hop] at hproduces
    exact hproduces ▸ hbefore i.a
  | halt =>
    simp only [hop] at hproduces
    exact hproduces ▸ hzero

end Code

/-- Whether the gate of an instruction can produce a number greater than all it has read. -/
def Gate.enlarges : Gate → Bool
  | const _ => true
  | compute op _ _ => op.enlarges
  | _ => false

theorem Code.enlarges_gate (code : Code) (pc : Nat) (i : Instruction) :
    (code.gate pc i).enlarges = i.op.enlarges := by
  rw [gate]
  cases i.op <;> rfl

namespace Operation

/-- The sums and products that come up in an operation on given operands, before they are
reduced. -/
def intermediates : Operation → List Nat → List Nat
  | modadd, [a, b, _] => [a + b]
  | modsub, [a, _, m] => [a % m + m]
  | modmul, [a, b, _] => [a * b]
  | extfieldadd, [a₀, a₁, b₀, b₁, _] => [a₀ + b₀, a₁ + b₁]
  | extfieldsub, [a₀, a₁, _, _, m] => [a₀ % m + m, a₁ % m + m]
  | _, _ => []

/-- The gates of a built-in circuit that add or multiply, with their positions. -/
def sums : Operation → List (Gate × Nat)
  | modadd => [(.compute .add (some 0) (some 1), 3)]
  | modsub => [(.compute .add (some 3) (some 2), 5)]
  | modmul => [(.compute .mul (some 0) (some 1), 3)]
  | modinv => []
  | extfieldadd => [(.compute .add (some 0) (some 2), 5), (.compute .add (some 1) (some 3), 7)]
  | extfieldsub => [(.compute .add (some 5) (some 4), 9), (.compute .add (some 6) (some 4), 12)]

theorem filter_enlarges (op : Operation) :
    (op.gates.zipIdx.filter fun e => e.1.enlarges) = op.sums := by
  cases op <;> rfl

variable {op : Operation} {values : Nat → Nat} {n : Nat} {ns : List Nat}

/-- What the sums and products of a built-in circuit come to, with its operands, are the
intermediate results of the operation. -/
theorem mem_intermediates (hn : n ≤ op.program.size)
    (hvalues : ∀ pc < n, op.program.code.Consistent values pc) {pc : Nat} {i : Instruction}
    (hpc : pc < n) (hi : op.program.code[pc]? = some i) (henlarges : i.op.enlarges = true) :
    values pc ∈ op.intermediates (op.operandsIn values) := by
  have hgate {k : Nat} {g : Gate} (hk : k < n) (hg : op.gates[k]? = some g) :
      g.Holds values (values k) := by
    have htake : (op.gates.take n)[k]? = some g := by rw [List.getElem?_take_of_lt hk, hg]
    have hholds := Gate.holdFrom_iff.1 ((consistent_iff_gates hn).1 hvalues) htake
    rwa [Nat.zero_add] at hholds
  have hadd {k a b : Nat} (hk : k < n)
      (hg : op.gates[k]? = some (.compute .add (some a) (some b))) :
      values a + values b = values k := compute_add_eq_ok.1 (hgate hk hg)
  have hmul {k a b : Nat} (hk : k < n)
      (hg : op.gates[k]? = some (.compute .mul (some a) (some b))) :
      values a * values b = values k := compute_mul_eq_ok.1 (hgate hk hg)
  have hmod {k a b : Nat} (hk : k < n)
      (hg : op.gates[k]? = some (.compute .mod (some a) (some b))) :
      values a % values b = values k := (compute_mod_eq_ok.1 (hgate hk hg)).2
  obtain ⟨g, hg, hsum⟩ : ∃ g, op.gates[pc]? = some g ∧ (g, pc) ∈ op.sums := by
    have hg : op.gates[pc]? = some (op.program.code.gate pc i) := by
      rw [← gates_program, Code.gates, List.getElem?_mapIdx, Array.getElem?_toList, hi]
      rfl
    refine ⟨_, hg, ?_⟩
    rw [← filter_enlarges, List.mem_filter, List.mem_zipIdx_iff_getElem?, Code.enlarges_gate]
    exact ⟨hg, henlarges⟩
  rw [operandsIn_eq]
  -- The sum in a difference adds to a remainder, which is the value of a gate before.
  cases op with
  | modadd =>
    obtain ⟨rfl, rfl⟩ := Prod.mk.inj (List.mem_singleton.1 hsum)
    rw [← hadd hpc hg]
    exact List.mem_singleton_self _
  | modsub =>
    obtain ⟨rfl, rfl⟩ := Prod.mk.inj (List.mem_singleton.1 hsum)
    rw [← hadd hpc hg, ← hmod (k := 3) (by omega) rfl]
    exact List.mem_singleton_self _
  | modmul =>
    obtain ⟨rfl, rfl⟩ := Prod.mk.inj (List.mem_singleton.1 hsum)
    rw [← hmul hpc hg]
    exact List.mem_singleton_self _
  | modinv => exact absurd hsum List.not_mem_nil
  | extfieldadd =>
    rcases List.mem_pair.1 hsum with hsum | hsum
    · obtain ⟨rfl, rfl⟩ := Prod.mk.inj hsum
      rw [← hadd hpc hg]
      exact List.mem_cons_self
    · obtain ⟨rfl, rfl⟩ := Prod.mk.inj hsum
      rw [← hadd hpc hg]
      exact List.mem_cons_of_mem _ List.mem_cons_self
  | extfieldsub =>
    rcases List.mem_pair.1 hsum with hsum | hsum
    · obtain ⟨rfl, rfl⟩ := Prod.mk.inj hsum
      rw [← hadd hpc hg, ← hmod (k := 5) (by omega) rfl]
      exact List.mem_cons_self
    · obtain ⟨rfl, rfl⟩ := Prod.mk.inj hsum
      rw [← hadd hpc hg, ← hmod (k := 6) (by omega) rfl]
      exact List.mem_cons_of_mem _ List.mem_cons_self

/-- A circuit that has taken in as many numbers as its operation has operands has taken in all. -/
theorem operandsIn_of_positions (hn : n ≤ op.program.size) (hlen : ns.length = op.inputShape.size)
    (h : (op.program.code.positions .read n).map values = ns) : op.operandsIn values = ns := by
  obtain ⟨more, hmore⟩ := op.program.code.positions_prefix .read hn
  have hcount : (op.program.code.positions .read op.program.size).length = op.inputShape.size := by
    have hall := congrArg List.length (op.operandsIn_eq values)
    rwa [operandsIn, List.length_map, List.length_map, List.length_range] at hall
  have hfound : (op.program.code.positions .read n).length = op.inputShape.size := by
    rw [← hlen, ← h, List.length_map]
  have hnone : more = [] := by
    rw [hmore, List.length_append] at hcount
    exact List.length_eq_zero_iff.1 (by omega)
  rw [operandsIn, hmore, hnone, List.append_nil, h]

end Operation

/-- Whether limits leave room for an operation on operands: for all instructions of its circuit, and
in a register for each operand and each intermediate result. -/
structure Limits.RoomFor (l : Limits) (op : Operation) (ns : List Nat) : Prop where
  session : (op.program.size : Int) ≤ l.session
  operands : ∀ n ∈ ns, (bitLength n : Int) ≤ l.registerBits
  intermediates : ∀ n ∈ op.intermediates ns, (bitLength n : Int) ≤ l.registerBits

/-- Limits with room for an operation on operands allow its circuit to come, with these operands,
wherever its values are consistent. -/
theorem Limits.RoomFor.allow {l : Limits} {op : Operation} {values : Nat → Nat} {n : Nat}
    (h : l.RoomFor op (op.operandsIn values)) (hn : n ≤ op.program.size)
    (hvalues : ∀ pc < n, op.program.code.Consistent values pc) : l.Allow values n := by
  have hread {k : Nat} (hk : k ∈ op.program.code.positions .read op.program.size) :
      (bitLength (values k) : Int) ≤ l.registerBits := h.operands _ (List.mem_map_of_mem hk)
  have hzero : (bitLength 0 : Int) ≤ l.registerBits := by
    have hfirst : 0 ∈ op.program.code.positions .read op.program.size := by
      cases op <;> decide +kernel
    exact Int.le_trans (Int.ofNat_le.2 (bitLength_mono (Nat.zero_le _))) (hread hfirst)
  refine ⟨Int.le_trans (Int.ofNat_le.2 hn) h.session, ?_⟩
  refine Code.forall_of_enlarging (P := fun v => (bitLength v : Int) ≤ l.registerBits) hzero ?_
    hvalues ?_ ?_
  · intro v w hvw hw
    exact Int.le_trans (Int.ofNat_le.2 (bitLength_mono hvw)) hw
  · intro pc hpc
    obtain ⟨more, hmore⟩ := op.program.code.positions_prefix .read hn
    exact hread (hmore ▸ List.mem_append_left _ hpc)
  · intro pc i hpc hi henlarges
    exact h.intermediates _ (Operation.mem_intermediates hn hvalues hpc hi henlarges)

end CircuitReceipts
