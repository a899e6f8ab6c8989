import CircuitReceipts.Host

/-!
# What every host writes

A number with room in a word is written by every host, and every number by a host without a bound.
What a message shows is told number by number.
-/

namespace CircuitReceipts

namespace Host

variable {h : Host} {n : Int} {ns ms : List Int}

@[simp] theorem lifted_writes (n : Int) : lifted.Writes n := by
  simp [Writes, lifted]

@[simp] theorem lifted_tells (ns : List Int) : lifted.Tells ns :=
  fun n _ => lifted_writes n

/-- Every host writes the numbers that have room in a word. -/
theorem writes_of_natAbs_lt (hn : n.natAbs < 0x100000000) : h.Writes n := fun k hk =>
  calc n.natAbs < 10 ^ 10 := Nat.lt_trans hn (by decide)
    _ ≤ 10 ^ k := Nat.pow_le_pow_right (by decide) (Nat.le_trans (by decide) (h.digits_ge k hk))

@[simp] theorem tells_nil : h.Tells [] := by
  simp [Tells]

@[simp] theorem tells_cons : h.Tells (n :: ns) ↔ h.Writes n ∧ h.Tells ns := by
  simp [Tells]

@[simp] theorem tells_append : h.Tells (ns ++ ms) ↔ h.Tells ns ∧ h.Tells ms := by
  simp [Tells, or_imp, forall_and]

end Host

end CircuitReceipts
