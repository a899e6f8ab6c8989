import CircuitReceipts.Value.Arithmetic
import Mathlib.Data.Int.ModEq
import Mathlib.Data.Nat.ModEq
import Mathlib.Tactic.Ring

/-!
# Modular inverses

`bezout` finds the coefficients of a greatest common divisor, so `inverseMod?` finds an inverse
whenever there is one. Since an inverse below the modulus is unique, its result is characterized by
the congruence alone.
-/

namespace CircuitReceipts

/-- The coefficients combine the two numbers to their greatest common divisor. -/
theorem bezout_spec (a b : Nat) :
    (bezout a b).1 * a + (bezout a b).2 * b = (Nat.gcd a b : Int) := by
  fun_induction bezout a b with
  | case1 a => simp
  | case2 a b hb s t hst ih =>
    rw [hst] at ih
    simp only at ih ⊢
    have hdiv : ((a % b : Nat) : Int) + (b : Int) * ((a / b : Nat) : Int) = a := by
      exact_mod_cast Nat.mod_add_div a b
    rw [Nat.gcd_comm, Nat.gcd_rec, Nat.gcd_comm, ← ih]
    calc t * (a : Int) + (s - t * ((a / b : Nat) : Int)) * b
        = t * ((a : Int) - b * ((a / b : Nat) : Int)) + s * b := by ring
      _ = s * b + t * ((a % b : Nat) : Int) := by rw [← hdiv]; ring

theorem inverseMod?_eq_some_iff {a m v : Nat} :
    inverseMod? a m = some v ↔ v < m ∧ a * v ≡ 1 [MOD m] := by
  -- Any inverse shows that the number and the modulus are coprime; the one that is found is one;
  -- and two of them below the modulus are equal.
  have hfound (hm : m ≠ 0) (hg : Nat.gcd a m = 1) :
      ((bezout (a % m) m).1 % (m : Int)).toNat < m ∧
        a * ((bezout (a % m) m).1 % (m : Int)).toNat ≡ 1 [MOD m] := by
    have hpos : (0 : Int) < m := by omega
    have hnonneg := Int.emod_nonneg (bezout (a % m) m).1 (by omega : (m : Int) ≠ 0)
    have hlt := Int.emod_lt_of_pos (bezout (a % m) m).1 hpos
    refine ⟨by omega, ?_⟩
    have hb := bezout_spec (a % m) m
    rw [← Nat.gcd_rec, Nat.gcd_comm, hg] at hb
    rw [← Int.natCast_modEq_iff]
    push_cast
    rw [Int.toNat_of_nonneg hnonneg]
    calc (a : Int) * ((bezout (a % m) m).1 % m)
        ≡ (a % m : Int) * (bezout (a % m) m).1 [ZMOD m] :=
          Int.ModEq.mul (Int.mod_modEq _ _).symm (Int.mod_modEq _ _)
      _ ≡ (bezout (a % m) m).1 * (a % m : Int) + (bezout (a % m) m).2 * m [ZMOD m] := by
          rw [mul_comm]
          exact Int.modEq_add_mul_modulus_iff.2 (Int.ModEq.refl _)
      _ = 1 := by exact_mod_cast hb
  rw [inverseMod?]
  constructor
  · intro h
    split at h
    · next hc =>
      cases h
      exact hfound hc.1 hc.2
    · exact absurd h (by simp)
  · rintro ⟨hv, hav⟩
    have hm : m ≠ 0 := by omega
    have hg : Nat.gcd a m = 1 := Nat.coprime_of_mul_modEq_one v hav
    obtain ⟨hlt, hmul⟩ := hfound hm hg
    rw [if_pos ⟨hm, hg⟩, Option.some.injEq]
    have hcancel := Nat.ModEq.cancel_left_of_coprime
      (Nat.coprime_iff_gcd_eq_one.1 (Nat.Coprime.symm hg)) (hmul.trans hav.symm)
    exact Nat.ModEq.eq_of_lt_of_lt hcancel hlt hv

theorem exists_inverseMod?_iff {a m : Nat} :
    (∃ v, inverseMod? a m = some v) ↔ m ≠ 0 ∧ Nat.gcd a m = 1 := by
  rw [inverseMod?]
  split
  · next h => simp [h]
  · next h => simp [h]

theorem inverseMod?_mod (a m : Nat) : inverseMod? (a % m) m = inverseMod? a m := by
  have hgcd : Nat.gcd (a % m) m = Nat.gcd a m := by
    rw [← Nat.gcd_rec, Nat.gcd_comm]
  simp only [inverseMod?, Nat.mod_mod, hgcd]

end CircuitReceipts
