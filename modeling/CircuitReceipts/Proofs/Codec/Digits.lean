import CircuitReceipts.Binary64.Decimal
import CircuitReceipts.Bytes
import Mathlib.Data.List.Basic

/-!
# Digits written and read back

The hexadecimal form of a byte string is read back as that byte string, and the decimal form of a
natural number is a run of digits, without a leading zero unless it is the number zero, that stands
for the number.
-/

namespace CircuitReceipts

namespace Bytes

def digit (d : Nat) : Symbol :=
  .char d.digitChar

theorem hexDigit?_digit {d : Nat} (hd : d < 16) : hexDigit? (digit d) = some d := by
  have h : ∀ d : Fin 16, hexDigit? (digit d) = some d.1 := by decide
  exact h ⟨d, hd⟩

theorem isNarrowBlank_digit {d : Nat} (hd : d < 16) : (digit d).isNarrowBlank = false := by
  have h : ∀ d : Fin 16, (digit d).isNarrowBlank = false := by decide
  exact h ⟨d, hd⟩

theorem hexDigits_two {n : Nat} (hn : n < 256) :
    hexDigits 2 n = [digit (n / 16), digit (n % 16)] := by
  have h : ∀ n : Fin 256, hexDigits 2 n = [digit (n / 16), digit (n % 16)] := by decide +kernel
  exact h ⟨n, hn⟩

theorem hex_cons (x : UInt8) (b : Bytes) :
    hex (x :: b) = digit (x.toNat / 16) :: digit (x.toNat % 16) :: hex b := by
  rw [hex, List.flatMap_cons, hexDigits_two x.toNat_lt]
  rfl

@[simp] theorem ofHex?_hex (b : Bytes) : ofHex? b.hex = some b := by
  induction b with
  | nil => rfl
  | cons x b ih =>
    have hx := x.toNat_lt
    have hhigh : x.toNat / 16 < 16 := by omega
    have hlow : x.toNat % 16 < 16 := by omega
    have hback : UInt8.ofNat (16 * (x.toNat / 16) + x.toNat % 16) = x := by
      rw [Nat.div_add_mod, UInt8.ofNat_toNat]
    rw [hex_cons, ofHex?, isNarrowBlank_digit hhigh, hexDigit?_digit hhigh, hexDigit?_digit hlow,
      ih]
    show some (UInt8.ofNat (16 * (x.toNat / 16) + x.toNat % 16) :: b) = some (x :: b)
    rw [hback]

end Bytes

namespace Numeral

variable {b n : Nat} {tail : List Nat}

theorem lt_of_mem_digitsOnto (hb : 2 ≤ b) {d : Nat} (h : d ∈ digitsOnto b n tail) :
    d < b ∨ d ∈ tail := by
  fun_induction digitsOnto b n tail with
  | case1 n tail hsmall =>
    rcases List.mem_cons.1 h with rfl | h
    · exact .inl (by omega)
    · exact .inr h
  | case2 n tail hlarge ih =>
    rcases ih h with hd | hd
    · exact .inl hd
    · rcases List.mem_cons.1 hd with rfl | hd
      · exact .inl (Nat.mod_lt _ (by omega))
      · exact .inr hd

theorem exists_digitsOnto_eq_cons (hb : 2 ≤ b) (hn : n ≠ 0) :
    ∃ d ds, digitsOnto b n tail = d :: ds ∧ d ≠ 0 := by
  fun_induction digitsOnto b n tail with
  | case1 n tail hsmall => exact ⟨n, tail, rfl, hn⟩
  | case2 n tail hlarge ih =>
    refine ih ?_
    have := Nat.div_pos (a := n) (b := b) (by omega) (by omega)
    omega

theorem point_digit {d : Nat} (hd : d < 10) : (Symbol.char d.digitChar).point = 48 + d := by
  have h : ∀ d : Fin 10, (Symbol.char d.1.digitChar).point = 48 + d := by decide
  exact h ⟨d, hd⟩

theorem isDigit_of_mem_natural {s : Symbol} (h : s ∈ natural 10 n) :
    Binary64.isDigit s = true := by
  obtain ⟨d, hd, rfl⟩ := List.mem_map.1 h
  have hlt : d < 10 := (lt_of_mem_digitsOnto (by decide) hd).resolve_right (by simp)
  simp only [Binary64.isDigit, point_digit hlt, Bool.and_eq_true, decide_eq_true_eq]
  omega

theorem digitsValue_natural (n : Nat) : Binary64.digitsValue (natural 10 n) = n := by
  have hdigits : (natural 10 n).map (fun s => s.point - 48) = digits 10 n := by
    rw [natural, List.map_map]
    conv_rhs => rw [← List.map_id (digits 10 n)]
    refine List.map_congr_left fun d hd => ?_
    have hlt : d < 10 := (lt_of_mem_digitsOnto (by decide) hd).resolve_right (by simp)
    rw [Function.comp_apply, point_digit hlt, Nat.add_sub_cancel_left]
    rfl
  rw [Binary64.digitsValue, hdigits, ofDigits_digits]

/-- A decimal numeral is the digit zero, or begins with another digit. -/
theorem natural_eq (n : Nat) :
    natural 10 n = [.char '0'] ∨ ∃ s rest, natural 10 n = s :: rest ∧ s ≠ .char '0' := by
  by_cases hn : n = 0
  · subst hn
    exact .inl (by decide +kernel)
  · obtain ⟨d, ds, hds, hd⟩ : ∃ d ds, digitsOnto 10 n [] = d :: ds ∧ d ≠ 0 :=
      exists_digitsOnto_eq_cons (by decide) hn
    have hmem : d ∈ digitsOnto 10 n [] := by
      rw [hds]
      exact List.mem_cons_self ..
    have hlt : d < 10 := (lt_of_mem_digitsOnto (by decide) hmem).resolve_right (by simp)
    refine .inr ⟨.char d.digitChar, ds.map fun d => .char d.digitChar, ?_, fun hc => ?_⟩
    · rw [natural, digits, hds]
      rfl
    · have hpoint := congrArg Symbol.point hc
      rw [point_digit hlt] at hpoint
      simp [Symbol.point] at hpoint
      omega

end Numeral

end CircuitReceipts
