import CircuitReceipts.Proofs.Codec.Reading
import CircuitReceipts.Proofs.Success
import CircuitReceipts.Receipt.Options
import Mathlib.Order.Bounds.Basic

/-!
# Padded lengths

A trace is padded to a power of two. The exponent is the least one that holds the rows, or the
minimum that the options ask for if that is not below it. Nothing bounds this minimum, so the length
may be one that cannot be held; without one too large every trace with room in a word is padded.
-/

namespace CircuitReceipts

theorem paddedExponent_eq {minimum : Json} {n : Int} (hminimum : minimum.integer? = some n)
    (rows : Int) : paddedExponent rows minimum =
      .ok (if n < leastExponent rows then .int (leastExponent rows) else minimum) := by
  cases minimum with
  | int k =>
    cases hminimum
    rfl
  | bool b =>
    cases hminimum
    rfl
  | _ => cases hminimum

theorem exists_paddedExponent {minimum : Json} {n : Int} (hminimum : minimum.integer? = some n)
    (rows : Int) : ∃ po2, paddedExponent rows minimum = .ok po2 ∧
      po2.integer? = some (max n (leastExponent rows)) := by
  rw [paddedExponent_eq hminimum]
  split
  · next hlt =>
    rw [max_eq_right (Int.le_of_lt hlt)]
    exact ⟨_, rfl, rfl⟩
  · next hle =>
    rw [max_eq_left (Int.not_lt.1 hle)]
    exact ⟨_, rfl, hminimum⟩

theorem leastExponent_le_iff {rows k : Nat} (hrows : 0 < rows) :
    leastExponent rows ≤ k ↔ rows ≤ 2 ^ k := by
  have hlast : ((rows : Int) - 1).natAbs = rows - 1 := by omega
  rw [leastExponent, hlast, bitLength_le_iff]
  omega

/-- The exponent of a padded trace is the least number that is below neither the minimum nor zero
and whose power of two has room for the rows. -/
theorem isLeast_exponent {rows : Nat} (hrows : 0 < rows) (n : Int) :
    IsLeast {p : Int | max n 0 ≤ p ∧ rows ≤ 2 ^ p.toNat} (max n (leastExponent rows)) := by
  constructor
  · exact ⟨by omega, (leastExponent_le_iff hrows).1 (by omega)⟩
  · rintro p ⟨hp, hroom⟩
    have hleast := (leastExponent_le_iff hrows).2 hroom
    omega

theorem leastExponent_le {rows : Nat} (hrows : rows ≤ 0x100000000) : leastExponent rows ≤ 32 := by
  rcases Nat.eq_zero_or_pos rows with rfl | hpos
  · decide
  · exact (leastExponent_le_iff hpos).2 hrows

theorem paddedLength_of_lt {po2 : Json} {e : Int} (he : po2.integer? = some e)
    (hroom : e < exponentRoom) : paddedLength po2 = .ok (2 ^ e.toNat) := by
  have hlimit : ¬(exponentLimit : Int) ≤ e := by
    rw [exponentRoom] at hroom
    rw [exponentLimit]
    omega
  rw [paddedLength, he]
  simp only [if_neg hlimit, if_neg (Int.not_le.2 hroom)]
  rfl

theorem paddedLength_of_le {po2 : Json} {e : Int} (he : po2.integer? = some e)
    (hroom : exponentRoom ≤ e) :
    paddedLength po2 = .error .tooLarge ∨ paddedLength po2 = .error .noRoom := by
  rw [paddedLength, he]
  simp only [if_pos hroom]
  split
  · exact .inl rfl
  · exact .inr rfl

/-- The padded exponent is the least one, or the minimum if that is not below it. -/
theorem of_paddedExponent {minimum po2 : Json} {rows : Int}
    (h : paddedExponent rows minimum = .ok po2) :
    po2 = .int (leastExponent rows) ∨
      po2 = minimum ∧ ∀ n, minimum.integer? = some n → (leastExponent rows : Int) ≤ n := by
  cases hminimum : minimum.integer? with
  | some n =>
    rw [paddedExponent_eq hminimum, Except.ok.injEq] at h
    split at h
    · exact .inl h.symm
    · next hle =>
      refine .inr ⟨h.symm, fun n' hn' => ?_⟩
      cases hn'
      exact Int.not_lt.1 hle
  | none =>
    cases minimum with
    | float x =>
      rw [paddedExponent, Except.ok.injEq] at h
      split at h
      · exact .inl h.symm
      · exact .inr ⟨h.symm, fun n hn => nomatch hn⟩
    | int k => cases hminimum
    | bool b => cases hminimum
    | _ => simp [paddedExponent, Json.integer?] at h

/-- The exponent of a padded length that can be held is whole, and there is room for the rows. -/
theorem exists_exponent {minimum po2 : Json} {rows : Int} {cycles : Nat}
    (hpo2 : paddedExponent rows minimum = .ok po2) (hcycles : paddedLength po2 = .ok cycles) :
    ∃ exponent, po2.integer? = some exponent ∧ (leastExponent rows : Int) ≤ exponent := by
  obtain ⟨exponent, hexponent⟩ : ∃ exponent, po2.integer? = some exponent := by
    rw [paddedLength] at hcycles
    split at hcycles
    · exact ⟨_, ‹_›⟩
    · cases hcycles
  refine ⟨exponent, hexponent, ?_⟩
  rcases of_paddedExponent hpo2 with rfl | ⟨rfl, hle⟩
  · obtain rfl := Option.some.inj hexponent
    exact Int.le_refl _
  · exact hle _ hexponent

/-- Options in which every number is whole and in its range; an exponent from which on the padded
length cannot be held is out of range. -/
structure ProverOptions.Valid (o : ProverOptions) : Prop where
  queries : ∃ n, o.queries.integer? = some n ∧ 1 ≤ n ∧ n ≤ maxQueries
  arity : ∃ n a, o.arity.integer? = some n ∧ Arity.ofInt? n = some a
  minPo2 : ∃ n, o.minPo2.integer? = some n ∧ n < exponentRoom

theorem ProverOptions.valid_standard : ProverOptions.standard.Valid :=
  ⟨⟨16, rfl, by decide⟩, ⟨2, .two, rfl, rfl⟩, ⟨4, rfl, by decide⟩⟩

theorem ProverOptions.valid_fast : ProverOptions.fast.Valid :=
  ⟨⟨4, rfl, by decide⟩, valid_standard.arity, valid_standard.minPo2⟩

/-- Options that a trace of so many rows can be proved with: the numbers of queries and of children
are whole and in their ranges, and the padded length can be held. -/
structure ProverOptions.Usable (o : ProverOptions) (rows : Nat) : Prop where
  queries : ∃ n, o.queries.integer? = some n ∧ 1 ≤ n ∧ n ≤ maxQueries
  arity : ∃ n a, o.arity.integer? = some n ∧ Arity.ofInt? n = some a
  padded : ∃ po2 cycles, paddedExponent rows o.minPo2 = .ok po2 ∧ paddedLength po2 = .ok cycles

theorem ProverOptions.Valid.usable {o : ProverOptions} (h : o.Valid) {rows : Nat}
    (hrows : rows < 0x100000000) : o.Usable rows := by
  obtain ⟨minimum, hminimum, hroom⟩ := h.minPo2
  obtain ⟨po2, hpo2, hexponent⟩ := exists_paddedExponent hminimum rows
  have hleast := leastExponent_le (Nat.le_of_lt hrows)
  rw [exponentRoom] at hroom
  have hroom' : max minimum (leastExponent rows) < exponentRoom := by
    rw [exponentRoom]
    omega
  exact ⟨h.queries, h.arity, po2, _, hpo2, paddedLength_of_lt hexponent hroom'⟩

end CircuitReceipts
