import CircuitReceipts.Bytes

/-!
# Limbs

A natural number as 32-bit limbs, the least significant first and none too many: the last limb is
never zero, and zero has no limbs. Words are written to bytes with the least byte first. The main
statements say that limbs and numbers, and words and bytes, determine each other.
-/

namespace CircuitReceipts

def limbs (n : Nat) : List UInt32 :=
  if _zero : n = 0 then [] else UInt32.ofNat n :: limbs (n / 0x100000000)
termination_by n
decreasing_by exact Nat.div_lt_self (by omega) (by decide)

def ofLimbs : List UInt32 → Nat
  | [] => 0
  | w :: ws => w.toNat + 0x100000000 * ofLimbs ws

@[simp] theorem limbs_zero : limbs 0 = [] := by
  rw [limbs]
  simp

theorem limbs_of_ne_zero {n : Nat} (h : n ≠ 0) :
    limbs n = UInt32.ofNat n :: limbs (n / 0x100000000) := by
  rw [limbs, dif_neg h]

/-- A number is what its limbs stand for. -/
@[simp] theorem ofLimbs_limbs (n : Nat) : ofLimbs (limbs n) = n := by
  fun_induction limbs n with
  | case1 => rfl
  | case2 n h ih =>
    rw [ofLimbs, ih]
    simp only [UInt32.toNat_ofNat']
    omega

/-- The last limb of a number is not zero. -/
theorem getLast?_limbs (n : Nat) : (limbs n).getLast? ≠ some 0 := by
  fun_induction limbs n with
  | case1 => simp
  | case2 n h ih =>
    rw [List.getLast?_cons]
    cases hl : (limbs (n / 0x100000000)).getLast? with
    | some w =>
      rw [hl] at ih
      simpa using ih
    | none =>
      have hn : limbs (n / 0x100000000) = [] := List.getLast?_eq_none_iff.1 hl
      have hz : n / 0x100000000 = 0 := by
        have := ofLimbs_limbs (n / 0x100000000)
        rw [hn] at this
        exact this.symm
      intro hc
      simp only [Option.getD_none, Option.some.injEq] at hc
      have h0 := congrArg UInt32.toNat hc
      simp only [UInt32.toNat_ofNat', UInt32.toNat_zero] at h0
      omega

/-- Limbs whose last is not zero are the limbs of the number they stand for. -/
theorem limbs_ofLimbs {ws : List UInt32} (h : ws.getLast? ≠ some 0) :
    limbs (ofLimbs ws) = ws := by
  induction ws with
  | nil => simp [ofLimbs]
  | cons w ws ih =>
    have hw := w.toNat_lt
    have hlast : ws.getLast? ≠ some 0 := by
      intro hc
      apply h
      rw [List.getLast?_cons, hc]
      rfl
    have hne : ofLimbs (w :: ws) ≠ 0 := by
      intro hz
      rw [ofLimbs] at hz
      have hws : ws = [] := by
        have := ih hlast
        rw [show ofLimbs ws = 0 by omega, limbs_zero] at this
        exact this.symm
      subst hws
      apply h
      have : w = 0 := UInt32.toNat.inj (by simpa [ofLimbs] using hz)
      simp [this]
    rw [limbs_of_ne_zero hne]
    congr 1
    · apply UInt32.toNat.inj
      simp only [ofLimbs, UInt32.toNat_ofNat']
      omega
    · have hquotient : (w.toNat + 0x100000000 * ofLimbs ws) / 0x100000000 = ofLimbs ws := by omega
      rw [ofLimbs, hquotient, ih hlast]

def bytesOfWords (ws : List UInt32) : Bytes :=
  ws.flatMap fun w => Bytes.ofNat 4 w.toNat

/-- The words of bytes; none if their count is no multiple of four. -/
def wordsOfBytes? : Bytes → Option (List UInt32)
  | [] => some []
  | a :: b :: c :: d :: rest =>
    (wordsOfBytes? rest).map (UInt32.ofNat (Bytes.toNat [a, b, c, d]) :: ·)
  | _ => none

/-- The words that integers are, if every one has room in a word. -/
def wordsOfInts? (ns : List Int) : Option (List UInt32) :=
  ns.mapM fun n => if 0 ≤ n ∧ n < 0x100000000 then some (UInt32.ofNat n.toNat) else none

@[simp] theorem bytesOfWords_nil : bytesOfWords [] = [] := rfl

@[simp] theorem bytesOfWords_append (us vs : List UInt32) :
    bytesOfWords (us ++ vs) = bytesOfWords us ++ bytesOfWords vs := by
  simp [bytesOfWords]

@[simp] theorem wordsOfBytes?_bytesOfWords (ws : List UInt32) :
    wordsOfBytes? (bytesOfWords ws) = some ws := by
  induction ws with
  | nil => rfl
  | cons w ws ih =>
    have hb : Bytes.toNat (Bytes.ofNat 4 w.toNat) = w.toNat := by
      rw [Bytes.toNat_ofNat, Nat.mod_eq_of_lt]
      exact w.toNat_lt
    simp only [bytesOfWords, List.flatMap_cons, Bytes.ofNat, List.cons_append, List.nil_append,
      wordsOfBytes?] at ih hb ⊢
    rw [hb, ih]
    simp

/-- Bytes that are words are the bytes of those words. -/
theorem bytesOfWords_of_wordsOfBytes? {b : Bytes} {ws : List UInt32}
    (h : wordsOfBytes? b = some ws) : bytesOfWords ws = b := by
  fun_induction wordsOfBytes? b generalizing ws with
  | case1 => simp_all
  | case2 a b c d rest ih =>
    obtain ⟨us, hu, rfl⟩ := Option.map_eq_some_iff.1 h
    have hlt := Bytes.toNat_lt [a, b, c, d]
    have hback := Bytes.ofNat_toNat [a, b, c, d]
    simp only [List.length_cons, List.length_nil, Nat.zero_add, Nat.reduceAdd] at hlt hback
    rw [bytesOfWords, List.flatMap_cons, ← bytesOfWords, ih hu, UInt32.toNat_ofNat',
      Nat.mod_eq_of_lt (by simpa [Bytes.capacity] using hlt), hback]
    rfl
  | case3 => simp at h

/-- Bytes are words exactly when their count is a multiple of four. -/
theorem wordsOfBytes?_eq_none_iff {b : Bytes} : wordsOfBytes? b = none ↔ b.length % 4 ≠ 0 := by
  fun_induction wordsOfBytes? b with
  | case1 => simp
  | case2 a b c d rest ih =>
    simp only [Option.map_eq_none_iff, ih, List.length_cons]
    omega
  | case3 b h₀ h₁ =>
    match b, h₀, h₁ with
    | [_], _, _ => simp
    | [_, _], _, _ => simp
    | [_, _, _], _, _ => simp
    | a :: b :: c :: d :: rest, _, h => exact absurd rfl (h a b c d rest)

end CircuitReceipts
