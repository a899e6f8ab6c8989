import CircuitReceipts.Json.Lexer
import CircuitReceipts.Json.Printer
import CircuitReceipts.Proofs.Codec.Digits

/-!
# Strings written and read back

A written string holds printing symbols of ASCII only; whatever else the text has is escaped. A
reader that meets an escaped high surrogate waits for the low one that may follow, so a text in
which a high surrogate stands directly before a low one is read back as another text. All others are
read back as they were.
-/

namespace CircuitReceipts

/-- Whether no high surrogate of a text stands directly before a low one. -/
def Text.Unpaired (t : Text) : Prop :=
  t.IsChain fun s u => Token.isHigh s.point = true → Token.isLow u.point = false

theorem Text.unpaired_cons {s : Symbol} {t : Text} : Text.Unpaired (s :: t) ↔
    (Token.isHigh s.point = true → ∀ u ∈ t.head?, Token.isLow u.point = false) ∧ t.Unpaired := by
  cases t with
  | nil => simp [Unpaired]
  | cons u t => simp [Unpaired, List.isChain_cons_cons]

theorem Text.unpaired_of_forall {t : Text} (h : ∀ s ∈ t, Token.isHigh s.point = false) :
    t.Unpaired := by
  induction t with
  | nil => exact .nil
  | cons s t ih =>
    rw [List.forall_mem_cons] at h
    exact unpaired_cons.2 ⟨fun hs => absurd hs (by simp [h.1]), ih h.2⟩

theorem Token.isHigh_iff {n : Nat} : Token.isHigh n = true ↔ 0xD800 ≤ n ∧ n < 0xDC00 := by
  rw [isHigh, Bool.and_eq_true, decide_eq_true_eq, decide_eq_true_eq]

theorem Token.isLow_iff {n : Nat} : Token.isLow n = true ↔ 0xDC00 ≤ n ∧ n < 0xE000 := by
  rw [isLow, Bool.and_eq_true, decide_eq_true_eq, decide_eq_true_eq]

theorem Symbol.isHigh_char (c : Char) : Token.isHigh (Symbol.char c).point = false := by
  have hvalid : c.toNat < 0xD800 ∨ 0xDFFF < c.toNat ∧ c.toNat < 0x110000 := c.valid
  rw [Bool.eq_false_iff, Ne, Token.isHigh_iff, point]
  omega

theorem Text.unpaired_ofString (s : String) : (Text.ofString s).Unpaired := by
  refine unpaired_of_forall fun u hu => ?_
  obtain ⟨c, -, rfl⟩ := List.mem_map.1 hu
  exact Symbol.isHigh_char c

/-- A symbol of a text that spells bytes is a hexadecimal digit or a blank of ASCII, so it is no
surrogate. -/
theorem Bytes.point_lt_of_ofHex? {t : Text} {b : Bytes} (h : ofHex? t = some b) :
    ∀ s ∈ t, s.point < 0x80 := by
  have hblank {s : Symbol} (hs : s.isNarrowBlank = true) : s.point < 0x80 := by
    simp only [Symbol.isNarrowBlank, Bool.or_eq_true, Bool.and_eq_true, decide_eq_true_eq,
      beq_iff_eq] at hs
    omega
  have hdigit {s : Symbol} {d : Nat} (hs : hexDigit? s = some d) : s.point < 0x80 := by
    grind [hexDigit?]
  fun_induction ofHex? t generalizing b with
  | case1 => simp
  | case2 s hs => simpa using hblank hs
  | case3 s hs => cases h
  | case4 s t rest hs ih => exact List.forall_mem_cons.2 ⟨hblank hs, ih h⟩
  | case5 s t rest hs ih =>
    simp only [Option.bind_eq_bind, Option.bind_eq_some_iff] at h
    obtain ⟨high, hhigh, low, hlow, bs, hrest, -⟩ := h
    exact List.forall_mem_cons.2 ⟨hdigit hhigh, List.forall_mem_cons.2 ⟨hdigit hlow, ih hrest⟩⟩

theorem Text.unpaired_of_ofHex? {t : Text} {b : Bytes} (h : Bytes.ofHex? t = some b) :
    t.Unpaired := by
  refine unpaired_of_forall fun s hs => ?_
  have hlt := Bytes.point_lt_of_ofHex? h s hs
  rw [Bool.eq_false_iff, Ne, Token.isHigh_iff]
  omega

theorem Symbol.ofPoint?_point (s : Symbol) : ofPoint? s.point = some s := by
  cases s with
  | char c =>
    have hvalid : c.toNat < 0xD800 ∨ 0xDFFF < c.toNat ∧ c.toNat < 0x110000 := c.valid
    rw [ofPoint?, point, dif_neg (by omega), if_pos (by omega), Char.ofNat_toNat]
  | surrogate k =>
    have hk := k.2
    rw [ofPoint?, point, dif_pos (by omega)]
    simp

theorem Symbol.eq_of_point_eq {s u : Symbol} (h : s.point = u.point) : s = u := by
  rw [← Option.some_inj, ← ofPoint?_point, h, ofPoint?_point]

theorem Symbol.point_lt (s : Symbol) : s.point < 0x110000 := by
  cases s with
  | char c =>
    have hvalid : c.toNat < 0xD800 ∨ 0xDFFF < c.toNat ∧ c.toNat < 0x110000 := c.valid
    rw [point]
    omega
  | surrogate k =>
    have hk := k.2
    rw [point]
    omega

namespace Bytes

theorem digitsOnto_eq_append (b n : Nat) (ds : List Nat) :
    Numeral.digitsOnto b n ds = Numeral.digits b n ++ ds := by
  rw [Numeral.digits]
  induction n using Nat.strongRecOn generalizing ds with
  | ind n ih =>
    rw [Numeral.digitsOnto, Numeral.digitsOnto.eq_1 b n []]
    split
    · rfl
    · next hlarge =>
      have hlt : n / b < n := Nat.div_lt_self (by omega) (by omega)
      rw [ih _ hlt (n % b :: ds), ih _ hlt [n % b], List.append_assoc, List.singleton_append]

theorem natural_sixteen {n : Nat} (hn : 16 ≤ n) :
    Numeral.natural 16 n = Numeral.natural 16 (n / 16) ++ [digit (n % 16)] := by
  have hdigits : Numeral.digits 16 n = Numeral.digits 16 (n / 16) ++ [n % 16] := by
    rw [Numeral.digits, Numeral.digitsOnto, dif_neg (by omega), digitsOnto_eq_append]
  rw [Numeral.natural, hdigits, List.map_append, ← Numeral.natural]
  rfl

theorem natural_sixteen_of_lt {n : Nat} (hn : n < 16) : Numeral.natural 16 n = [digit n] := by
  rw [Numeral.natural, Numeral.digits, Numeral.digitsOnto, dif_pos (.inr hn)]
  rfl

theorem hexDigits_succ {width : Nat} (hwidth : 0 < width) (n : Nat) :
    hexDigits (width + 1) n = hexDigits width (n / 16) ++ [digit (n % 16)] := by
  rw [hexDigits, hexDigits, Text.padZeros, Text.padZeros, Text.zeros, Text.zeros]
  rcases Nat.lt_or_ge n 16 with hn | hn
  · obtain ⟨w, rfl⟩ := Nat.exists_eq_succ_of_ne_zero (Nat.ne_of_gt hwidth)
    rw [Nat.div_eq_of_lt hn, Nat.mod_eq_of_lt hn, natural_sixteen_of_lt hn,
      natural_sixteen_of_lt (by decide)]
    have hzero : digit 0 = .char '0' := rfl
    simp only [List.length_singleton, Nat.add_sub_cancel, Nat.succ_eq_add_one, hzero,
      List.replicate_succ']
  · rw [natural_sixteen hn, List.length_append, List.length_singleton, Nat.add_sub_add_right,
      List.append_assoc]

theorem hexDigits_four {n : Nat} (hn : n < 0x10000) : hexDigits 4 n =
    [digit (n / 16 / 16 / 16), digit (n / 16 / 16 % 16), digit (n / 16 % 16), digit (n % 16)] := by
  have hone {d : Nat} (hd : d < 16) : hexDigits 1 d = [digit d] := by
    have h : ∀ d : Fin 16, hexDigits 1 d = [digit d] := by decide +kernel
    exact h ⟨d, hd⟩
  rw [hexDigits_succ (by decide), hexDigits_succ (by decide), hexDigits_succ (by decide),
    hone (by omega)]
  rfl

end Bytes

namespace Token

open Json

theorem unit?_digits {n : Nat} (hn : n < 0x10000) :
    unit? (Bytes.digit (n / 16 / 16 / 16)) (Bytes.digit (n / 16 / 16 % 16))
      (Bytes.digit (n / 16 % 16)) (Bytes.digit (n % 16)) = some n := by
  simp only [unit?, Bytes.hexDigit?_digit (show n / 16 / 16 / 16 < 16 by omega),
    Bytes.hexDigit?_digit (Nat.mod_lt _ (show 0 < 16 by decide))]
  show some _ = some n
  congr 1
  omega

variable {high : Option Nat} {t rest : Text} {s : Symbol} {n : Nat}

/-- What is read first of an escaped unit. -/
theorem stringFrom?_unitEscape (hn : n < 0x10000) (t : Text) :
    stringFrom? high (unitEscape n ++ t) =
      match high with
      | some h =>
        if isLow n then (stringFrom? none t).map fun r => (ofPair h n :: r.1, r.2)
        else if isHigh n then (stringFrom? (some n) t).map fun r => (ofUnit h :: r.1, r.2)
        else (stringFrom? none t).map fun r => (ofUnit h :: ofUnit n :: r.1, r.2)
      | none =>
        if isHigh n then stringFrom? (some n) t
        else (stringFrom? none t).map fun r => (ofUnit n :: r.1, r.2) := by
  have hwritten : unitEscape n ++ t = .char '\\' :: .char 'u' :: Bytes.digit (n / 16 / 16 / 16) ::
      Bytes.digit (n / 16 / 16 % 16) :: Bytes.digit (n / 16 % 16) :: Bytes.digit (n % 16) :: t := by
    rw [unitEscape, Bytes.hexDigits_four hn]
    rfl
  cases high <;> simp only [hwritten, stringFrom?, unit?_digits hn]

theorem ofUnit_point (s : Symbol) : ofUnit s.point = s := by
  rw [ofUnit, Symbol.ofPoint?_point]
  rfl

theorem ofPair_point (h : 0x10000 ≤ s.point) :
    ofPair (0xD800 + (s.point - 0x10000) / 0x400) (0xDC00 + (s.point - 0x10000) % 0x400) = s := by
  have hlt := s.point_lt
  have hunit : 0x10000 + (0xD800 + (s.point - 0x10000) / 0x400 - 0xD800) * 0x400 +
      (0xDC00 + (s.point - 0x10000) % 0x400 - 0xDC00) = s.point := by omega
  rw [ofPair, hunit, ofUnit_point]

/-- The ways a symbol is written: by a letter after a backslash, as it is, as a unit, or as two. -/
theorem escaped_cases (s : Symbol) :
    (s.point < 0x7F ∧ ∃ c, letter? c = some s ∧ escaped s = [.char '\\', c]) ∨
    ((0x20 ≤ s.point ∧ s.point < 0x7F ∧ s.point ≠ 34 ∧ s.point ≠ 92) ∧ escaped s = [s]) ∨
    (s.point < 0x10000 ∧ escaped s = unitEscape s.point) ∨
    (0x10000 ≤ s.point ∧ escaped s = unitEscape (0xD800 + (s.point - 0x10000) / 0x400) ++
      unitEscape (0xDC00 + (s.point - 0x10000) % 0x400)) := by
  have hletter (c : Char) {l : Symbol} (hs : s.point = c.toNat) (hc : c.toNat < 0x7F)
      (hl : letter? l = some (.char c)) :
      s.point < 0x7F ∧ ∃ l', letter? l' = some s ∧ [.char '\\', l] = [.char '\\', l'] := by
    obtain rfl : s = .char c := Symbol.eq_of_point_eq hs
    exact ⟨hc, l, hl, rfl⟩
  rw [escaped]
  split_ifs with hquote hslash hb hf hn hr ht hplain hunit
  · exact .inl (hletter '"' hquote (by decide) rfl)
  · exact .inl (hletter '\\' hslash (by decide) rfl)
  · exact .inl (hletter '\x08' hb (by decide) rfl)
  · exact .inl (hletter '\x0c' hf (by decide) rfl)
  · exact .inl (hletter '\n' hn (by decide) rfl)
  · exact .inl (hletter '\r' hr (by decide) rfl)
  · exact .inl (hletter '\t' ht (by decide) rfl)
  · exact .inr (.inl ⟨⟨hplain.1, hplain.2, hquote, hslash⟩, rfl⟩)
  · exact .inr (.inr (.inl ⟨hunit, rfl⟩))
  · exact .inr (.inr (.inr ⟨Nat.not_lt.1 hunit, rfl⟩))

theorem stringFrom?_letter {c : Symbol} (hc : letter? c = some s) (t : Text) :
    stringFrom? high (.char '\\' :: c :: t) =
      (stringFrom? none t).map fun r => (alone high ++ s :: r.1, r.2) := by
  have hu : c ≠ .char 'u' := by
    rintro rfl
    cases hc
  rw [stringFrom?, hc]
  exact fun _ _ _ _ _ h => absurd h hu

theorem stringFrom?_self (hlow : 0x20 ≤ s.point) (hquote : s.point ≠ 34) (hslash : s.point ≠ 92)
    (t : Text) : stringFrom? high (s :: t) =
      (stringFrom? none t).map fun r => (alone high ++ s :: r.1, r.2) := by
  have hne {c : Char} (hc : s.point ≠ c.toNat) : s ≠ .char c := fun h => hc (by rw [h]; rfl)
  rw [stringFrom?]
  · rw [if_neg (by omega)]
  · exact hne hquote
  · exact fun _ _ _ _ _ h => absurd h (hne hslash)
  · exact fun _ _ h => absurd h (hne hslash)

/-- A symbol that is no high surrogate is read from what is written for it. A high surrogate read
before stands alone, for the symbol is no low one either. -/
theorem stringFrom?_escaped_cons (hs : isHigh s.point = false)
    (hhigh : ∀ h ∈ high, isLow s.point = false) (t : Text) :
    stringFrom? high (escaped s ++ t) =
      (stringFrom? none t).map fun r => (alone high ++ s :: r.1, r.2) := by
  rcases escaped_cases s with ⟨-, c, hc, hwritten⟩ | ⟨⟨hlow, -, hquote, hslash⟩, hwritten⟩ |
    ⟨hunit, hwritten⟩ | ⟨hpair, hwritten⟩
  · rw [hwritten]
    exact stringFrom?_letter hc t
  · rw [hwritten]
    exact stringFrom?_self hlow hquote hslash t
  · rw [hwritten, stringFrom?_unitEscape hunit, ofUnit_point]
    cases high with
    | none => simp only [hs]; rfl
    | some h => simp only [hs, hhigh h rfl]; rfl
  · have hlt := s.point_lt
    have hfirst : isHigh (0xD800 + (s.point - 0x10000) / 0x400) = true := isHigh_iff.2 (by omega)
    have hnotLow : isLow (0xD800 + (s.point - 0x10000) / 0x400) = false := by
      rw [Bool.eq_false_iff, Ne, isLow_iff]
      omega
    have hsecond : isLow (0xDC00 + (s.point - 0x10000) % 0x400) = true := isLow_iff.2 (by omega)
    have hrest : stringFrom? (some (0xD800 + (s.point - 0x10000) / 0x400))
        (unitEscape (0xDC00 + (s.point - 0x10000) % 0x400) ++ t) =
          (stringFrom? none t).map fun r => (s :: r.1, r.2) := by
      rw [stringFrom?_unitEscape (by omega)]
      simp only [hsecond, ofPair_point hpair, if_true]
    rw [hwritten, List.append_assoc, stringFrom?_unitEscape (by omega)]
    cases high with
    | none => simp only [hfirst, hrest, if_true]; rfl
    | some h =>
      simp only [hfirst, hnotLow, hrest, if_true, Bool.false_eq_true, if_false, Option.map_map]
      rfl

/-- A high surrogate is held until it is known what follows. -/
theorem stringFrom?_escaped_high (hs : isHigh s.point = true) (t : Text) :
    stringFrom? high (escaped s ++ t) =
      (stringFrom? (some s.point) t).map fun r => (alone high ++ r.1, r.2) := by
  have hrange := isHigh_iff.1 hs
  have hnotLow : isLow s.point = false := by
    rw [Bool.eq_false_iff, Ne, isLow_iff]
    omega
  have hwritten : escaped s = unitEscape s.point := by
    rcases escaped_cases s with ⟨hlt, -⟩ | ⟨⟨-, hlt, -⟩, -⟩ | ⟨-, hwritten⟩ | ⟨hle, -⟩
    · omega
    · omega
    · exact hwritten
    · omega
  rw [hwritten, stringFrom?_unitEscape (by omega)]
  cases high with
  | none =>
    simp only [hs, if_true]
    exact Option.map_id'.symm
  | some h =>
    simp only [hs, hnotLow, if_true, Bool.false_eq_true, if_false]
    rfl

theorem stringFrom?_escaped {t : Text} (ht : t.Unpaired)
    (hhigh : ∀ h ∈ high, ∀ s ∈ t.head?, isLow s.point = false) (rest : Text) :
    stringFrom? high (t.flatMap escaped ++ .char '"' :: rest) = some (alone high ++ t, rest) := by
  induction t generalizing high with
  | nil => rw [List.flatMap_nil, List.nil_append, stringFrom?, List.append_nil]
  | cons s t ih =>
    rw [List.flatMap_cons, List.append_assoc]
    obtain ⟨hnext, htail⟩ := Text.unpaired_cons.1 ht
    cases hs : isHigh s.point with
    | false =>
      have hrest : stringFrom? none (t.flatMap escaped ++ .char '"' :: rest) = some (t, rest) :=
        ih htail fun _ h => nomatch h
      rw [stringFrom?_escaped_cons hs (fun h hh => hhigh h hh s rfl), hrest]
      rfl
    | true =>
      rw [stringFrom?_escaped_high hs, ih htail (fun _ _ => hnext hs), Option.map_some]
      have halone : alone (some s.point) = [s] := by
        rw [alone, Option.map_some, ofUnit_point]
        rfl
      rw [halone]
      rfl

end Token

end CircuitReceipts
