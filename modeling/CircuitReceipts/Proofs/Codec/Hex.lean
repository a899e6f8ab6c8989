import CircuitReceipts.Codec.Hex
import CircuitReceipts.Proofs.Codec.Digits

/-!
# Hexadecimal operands read back

The hexadecimal form of an integer, with its radix mark, padding and sign, is read back as that
integer. It has no line feed in it, nor has the quoted form of a text.
-/

namespace CircuitReceipts

open Bytes (digit)

namespace Numeral

variable {ds : List Nat}

theorem digit?_digit {d : Nat} (hd : d < 16) : digit? .sixteen (digit d) = some d := by
  have h : ∀ d : Fin 16, digit? .sixteen (digit d) = some d.1 := by decide +kernel
  exact h ⟨d, hd⟩

theorem digit_plain {d : Nat} (hd : d < 16) :
    (digit d).isBlank = false ∧
      digit d ∉ [.char '-', .char '+', .char '_', .char 'x', .char 'X'] := by
  have h : ∀ d : Fin 16, (digit d).isBlank = false ∧
      digit d ∉ [.char '-', .char '+', .char '_', .char 'x', .char 'X'] := by decide +kernel
  exact h ⟨d, hd⟩

theorem moreDigits?_map_digit (h : ∀ d ∈ ds, d < 16) :
    moreDigits? .sixteen (ds.map digit) = some ds := by
  induction ds with
  | nil => rfl
  | cons d ds ih =>
    have hd := h d (List.mem_cons_self ..)
    rw [List.map_cons, moreDigits?, digit?_digit hd, ih fun d hd => h d (List.mem_cons_of_mem _ hd)]
    · rfl
    · rintro s rest hunderscore -
      exact (digit_plain hd).2 (by simp [hunderscore])

theorem allDigits?_map_digit (h : ∀ d ∈ ds, d < 16) (hne : ds ≠ []) :
    allDigits? .sixteen (ds.map digit) = some ds := by
  cases ds with
  | nil => exact absurd rfl hne
  | cons d ds =>
    rw [List.map_cons, allDigits?, digit?_digit (h d (List.mem_cons_self ..)),
      moreDigits?_map_digit fun d hd => h d (List.mem_cons_of_mem _ hd)]
    rfl

theorem dropMark_map_digit (h : ∀ d ∈ ds, d < 16) :
    dropMark .sixteen (ds.map digit) = ds.map digit := by
  match ds, h with
  | [], _ => rfl
  | [d], _ => rfl
  | d :: e :: ds, h =>
    have he := (digit_plain (h e (by simp))).2
    have hmark : ¬(e.digitChar = 'x' ∨ e.digitChar = 'X') := by
      rintro (hx | hx)
      · exact he (by simp [digit, hx])
      · exact he (by simp [digit, hx])
    exact if_neg fun hc => hmark hc.2

theorem unsigned?_map_digit (h : ∀ d ∈ ds, d < 16) (hne : ds ≠ []) :
    unsigned? .sixteen (ds.map digit) = some (ofDigits 16 ds) := by
  rw [unsigned?, dropMark_map_digit h, allDigits?_map_digit h hne]
  rfl

theorem strip_eq_self {t : Text} (h : ∀ s ∈ t, s.isBlank = false) : strip t = t := by
  have hdrop {t : Text} (h : ∀ s ∈ t, s.isBlank = false) : t.dropWhile Symbol.isBlank = t := by
    cases t with
    | nil => rfl
    | cons s t => rw [List.dropWhile_cons, h s (List.mem_cons_self ..)]; rfl
  rw [strip, hdrop h, hdrop fun s hs => h s (List.mem_reverse.1 hs), List.reverse_reverse]

theorem isBlank_of_mem_map_digit (h : ∀ d ∈ ds, d < 16) {s : Symbol} (hs : s ∈ ds.map digit) :
    s.isBlank = false := by
  obtain ⟨d, hd, rfl⟩ := List.mem_map.1 hs
  exact (digit_plain (h d hd)).1

theorem read?_map_digit (h : ∀ d ∈ ds, d < 16) (hne : ds ≠ []) :
    read? .sixteen (ds.map digit) = some ((ofDigits 16 ds : Nat) : Int) := by
  -- a digit is neither of the signs
  have head_ne {s : Symbol} {t : Text} (hs : s ∈ [Symbol.char '-', .char '+'])
      (ht : ds.map digit = s :: t) : False := by
    cases ds with
    | nil => exact hne rfl
    | cons d ds =>
      obtain ⟨rfl, -⟩ := List.cons.inj ht
      exact (digit_plain (h d (List.mem_cons_self ..))).2
        (List.mem_of_mem_take (i := 2) hs)
  rw [read?, strip_eq_self fun s hs => isBlank_of_mem_map_digit h hs, signed?,
    unsigned?_map_digit h hne]
  · rfl
  · exact fun t ht => head_ne (by simp) ht
  · exact fun t ht => head_ne (by simp) ht

theorem read?_minus_map_digit (h : ∀ d ∈ ds, d < 16) (hne : ds ≠ []) :
    read? .sixteen (.char '-' :: ds.map digit) = some (-((ofDigits 16 ds : Nat) : Int)) := by
  have hblank : ∀ s ∈ Symbol.char '-' :: ds.map digit, s.isBlank = false := by
    intro s hs
    rcases List.mem_cons.1 hs with rfl | hs
    · decide
    · exact isBlank_of_mem_map_digit h hs
  rw [read?, strip_eq_self hblank, signed?, unsigned?_map_digit h hne]
  rfl

theorem ofDigitsFrom_replicate_zero (b k : Nat) (ds : List Nat) :
    ofDigitsFrom b 0 (List.replicate k 0 ++ ds) = ofDigitsFrom b 0 ds := by
  induction k with
  | zero => rfl
  | succ k ih =>
    rw [List.replicate_succ, List.cons_append, ofDigitsFrom, List.foldl_cons, Nat.zero_mul]
    exact ih

theorem digits_sixteen_lt {n d : Nat} (h : d ∈ digits 16 n) : d < 16 :=
  (lt_of_mem_digitsOnto (by decide) h).resolve_right (by simp)

theorem digits_ne_nil (b n : Nat) : digits b n ≠ [] := by
  have hne (tail : List Nat) : digitsOnto b n tail ≠ [] := by
    fun_induction digitsOnto b n tail with
    | case1 => simp
    | case2 n tail h ih => exact ih
  exact hne []

end Numeral

/-- A padded hexadecimal number is a run of digits that stands for it. -/
theorem hexDigits_eq_map_digit (width n : Nat) :
    ∃ ds, hexDigits width n = ds.map digit ∧ ds ≠ [] ∧ (∀ d ∈ ds, d < 16) ∧
      Numeral.ofDigits 16 ds = n := by
  refine ⟨List.replicate (width - (Numeral.natural 16 n).length) 0 ++ Numeral.digits 16 n, ?_, ?_,
    fun d hd => ?_, ?_⟩
  · rw [List.map_append, List.map_replicate]
    rfl
  · simp [Numeral.digits_ne_nil]
  · rcases List.mem_append.1 hd with hd | hd
    · rw [List.eq_of_mem_replicate hd]
      decide
    · exact Numeral.digits_sixteen_lt hd
  · rw [Numeral.ofDigits, Numeral.ofDigitsFrom_replicate_zero]
    exact Numeral.ofDigits_digits 16 n

theorem ofHexText_of_read? {t : Text} {n : Int} (ht : t ≠ [])
    (h : Numeral.read? .sixteen t = some n) : ofHexText ("0x" ++ t) = .ok n := by
  have hmark : hasRadixMark ("0x" ++ t) = true := rfl
  have hdrop : ("0x" ++ t).drop 2 = t := rfl
  rw [ofHexText, hmark, if_pos rfl, hdrop]
  simp only [List.isEmpty_iff, ht, if_false, h]

theorem ofHexText_hexText (n : Int) : ofHexText (hexText n) = .ok n := by
  rw [hexText]
  split
  · next hn =>
    have hread : Numeral.read? .sixteen (.char '-' :: Numeral.natural 16 n.natAbs) = _ :=
      Numeral.read?_minus_map_digit (fun d => Numeral.digits_sixteen_lt)
        (Numeral.digits_ne_nil 16 n.natAbs)
    rw [Numeral.ofDigits_digits, show -((n.natAbs : Nat) : Int) = n by omega] at hread
    exact ofHexText_of_read? (List.cons_ne_nil _ _) hread
  · next hn =>
    obtain ⟨ds, hds, hne, hlt, hvalue⟩ := hexDigits_eq_map_digit 2 n.natAbs
    have hread := Numeral.read?_map_digit hlt hne
    rw [← hds, hvalue, show ((n.natAbs : Nat) : Int) = n by omega] at hread
    refine ofHexText_of_read? (fun h => hne ?_) hread
    exact List.map_eq_nil_iff.1 (hds.symm.trans h)

theorem head?_hexText (n : Int) : (hexText n).head? = some (.char '0') := by
  rw [hexText]
  split <;> rfl

theorem newline_not_mem_hexDigits (width n : Nat) : .char '\n' ∉ hexDigits width n := by
  obtain ⟨ds, hds, -, hlt, -⟩ := hexDigits_eq_map_digit width n
  rw [hds]
  intro hmem
  have hblank := Numeral.isBlank_of_mem_map_digit hlt hmem
  exact absurd hblank (by decide)

theorem newline_not_mem_hexText (n : Nat) : .char '\n' ∉ hexText n := by
  rw [hexText, if_neg (by omega), List.mem_append, not_or]
  exact ⟨by decide, newline_not_mem_hexDigits 2 _⟩

/-- A symbol stands in a quoted text without a line feed: the line feed itself has an escape. -/
theorem newline_not_mem_quoted_symbol {quote : Char} (hquote : quote ≠ '\n') (s : Symbol) :
    .char '\n' ∉ s.quoted quote := by
  rw [Symbol.quoted]
  split
  · next t ht =>
    simp only [shortEscape?] at ht
    split_ifs at ht <;> cases ht <;> simp [Text.ofString, hquote.symm]
  · next hnone =>
    split
    · rw [List.mem_singleton]
      rintro rfl
      cases hnone
    · have hdigits (width : Nat) := newline_not_mem_hexDigits width s.point
      have hmarks : ∀ t ∈ ["\\x", "\\u", "\\U"], Symbol.char '\n' ∉ Text.ofString t := by decide
      rw [numericEscape]
      split_ifs
      all_goals
        rw [List.mem_append, not_or]
        exact ⟨hmarks _ (by simp), hdigits _⟩

theorem newline_not_mem_quoted (t : Text) : .char '\n' ∉ t.quoted := by
  have hquote : enclosingQuote t ≠ '\n' := by
    rw [enclosingQuote]
    split <;> decide
  have hends : Symbol.char '\n' ∉ [Symbol.char (enclosingQuote t)] := by
    simpa using hquote.symm
  rw [Text.quoted, List.mem_append, List.mem_append, List.mem_flatMap]
  rintro ((h | ⟨s, -, hs⟩) | h)
  · exact hends h
  · exact newline_not_mem_quoted_symbol hquote s hs
  · exact hends h

end CircuitReceipts
