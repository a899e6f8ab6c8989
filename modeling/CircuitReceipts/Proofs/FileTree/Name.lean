import CircuitReceipts.FileTree
import CircuitReceipts.Proofs.Json.Escaping

/-!
# Names of files are told apart by their bytes

UTF-8 has one way to write each character, so a text that is read from bytes is written as the same
bytes again. What is not in UTF-8 is listed byte by byte. So the text under which a file is listed
has the bytes of its name, and two names are listed alike exactly if they have the same bytes.
-/

namespace CircuitReceipts

theorem Symbol.point_of_ofPoint? {n : Nat} {s : Symbol} (h : ofPoint? n = some s) :
    s.point = n := by
  rw [ofPoint?] at h
  split_ifs at h with hsurrogate hlimit <;> cases h
  · exact Nat.add_sub_of_le hsurrogate.1
  · have hvalid : n.isValidChar := by
      rw [Nat.isValidChar]
      omega
    rw [point, Char.ofNat, dif_pos hvalid]
    rfl

namespace Encoding

variable {s : Symbol} {a b c d : UInt8} {i j k p : Nat}

theorem tail?_eq_some_iff : tail? b = some k ↔ b.toNat = 0x80 + k ∧ k < 0x40 := by
  rw [tail?]
  split_ifs with h
  · rw [Option.some_inj]
    omega
  · simp only [false_iff]
    omega

theorem ofNat_eq (h : k = b.toNat) : UInt8.ofNat k = b := by
  rw [h, UInt8.ofNat_toNat]

/-- The bytes of the symbols with two bytes. -/
theorem symbolBytes_two (ha : 0xC2 ≤ a.toNat ∧ a.toNat < 0xE0) (hb : tail? b = some i)
    (hs : s.point = (a.toNat - 0xC0) * 64 + i) : symbolBytes s = [a, b] := by
  obtain ⟨hb, hi⟩ := tail?_eq_some_iff.1 hb
  simp only [symbolBytes]
  rw [if_neg (by omega), if_pos (by omega), ofNat_eq (b := a) (by omega),
    ofNat_eq (b := b) (by omega)]

/-- The bytes of the symbols with three bytes, which are those that two are too few for. -/
theorem symbolBytes_three (ha : 0xE0 ≤ a.toNat ∧ a.toNat < 0xF0) (hb : tail? b = some i)
    (hc : tail? c = some j) (hs : s.point = ((a.toNat - 0xE0) * 64 + i) * 64 + j)
    (hleast : 0x800 ≤ s.point) : symbolBytes s = [a, b, c] := by
  obtain ⟨hb, hi⟩ := tail?_eq_some_iff.1 hb
  obtain ⟨hc, hj⟩ := tail?_eq_some_iff.1 hc
  simp only [symbolBytes]
  rw [if_neg (by omega), if_neg (by omega), if_pos (by omega), ofNat_eq (b := a) (by omega),
    ofNat_eq (b := b) (by omega), ofNat_eq (b := c) (by omega)]

/-- The bytes of the symbols with four bytes, which are those that three are too few for. -/
theorem symbolBytes_four (ha : 0xF0 ≤ a.toNat ∧ a.toNat < 0xF5) (hb : tail? b = some i)
    (hc : tail? c = some j) (hd : tail? d = some k)
    (hs : s.point = (((a.toNat - 0xF0) * 64 + i) * 64 + j) * 64 + k)
    (hleast : 0x10000 ≤ s.point) : symbolBytes s = [a, b, c, d] := by
  obtain ⟨hb, hi⟩ := tail?_eq_some_iff.1 hb
  obtain ⟨hc, hj⟩ := tail?_eq_some_iff.1 hc
  obtain ⟨hd, hk⟩ := tail?_eq_some_iff.1 hd
  simp only [symbolBytes]
  rw [if_neg (by omega), if_neg (by omega), if_neg (by omega), ofNat_eq (b := a) (by omega),
    ofNat_eq (b := b) (by omega), ofNat_eq (b := c) (by omega), ofNat_eq (b := d) (by omega)]

end Encoding

namespace FileTree

open Encoding

variable {a b name file : Text} {bytes : Bytes} {s : Symbol} {size : Nat}

@[simp] theorem nameBytes_nil : nameBytes [] = [] := rfl

@[simp] theorem nameBytes_cons (s : Symbol) (t : Text) :
    nameBytes (s :: t) = symbolNameBytes s ++ nameBytes t := List.flatMap_cons ..

@[simp] theorem nameBytes_append (t u : Text) :
    nameBytes (t ++ u) = nameBytes t ++ nameBytes u := List.flatMap_append ..

theorem symbolNameBytes_char (c : Char) : symbolNameBytes (.char c) = symbolBytes (.char c) := rfl

theorem symbolNameBytes_of_point (h : s.point < 0xD800 ∨ 0xE000 ≤ s.point) :
    symbolNameBytes s = symbolBytes s := by
  cases s with
  | char c => rfl
  | surrogate k =>
    have hk := k.2
    rw [Symbol.point] at h
    omega

theorem nameBytes_of_decodeUtf8? (h : decodeUtf8? false bytes = some name) :
    nameBytes name = bytes := by
  -- One case for each number of bytes that a character may take; the others are not in UTF-8.
  fun_induction decodeUtf8? false bytes generalizing name with
  | case1 =>
    cases h
    rfl
  | case2 x rest n hone =>
    rename_i ih
    simp only [Option.bind_eq_bind, Option.bind_eq_some_iff] at h
    obtain ⟨t, ht, ⟨⟩⟩ := h
    have hpoint : (Symbol.char (Char.ofNat x.toNat)).point = x.toNat := by
      refine Symbol.point_of_ofPoint? ?_
      rw [Symbol.ofPoint?, dif_neg (by omega), if_pos (by omega)]
    rw [nameBytes_cons, ih ht, symbolNameBytes_char, symbolBytes, hpoint, if_pos hone, ofNat_eq rfl]
    rfl
  | case4 x n _ hfirst htwo y rest =>
    rename_i ih
    simp only [Option.bind_eq_bind, Option.bind_eq_some_iff] at h
    obtain ⟨i, hi, s, hs, t, ht, ⟨⟩⟩ := h
    have hpoint := Symbol.point_of_ofPoint? hs
    have hlt := (tail?_eq_some_iff.1 hi).2
    rw [nameBytes_cons, ih ht, symbolNameBytes_of_point (by omega),
      symbolBytes_two (by omega) hi hpoint]
    rfl
  | case6 x n _ _ hfirst hthree y z rest =>
    rename_i ih
    simp only [Option.bind_eq_bind, Option.bind_eq_some_iff, Option.ite_none_left_eq_some] at h
    obtain ⟨i, hi, j, hj, hleast, s, hs, h⟩ := h
    have hpoint := Symbol.point_of_ofPoint? hs
    cases s with
    | surrogate k => simp at h
    | char c =>
      simp only [Option.bind_eq_some_iff] at h
      obtain ⟨t, ht, ⟨⟩⟩ := h
      rw [nameBytes_cons, ih ht, symbolNameBytes_char,
        symbolBytes_three (by omega) hi hj hpoint (by omega)]
      rfl
  | case8 x n _ _ _ hfirst hfour y z w rest =>
    rename_i ih
    simp only [Option.bind_eq_bind, Option.bind_eq_some_iff, Option.ite_none_left_eq_some] at h
    obtain ⟨i, hi, j, hj, k, hk, hleast, s, hs, t, ht, ⟨⟩⟩ := h
    have hpoint := Symbol.point_of_ofPoint? hs
    rw [nameBytes_cons, ih ht, symbolNameBytes_of_point (by omega),
      symbolBytes_four (by omega) hi hj hk hpoint (by omega)]
    rfl
  | case3 | case5 | case7 | case9 | case10 => cases h

theorem symbolNameBytes_of_character? (h : character? bytes = some (s, size)) :
    symbolNameBytes s = bytes.take size ∧ 0 < size := by
  obtain ⟨n, hn, h⟩ := List.exists_of_findSome?_eq_some h
  split at h
  · next s' hs =>
    cases h
    have hbytes := nameBytes_of_decodeUtf8? hs
    rw [nameBytes_cons, nameBytes_nil, List.append_nil] at hbytes
    exact ⟨hbytes, (by decide : ∀ n ∈ [1, 2, 3, 4], 0 < n) _ hn⟩
  · cases h

theorem symbolNameBytes_strayByte (b : UInt8) : symbolNameBytes (strayByte b) = [b] := by
  have hbyte : UInt8.ofNat (0x400 + b.toNat) = b := by
    apply UInt8.toNat_inj.1
    have hlt := b.toNat_lt
    rw [UInt8.toNat_ofNat']
    omega
  exact congrArg (fun b => [b]) hbyte

theorem nameBytes_nameFrom (skip : Nat) (bytes : Bytes) :
    nameBytes (nameFrom skip bytes) = bytes.drop skip := by
  fun_induction nameFrom skip bytes with
  | case1 => rw [nameBytes_nil, List.drop_nil]
  | case2 skip b rest ih => rw [ih, List.drop_succ_cons]
  | case3 b rest s size hcharacter ih =>
    obtain ⟨hbytes, hsize⟩ := symbolNameBytes_of_character? hcharacter
    obtain ⟨n, rfl⟩ := Nat.exists_eq_succ_of_ne_zero (Nat.ne_of_gt hsize)
    rw [nameBytes_cons, hbytes, ih, Nat.succ_sub_one, List.take_succ_cons, List.cons_append,
      List.take_append_drop, List.drop_zero]
  | case4 b rest hcharacter ih =>
    rw [nameBytes_cons, symbolNameBytes_strayByte, ih, List.drop_zero, List.drop_zero,
      List.singleton_append]

@[simp] theorem nameBytes_listed (name : Text) : nameBytes (listed name) = nameBytes name :=
  nameBytes_nameFrom 0 _

theorem listed_eq_iff : listed a = listed b ↔ nameBytes a = nameBytes b := by
  constructor
  · intro h
    rw [← nameBytes_listed a, h, nameBytes_listed]
  · intro h
    rw [listed, h, listed]

/-- Surrogates for the two bytes of a character name the file that the character names. -/
example : listed [strayByte 0xC3, strayByte 0xA9] = listed "é" := by decide +kernel

end FileTree

end CircuitReceipts
