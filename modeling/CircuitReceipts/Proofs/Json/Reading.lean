import CircuitReceipts.Json.Document
import CircuitReceipts.Proofs.Host
import CircuitReceipts.Proofs.Json.Lexing
import CircuitReceipts.Proofs.Table

/-!
# Written documents are read back

A plain document that is not nested too deeply is read back from its compact form, from the text
and, since the form is ASCII, from its bytes too.
-/

namespace CircuitReceipts

namespace Json

mutual

/-- The number of containers inside each other in a document. -/
def height : Json → Nat
  | arr items => heightOfItems items + 1
  | obj members => heightOfMembers members + 1
  | _ => 0

def heightOfItems : List Json → Nat
  | [] => 0
  | j :: rest => max (height j) (heightOfItems rest)

def heightOfMembers : List (Text × Json) → Nat
  | [] => 0
  | (_, j) :: rest => max (height j) (heightOfMembers rest)

end

theorem height_le_of_mem_items {items : List Json} {j : Json} (h : j ∈ items) :
    j.height ≤ heightOfItems items := by
  induction items with
  | nil => exact absurd h (by simp)
  | cons k items ih =>
    rw [heightOfItems]
    rcases List.mem_cons.1 h with rfl | h
    · exact Nat.le_max_left _ _
    · exact Nat.le_trans (ih h) (Nat.le_max_right _ _)

theorem height_le_of_mem_members {members : List (Text × Json)} {m : Text × Json}
    (h : m ∈ members) : m.2.height ≤ heightOfMembers members := by
  induction members with
  | nil => exact absurd h (by simp)
  | cons k members ih =>
    obtain ⟨key, j⟩ := k
    rw [heightOfMembers]
    rcases List.mem_cons.1 h with rfl | h
    · exact Nat.le_max_left _ _
    · exact Nat.le_trans (ih h) (Nat.le_max_right _ _)

theorem exists_tokens_eq_cons (j : Json) :
    ∃ k ks, j.tokens = k :: ks ∧ k ≠ .closeBracket := by
  cases j with
  | arr items => exact ⟨_, _, by rw [tokens], by simp⟩
  | obj members => exact ⟨_, _, by rw [tokens], by simp⟩
  | _ => exact ⟨_, _, rfl, by simp⟩

theorem exists_tokensOfItems_eq_cons (j : Json) (items : List Json) :
    ∃ k ks, tokensOfItems (j :: items) = k :: ks ∧ k ≠ .closeBracket := by
  obtain ⟨k, ks, hks, hk⟩ := exists_tokens_eq_cons j
  cases items with
  | nil => exact ⟨k, ks, by rw [tokensOfItems, hks], hk⟩
  | cons j' items => exact ⟨k, _, by rw [tokensOfItems, hks, List.cons_append], hk⟩

namespace Reader

variable {host : Host} {r r' : Reader} {outer : List Frame} {k : Token} {ks : List Token}

@[simp] theorem depth_accept (j : Json) (outer : List Frame) :
    (accept j outer).depth = outer.length := by
  match outer with
  | [] => rfl
  | .array _ :: _ => rfl
  | .object _ _ :: _ => rfl

theorem run_cons (h : r.step? k = some r') (hdepth : r'.depth ≤ host.nesting)
    (hnumbers : host.Tells k.numbers) : r.run host (k :: ks) = r'.run host ks := by
  have hadvance : r.advance host k = .ok r' := by
    rw [advance, h]
    simp only [if_neg (not_not.2 hnumbers), if_neg (Nat.not_lt.2 hdepth)]
  rw [run, hadvance]

theorem run_firstItem (h : k ≠ .closeBracket) :
    (firstItem outer).run host (k :: ks) = (value (.array [] :: outer)).run host (k :: ks) := by
  have hstep : (firstItem outer).step? k = (value (.array [] :: outer)).step? k := by
    cases k <;> first | rfl | exact absurd rfl h
  rw [run, run, advance, advance, hstep]

theorem run_firstKey (m : Text × Json) (members : List (Text × Json)) :
    (firstKey outer).run host (tokensOfMembers (m :: members) ++ ks) =
      (key [] outer).run host (tokensOfMembers (m :: members) ++ ks) := by
  cases members <;> rfl

/-- The items of an array are read one after another, if each item is read. -/
theorem run_items {items : List Json} (hne : items ≠ []) (hdepth : outer.length < host.nesting)
    (h : ∀ j ∈ items, ∀ (done : List Json) (ks : List Token),
      (value (.array done :: outer)).run host (j.tokens ++ ks) =
        (accept j (.array done :: outer)).run host ks)
    (done : List Json) :
    (value (.array done :: outer)).run host (tokensOfItems items ++ .closeBracket :: ks) =
      (accept (.arr (done.reverse ++ items)) outer).run host ks := by
  induction items generalizing done with
  | nil => exact absurd rfl hne
  | cons j items ih =>
    cases items with
    | nil =>
      rw [tokensOfItems, h j (by simp), accept,
        run_cons rfl (by rw [depth_accept]; omega) (by simp), List.reverse_cons]
    | cons k items =>
      rw [tokensOfItems, List.append_assoc, h j (by simp), accept, List.cons_append,
        run_cons rfl (by rw [depth, List.length_cons]; omega) (by simp),
        ih (by simp) (fun j hj => h j (List.mem_cons_of_mem _ hj)), List.reverse_cons,
        List.append_assoc, List.singleton_append]

/-- The members of an object are read one after another, if each value is and no key comes twice. -/
theorem run_members {members : List (Text × Json)} (hne : members ≠ [])
    (hdepth : outer.length < host.nesting)
    (h : ∀ m ∈ members, ∀ (done : List (Text × Json)) (ks : List Token),
      (value (.object done m.1 :: outer)).run host (m.2.tokens ++ ks) =
        (accept m.2 (.object done m.1 :: outer)).run host ks)
    (done : List (Text × Json)) (hkeys : (Table.keys (done ++ members)).Nodup) :
    (key done outer).run host (tokensOfMembers members ++ .closeBrace :: ks) =
      (accept (.obj (done ++ members)) outer).run host ks := by
  induction members generalizing done with
  | nil => exact absurd rfl hne
  | cons m members ih =>
    obtain ⟨name, j⟩ := m
    have hnew : name ∉ Table.keys done := by
      rw [Table.keys, List.map_append, List.nodup_append] at hkeys
      intro hmem
      exact hkeys.2.2 name hmem name (by simp) rfl
    -- the key, the colon and the value leave the object with one member more
    have hmember (tail : List Token) :
        (key done outer).run host (.scalar (.str name) :: .colon :: (j.tokens ++ tail)) =
          (moreMembers (done ++ [(name, j)]) outer).run host tail := by
      rw [run_cons rfl (by rw [depth]; omega) (by simp),
        run_cons rfl (by rw [depth, List.length_cons]; omega) (by simp),
        h (name, j) (List.mem_cons_self ..), accept, Table.put_of_not_mem hnew]
    cases members with
    | nil =>
      rw [tokensOfMembers, List.cons_append, List.cons_append, hmember,
        run_cons rfl (by rw [depth_accept]; omega) (by simp)]
    | cons m members =>
      rw [tokensOfMembers, List.cons_append, List.cons_append, List.append_assoc, hmember,
        List.cons_append, run_cons rfl (by rw [depth]; omega) (by simp),
        ih (by simp) (fun m hm => h m (List.mem_cons_of_mem _ hm)) _ (by simpa using hkeys),
        List.append_assoc, List.singleton_append]

/-- A plain document is read from its tokens, wherever it stands, as long as not too many containers
are open. -/
theorem run_tokens {j : Json} (hj : j.Plain host)
    (hdepth : outer.length + j.height ≤ host.nesting) :
    (value outer).run host (j.tokens ++ ks) = (accept j outer).run host ks := by
  induction hj generalizing outer ks with
  | null | bool | str => exact run_cons rfl (by rw [depth_accept]; omega) (by simp)
  | int hn => exact run_cons rfl (by rw [depth_accept]; omega) (by simpa using hn)
  | @arr items _ ih =>
    rw [height] at hdepth
    rw [tokens, List.cons_append, run_cons rfl (by rw [depth]; omega) (by simp), List.append_assoc,
      List.singleton_append]
    cases items with
    | nil => exact run_cons rfl (by rw [depth_accept]; omega) (by simp)
    | cons j items =>
      obtain ⟨k, ks', hks, hk⟩ := exists_tokensOfItems_eq_cons j items
      have hlt : outer.length < host.nesting := by omega
      have hitems : (value (.array [] :: outer)).run host
          (tokensOfItems (j :: items) ++ .closeBracket :: ks) =
            (accept (.arr (j :: items)) outer).run host ks := by
        refine run_items (List.cons_ne_nil j items) hlt (fun j' hj' done ks => ih j' hj' ?_) []
        have := height_le_of_mem_items hj'
        rw [List.length_cons]
        omega
      rw [hks, List.cons_append] at hitems ⊢
      rw [run_firstItem hk, hitems]
  | @obj members hkeys _ _ ih =>
    rw [height] at hdepth
    rw [tokens, List.cons_append, run_cons rfl (by rw [depth]; omega) (by simp), List.append_assoc,
      List.singleton_append]
    cases members with
    | nil => exact run_cons rfl (by rw [depth_accept]; omega) (by simp)
    | cons m members =>
      have hlt : outer.length < host.nesting := by omega
      have hmembers : (key [] outer).run host
          (tokensOfMembers (m :: members) ++ .closeBrace :: ks) =
            (accept (.obj (m :: members)) outer).run host ks := by
        refine run_members (List.cons_ne_nil m members) hlt (fun m' hm' done ks => ih m' hm' ?_) []
          hkeys
        have := height_le_of_mem_members hm'
        rw [List.length_cons]
        omega
      rw [run_firstKey, hmembers]

theorem advance_lifted_ne_tooLong (r : Reader) (k : Token) :
    r.advance .lifted k ≠ .error .tooLong := by
  rw [advance]
  split
  · exact nofun
  · simp only [if_neg (not_not.2 (Host.lifted_tells k.numbers))]
    split <;> exact nofun

theorem run_lifted_ne_tooLong (r : Reader) (ks : List Token) :
    r.run .lifted ks ≠ .error .tooLong := by
  induction ks generalizing r with
  | nil => exact nofun
  | cons k ks ih =>
    rw [run]
    split
    · next hadvance =>
      intro h
      cases h
      exact advance_lifted_ne_tooLong r k hadvance
    · exact ih _

end Reader

/-- No number in a byte string is too long, as the bytes are read without a bound on digits. -/
theorem ofBytes_ne_tooLong (b : Bytes) : ofBytes b ≠ .error .tooLong := by
  rw [ofBytes]
  cases Encoding.documentText? b with
  | none => exact nofun
  | some t =>
    have hlong := Reader.run_lifted_ne_tooLong (.value []) (Token.all t).1
    simp only [read]
    cases hrun : (Reader.value []).run .lifted (Token.all t).1 with
    | error e =>
      intro h
      cases h
      exact hlong hrun
    | ok r =>
      cases r with
      | finished =>
        simp only
        split <;> exact nofun
      | _ => exact nofun

theorem read_of_cuts {host : Host} {j : Json} {t : Text} (hj : j.Plain host)
    (hdepth : j.height ≤ host.nesting) (hcuts : Token.Cuts t j.tokens []) :
    read host t = .ok j := by
  have hall : Token.all t = (j.tokens, true) := by
    rw [hcuts, Token.all, List.append_nil]
  have hrun : (Reader.value []).run host (j.tokens ++ []) = .ok (.finished j) :=
    Reader.run_tokens hj (by simpa using hdepth)
  rw [List.append_nil] at hrun
  rw [read, hall]
  simp only [hrun]
  rfl

theorem read_compact {host : Host} {j : Json} (hj : j.Plain host)
    (hdepth : j.height ≤ host.nesting) : read host j.compact = .ok j := by
  refine read_of_cuts hj hdepth ?_
  have hcuts := Token.cuts_compact hj Token.ends_nil
  rwa [List.append_nil] at hcuts

/-- Whether a symbol is a printing symbol of ASCII. -/
def Printing (s : Symbol) : Prop :=
  0x20 ≤ s.point ∧ s.point < 0x7F

instance : DecidablePred Printing := fun _ => inferInstanceAs (Decidable (_ ∧ _))

theorem Printing.point_lt {s : Symbol} (h : Printing s) : s.point < 0x80 :=
  Nat.lt_trans h.2 (by decide)

theorem printing_append {t u : Text} (ht : ∀ s ∈ t, Printing s) (hu : ∀ s ∈ u, Printing s) :
    ∀ s ∈ t ++ u, Printing s := fun s hs => (List.mem_append.1 hs).elim (ht s) (hu s)

theorem printing_cons {s : Symbol} {t : Text} (hs : Printing s) (ht : ∀ s ∈ t, Printing s) :
    ∀ u ∈ s :: t, Printing u := fun u hu => by
  rcases List.mem_cons.1 hu with rfl | hu
  · exact hs
  · exact ht u hu

theorem printing_natural (n : Nat) : ∀ s ∈ Numeral.natural 10 n, Printing s := by
  intro s hs
  have hdigit := Numeral.isDigit_of_mem_natural hs
  simp only [Binary64.isDigit, Bool.and_eq_true, decide_eq_true_eq] at hdigit
  rw [Printing]
  omega

theorem printing_digit {d : Nat} (hd : d < 16) : Printing (Bytes.digit d) := by
  have h : ∀ d : Fin 16, Printing (Bytes.digit d) := by decide
  exact h ⟨d, hd⟩

theorem printing_unitEscape {n : Nat} (hn : n < 0x10000) : ∀ s ∈ unitEscape n, Printing s := by
  rw [unitEscape, Bytes.hexDigits_four hn]
  refine printing_append (by decide) fun s hs => ?_
  simp only [List.mem_cons, List.not_mem_nil, or_false] at hs
  rcases hs with rfl | rfl | rfl | rfl <;> exact printing_digit (by omega)

theorem printing_of_letter? {c s : Symbol} (h : Token.letter? c = some s) : Printing c := by
  unfold Token.letter? at h
  split at h <;> first | decide | cases h

theorem printing_escaped (s : Symbol) : ∀ u ∈ escaped s, Printing u := by
  rcases Token.escaped_cases s with ⟨-, c, hc, hwritten⟩ | ⟨⟨hlow, hhigh, -, -⟩, hwritten⟩ |
    ⟨hunit, hwritten⟩ | ⟨-, hwritten⟩
  · rw [hwritten]
    exact printing_cons (by decide) (printing_cons (printing_of_letter? hc) fun u hu => nomatch hu)
  · rw [hwritten]
    exact printing_cons ⟨hlow, hhigh⟩ fun u hu => nomatch hu
  · rw [hwritten]
    exact printing_unitEscape hunit
  · have hlt := s.point_lt
    rw [hwritten]
    exact printing_append (printing_unitEscape (by omega)) (printing_unitEscape (by omega))

theorem printing_writtenString (t : Text) : ∀ s ∈ writtenString t, Printing s := by
  refine printing_cons (by decide) (printing_append (fun u hu => ?_) (by decide))
  obtain ⟨s, -, hu⟩ := List.mem_flatMap.1 hu
  exact printing_escaped s u hu

theorem printing_compact {host : Host} {j : Json} (hj : j.Plain host) :
    ∀ s ∈ j.compact, Printing s := by
  induction hj with
  | null => decide
  | bool b => cases b <;> decide
  | @int n _ =>
    cases n with
    | ofNat n => exact printing_natural n
    | negSucc n => exact printing_cons (by decide) (printing_natural (n + 1))
  | str _ => exact printing_writtenString _
  | @arr items _ ih =>
    have hitems : ∀ s ∈ Text.join [.char ','] (items.map compact), Printing s :=
      Text.forall_mem_join (by decide) (List.forall_mem_map.2 ih)
    rw [compact, compactItems_eq_join]
    exact printing_cons (by decide) (printing_append hitems (by decide))
  | @obj members _ _ _ ih =>
    have hmember : ∀ m ∈ members, ∀ s ∈ compactMember m, Printing s := fun m hm =>
      printing_append (printing_writtenString m.1) (printing_cons (by decide) (ih m hm))
    have hmembers : ∀ s ∈ Text.join [.char ','] (members.map compactMember), Printing s :=
      Text.forall_mem_join (by decide) (List.forall_mem_map.2 hmember)
    rw [compact, compactMembers_eq_join]
    exact printing_cons (by decide) (printing_append hmembers (by decide))

end Json

namespace Encoding

variable {s : Symbol} {t : Text}

theorem symbolBytes_of_ascii (hs : s.point < 0x80) : symbolBytes s = [UInt8.ofNat s.point] := by
  rw [symbolBytes]
  exact if_pos hs

theorem toNat_ofNat_point (hs : s.point < 0x80) : (UInt8.ofNat s.point).toNat = s.point := by
  rw [UInt8.toNat_ofNat']
  exact Nat.mod_eq_of_lt (by omega)

theorem decodeUtf8?_encodeUtf8 {surrogates : Bool} (ht : ∀ s ∈ t, s.point < 0x80) :
    decodeUtf8? surrogates (encodeUtf8 t) = some t := by
  induction t with
  | nil => rw [encodeUtf8, List.flatMap_nil, decodeUtf8?]
  | cons s t ih =>
    have hs := ht s (by simp)
    have hchar : Symbol.char (Char.ofNat s.point) = s := by
      cases s with
      | char c => rw [Symbol.point, Char.ofNat_toNat]
      | surrogate k =>
        rw [Symbol.point] at hs
        omega
    rw [encodeUtf8] at ih ⊢
    have hrest := ih fun s hs => ht s (List.mem_cons_of_mem _ hs)
    rw [List.flatMap_cons, symbolBytes_of_ascii hs, List.singleton_append, decodeUtf8?.eq_def]
    simp only [toNat_ofNat_point hs, if_pos hs, hrest, hchar]
    rfl

/-- The bytes of ASCII carry no mark and no sign of another encoding. -/
theorem documentText?_encodeUtf8 (ht : ∀ s ∈ t, Json.Printing s) :
    documentText? (encodeUtf8 t) = some t := by
  have hbytes : ∀ b ∈ encodeUtf8 t, 0x20 ≤ b.toNat ∧ b.toNat < 0x7F := by
    intro b hb
    obtain ⟨s, hs, hb⟩ := List.mem_flatMap.1 hb
    rw [symbolBytes_of_ascii (ht s hs).point_lt, List.mem_singleton] at hb
    rw [hb, toNat_ofNat_point (ht s hs).point_lt]
    exact ht s hs
  have hmarked : marked? (encodeUtf8 t) = none := by
    unfold marked?
    split <;> simp_all
  have hguessed : guessed (encodeUtf8 t) = utf8 := by
    unfold guessed
    split <;> simp_all
  rw [documentText?, hmarked]
  simp only [hguessed, decode?]
  exact decodeUtf8?_encodeUtf8 fun s hs => (ht s hs).point_lt

end Encoding

namespace Json

theorem ofBytes_compact {j : Json} (hj : j.Plain .lifted)
    (hdepth : j.height ≤ Host.lifted.nesting) :
    ofBytes (Encoding.encodeUtf8 j.compact) = .ok j := by
  rw [ofBytes, Encoding.documentText?_encodeUtf8 (printing_compact hj)]
  exact read_compact hj hdepth

end Json

end CircuitReceipts
