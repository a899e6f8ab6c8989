import CircuitReceipts.Host
import CircuitReceipts.Proofs.Json.Escaping

/-!
# Tokens of written documents

A document is *plain* when its numbers are whole and written by the host, no surrogates in its
strings would be joined, and its objects have every key once. The compact form of a plain document
is cut into the tokens that one would write down for it. A whole number is recognized by what
follows it, so the statement is about a document in front of a comma, a closing bracket, the end of
a line, or nothing.
-/

namespace CircuitReceipts

namespace Json

/-- Documents without floating-point numbers, numbers that a host does not write, surrogates that
would be joined, and repeated keys. -/
inductive Plain (host : Host) : Json → Prop where
  | null : Plain host null
  | bool (b : Bool) : Plain host (bool b)
  | int {n : Int} (hn : host.Writes n) : Plain host (int n)
  | str {t : Text} (ht : t.Unpaired) : Plain host (str t)
  | arr {items : List Json} (hitems : ∀ j ∈ items, Plain host j) : Plain host (arr items)
  | obj {members : List (Text × Json)} (hkeys : (Table.keys members).Nodup)
    (hnames : ∀ m ∈ members, Text.Unpaired m.1) (hvalues : ∀ m ∈ members, Plain host m.2) :
    Plain host (obj members)

mutual

/-- The tokens of a document. -/
def tokens : Json → List Token
  | arr items => .openBracket :: (tokensOfItems items ++ [.closeBracket])
  | obj members => .openBrace :: (tokensOfMembers members ++ [.closeBrace])
  | j => [.scalar j]

def tokensOfItems : List Json → List Token
  | [] => []
  | [j] => tokens j
  | j :: k :: rest => tokens j ++ .comma :: tokensOfItems (k :: rest)

def tokensOfMembers : List (Text × Json) → List Token
  | [] => []
  | [(key, j)] => .scalar (.str key) :: .colon :: tokens j
  | (key, j) :: m :: rest =>
    .scalar (.str key) :: .colon :: (tokens j ++ .comma :: tokensOfMembers (m :: rest))

end

theorem compactItems_eq_join (items : List Json) :
    compactItems items = Text.join [.char ','] (items.map compact) := by
  induction items with
  | nil => rfl
  | cons j items ih =>
    cases items with
    | nil => exact (Text.join_singleton ..).symm
    | cons k items =>
      simp only [compactItems, ih, List.map_cons, Text.join_cons_cons, List.singleton_append]

/-- A member in the compact form of an object. -/
def compactMember (m : Text × Json) : Text :=
  writtenString m.1 ++ .char ':' :: m.2.compact

theorem compactMembers_eq_join (members : List (Text × Json)) :
    compactMembers members = Text.join [.char ','] (members.map compactMember) := by
  induction members with
  | nil => rfl
  | cons m members ih =>
    cases members with
    | nil => exact (Text.join_singleton ..).symm
    | cons k members =>
      simp only [compactMembers, ih, List.map_cons, Text.join_cons_cons, compactMember,
        List.append_assoc, List.cons_append, List.nil_append]

/-- Tokens of values with commas between them. -/
def separated : List (List Token) → List Token
  | [] => []
  | [ks] => ks
  | ks :: ls :: rest => ks ++ .comma :: separated (ls :: rest)

theorem tokensOfItems_eq_separated (items : List Json) :
    tokensOfItems items = separated (items.map tokens) := by
  induction items with
  | nil => rfl
  | cons j items ih =>
    cases items with
    | nil => rfl
    | cons k items =>
      rw [tokensOfItems, ih]
      rfl

def tokensOfMember (m : Text × Json) : List Token :=
  .scalar (.str m.1) :: .colon :: m.2.tokens

theorem tokensOfMembers_eq_separated (members : List (Text × Json)) :
    tokensOfMembers members = separated (members.map tokensOfMember) := by
  induction members with
  | nil => rfl
  | cons m members ih =>
    cases members with
    | nil => rfl
    | cons k members =>
      rw [tokensOfMembers, ih]
      rfl

end Json

namespace Token

/-- The symbols that are tokens of their own. -/
def punctuation : Text := ['[', ']', '{', '}', ',', ':'].map .char

/-- The symbols that may follow a value. -/
def closing : Text := [',', ']', '}', '\n'].map .char

/-- Whether a text is empty or begins with a symbol that may follow a value. -/
def Ends (t : Text) : Prop :=
  ∀ s ∈ t.head?, s ∈ closing

theorem ends_nil : Ends [] := by simp [Ends]

theorem ends_cons {s : Symbol} {t : Text} (h : s ∈ closing) : Ends (s :: t) := by
  simpa [Ends] using h

theorem isGap_of_first? {s : Symbol} {t rest : Text} {k : Token}
    (h : first? (s :: t) = some (k, rest)) : isGap s = false := by
  by_contra hgap
  have hcases : s = .char ' ' ∨ s = .char '\t' ∨ s = .char '\n' ∨ s = .char '\r' := by
    simpa only [isGap, Bool.not_eq_false, Bool.or_eq_true, beq_iff_eq, or_assoc] using hgap
  have hnone : first? (s :: t) = none := by
    rcases hcases with rfl | rfl | rfl | rfl <;> rfl
  rw [hnone] at h
  cases h

theorem all_of_first? {t rest : Text} {k : Token} (h : first? t = some (k, rest)) :
    all t = (k :: (all rest).1, (all rest).2) := by
  cases t with
  | nil => cases h
  | cons s t =>
    rw [all]
    simp only [isGap_of_first? h, Bool.false_eq_true, if_false]
    split
    · next hnone =>
      rw [h] at hnone
      cases hnone
    · next k' rest' hsome =>
      rw [h] at hsome
      cases hsome
      rfl

/-- What does not begin with a symbol that is a token of its own begins with a scalar, if with
anything. -/
theorem first?_eq_scalar? {s : Symbol} {t : Text} (h : s ∉ punctuation) :
    first? (s :: t) = (scalar? (s :: t)).map fun (j, rest) => (scalar j, rest) := by
  unfold first?
  split <;> simp_all [punctuation]

theorem first?_string {t : Text} (ht : t.Unpaired) (rest : Text) :
    first? (Json.writtenString t ++ rest) = some (.scalar (.str t), rest) := by
  have hread : stringFrom? none (t.flatMap Json.escaped ++ .char '"' :: rest) = some (t, rest) :=
    stringFrom?_escaped ht (fun _ h => absurd h (Option.not_mem_none _)) rest
  rw [Json.writtenString, List.cons_append, List.append_assoc, first?_eq_scalar? (by decide),
    List.singleton_append, scalar?, string?, hread]
  rfl

/-- What may follow a value: nothing, a comma, a closing bracket of either kind, or the end of a
line. -/
theorem ends_cases {t : Text} (h : Ends t) :
    t = [] ∨ ∃ rest, t = .char ',' :: rest ∨ t = .char ']' :: rest ∨ t = .char '}' :: rest ∨
      t = .char '\n' :: rest := by
  cases t with
  | nil => exact .inl rfl
  | cons s rest =>
    have hs := h s rfl
    simp only [closing, List.map_cons, List.map_nil, List.mem_cons, List.not_mem_nil,
      or_false] at hs
    rcases hs with rfl | rfl | rfl | rfl <;> simp

/-- A natural number in front of what may follow a value is read up to there. -/
theorem number?_natural (negative : Bool) (n : Nat) {rest : Text} (hrest : Ends rest) :
    number? negative (Numeral.natural 10 n ++ rest) =
      some (.int (if negative then -n else n), rest) := by
  have hstop : rest.takeWhile Binary64.isDigit = [] ∧ rest.dropWhile Binary64.isDigit = rest := by
    rcases ends_cases hrest with rfl | ⟨t, rfl | rfl | rfl | rfl⟩ <;> exact ⟨rfl, rfl⟩
  have hfraction : fraction? rest = none := by
    rcases ends_cases hrest with rfl | ⟨t, rfl | rfl | rfl | rfl⟩ <;> rfl
  have hexponent : exponent? rest = none := by
    rcases ends_cases hrest with rfl | ⟨t, rfl | rfl | rfl | rfl⟩ <;> rfl
  have hwhole : whole? (Numeral.natural 10 n ++ rest) = some (Numeral.natural 10 n, rest) := by
    have hall : ∀ s ∈ Numeral.natural 10 n, Binary64.isDigit s = true :=
      fun s => Numeral.isDigit_of_mem_natural
    rcases Numeral.natural_eq n with hz | ⟨s, ds, hds, hs⟩
    · rw [hz]
      rfl
    · rw [whole?, List.takeWhile_append_of_pos hall, List.dropWhile_append_of_pos hall, hstop.1,
        hstop.2, List.append_nil, hds]
      · rfl
      · rw [hds]
        exact fun t h => hs (List.cons.inj h).1
  simp only [number?, hwhole, hfraction, hexponent, Numeral.digitsValue_natural]

theorem exists_natural_eq_cons (n : Nat) :
    ∃ s ds, Numeral.natural 10 n = s :: ds ∧ Binary64.isDigit s = true := by
  cases h : Numeral.natural 10 n with
  | nil =>
    rcases Numeral.natural_eq n with hz | ⟨s, ds, hds, -⟩
    · rw [hz] at h
      cases h
    · rw [hds] at h
      cases h
  | cons s ds =>
    exact ⟨s, ds, rfl,
      Numeral.isDigit_of_mem_natural (n := n) (by rw [h]; exact List.mem_cons_self ..)⟩

theorem first?_decimal (n : Int) {rest : Text} (hrest : Ends rest) :
    first? (Numeral.decimal n ++ rest) = some (.scalar (.int n), rest) := by
  cases n with
  | ofNat n =>
    obtain ⟨s, ds, hds, hdigit⟩ := exists_natural_eq_cons n
    have hnumber := number?_natural false n hrest
    have hpunctuation : s ∉ punctuation := by
      have hnot : ∀ p ∈ punctuation, Binary64.isDigit p = false := by decide
      intro hs
      rw [hnot s hs] at hdigit
      cases hdigit
    rw [Numeral.decimal, Numeral.integer]
    rw [hds, List.cons_append] at hnumber ⊢
    rw [first?_eq_scalar? hpunctuation, scalar?, hnumber]
    · rfl
    · intro t h
      rw [(List.cons.inj h).1] at hdigit
      exact absurd hdigit (by decide)
    · intro t h
      rw [(List.cons.inj h).1] at hdigit
      exact absurd hdigit (by decide)
  | negSucc n =>
    have hnumber := number?_natural true (n + 1) hrest
    rw [Numeral.decimal, Numeral.integer, List.cons_append, first?_eq_scalar? (by decide), scalar?,
      hnumber]
    rfl

theorem first?_name (rest : Text) :
    first? ("null" ++ rest) = some (.scalar .null, rest) ∧
      first? ("true" ++ rest) = some (.scalar (.bool true), rest) ∧
        first? ("false" ++ rest) = some (.scalar (.bool false), rest) :=
  ⟨rfl, rfl, rfl⟩

theorem first?_scalar {host : Host} {j : Json} (hj : j.Plain host)
    (hscalar : j.tokens = [.scalar j]) {rest : Text} (hrest : Ends rest) :
    first? (j.compact ++ rest) = some (.scalar j, rest) := by
  cases hj with
  | null => exact (first?_name rest).1
  | bool b =>
    cases b with
    | true => exact (first?_name rest).2.1
    | false => exact (first?_name rest).2.2
  | int hn => exact first?_decimal _ hrest
  | str ht => exact first?_string ht rest
  | arr _ => simp [Json.tokens] at hscalar
  | obj _ _ _ => simp [Json.tokens] at hscalar

/-- The tokens of a text begin with given tokens and go on with those of the rest of the text. -/
def Cuts (t : Text) (ks : List Token) (rest : Text) : Prop :=
  all t = (ks ++ (all rest).1, (all rest).2)

theorem cuts_of_first? {t rest : Text} {k : Token} (h : first? t = some (k, rest)) :
    Cuts t [k] rest :=
  all_of_first? h

theorem Cuts.trans {t u rest : Text} {ks ls : List Token} (h : Cuts t ks u) (h' : Cuts u ls rest) :
    Cuts t (ks ++ ls) rest := by
  rw [Cuts, h, h', List.append_assoc]

/-- Texts with commas between them are cut where each of them is cut, in front of what may follow a
value. -/
theorem cuts_join {α : Type} {written : α → Text} {tokens : α → List Token} {xs : List α}
    {rest : Text} (hrest : Ends rest)
    (h : ∀ x ∈ xs, ∀ {rest : Text}, Ends rest → Cuts (written x ++ rest) (tokens x) rest) :
    Cuts (Text.join [.char ','] (xs.map written) ++ rest) (Json.separated (xs.map tokens))
      rest := by
  induction xs with
  | nil => rfl
  | cons x xs ih =>
    rw [List.forall_mem_cons] at h
    cases xs with
    | nil =>
      rw [List.map_singleton, Text.join_singleton]
      exact h.1 hrest
    | cons y xs =>
      have hmore := ih h.2
      rw [List.map_cons] at hmore
      rw [List.map_cons, List.map_cons, Text.join_cons_cons, List.append_assoc,
        List.singleton_append, List.cons_append]
      exact (h.1 (ends_cons (by decide))).trans ((cuts_of_first? rfl).trans hmore)

theorem cuts_member {m : Text × Json} {rest : Text} (hname : Text.Unpaired m.1)
    (hvalue : Cuts (m.2.compact ++ rest) m.2.tokens rest) :
    Cuts (Json.compactMember m ++ rest) (Json.tokensOfMember m) rest := by
  rw [Json.compactMember, List.append_assoc, List.cons_append]
  exact (cuts_of_first? (first?_string hname _)).trans ((cuts_of_first? rfl).trans hvalue)

theorem cuts_compact {host : Host} {j : Json} (hj : j.Plain host) {rest : Text}
    (hrest : Ends rest) :
    Cuts (j.compact ++ rest) j.tokens rest := by
  induction hj generalizing rest with
  | null => exact cuts_of_first? (first?_scalar (@Json.Plain.null host) rfl hrest)
  | bool b => exact cuts_of_first? (first?_scalar (@Json.Plain.bool host b) rfl hrest)
  | int hn => exact cuts_of_first? (first?_scalar (.int hn) rfl hrest)
  | str ht => exact cuts_of_first? (first?_scalar (@Json.Plain.str host _ ht) rfl hrest)
  | @arr items _ ih =>
    have hitems : Cuts (Json.compactItems items ++ .char ']' :: rest) (Json.tokensOfItems items)
        (.char ']' :: rest) := by
      rw [Json.compactItems_eq_join, Json.tokensOfItems_eq_separated]
      exact cuts_join (ends_cons (by decide)) fun j hj _ => ih j hj
    rw [Json.compact, Json.tokens, List.cons_append, List.append_assoc, List.singleton_append]
    exact (cuts_of_first? rfl).trans (hitems.trans (cuts_of_first? rfl))
  | @obj members _ hnames _ ih =>
    have hmembers : Cuts (Json.compactMembers members ++ .char '}' :: rest)
        (Json.tokensOfMembers members) (.char '}' :: rest) := by
      rw [Json.compactMembers_eq_join, Json.tokensOfMembers_eq_separated]
      exact cuts_join (ends_cons (by decide)) fun m hm _ hrest =>
        cuts_member (hnames m hm) (ih m hm hrest)
    rw [Json.compact, Json.tokens, List.cons_append, List.append_assoc, List.singleton_append]
    exact (cuts_of_first? rfl).trans (hmembers.trans (cuts_of_first? rfl))

end Token

end CircuitReceipts
