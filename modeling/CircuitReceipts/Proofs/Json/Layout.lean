import CircuitReceipts.Proofs.Json.Reading

/-!
# Documents on several lines

The blanks and the ends of lines in the indented form of a document stand between tokens, where they
are skipped. So the form is cut into the same tokens as the compact one, at every depth of
indentation, and a plain document is read back from it.
-/

namespace CircuitReceipts

namespace Json

/-- An item in the indented form of an array, on a line of its own. -/
def indentedItem (depth : Nat) (j : Json) : Text :=
  newline depth ++ j.indentedFrom depth

theorem indentedItems_eq_join (depth : Nat) (items : List Json) :
    indentedItems depth items = Text.join [.char ','] (items.map (indentedItem depth)) := by
  induction items with
  | nil => rfl
  | cons j items ih =>
    cases items with
    | nil => exact (Text.join_singleton ..).symm
    | cons k items =>
      simp only [indentedItems, ih, List.map_cons, Text.join_cons_cons, indentedItem,
        List.append_assoc, List.singleton_append]

/-- A member in the indented form of an object, on a line of its own. -/
def indentedMember (depth : Nat) (m : Text × Json) : Text :=
  newline depth ++ writtenString m.1 ++ ": " ++ m.2.indentedFrom depth

theorem indentedMembers_eq_join (depth : Nat) (members : List (Text × Json)) :
    indentedMembers depth members =
      Text.join [.char ','] (members.map (indentedMember depth)) := by
  induction members with
  | nil => rfl
  | cons m members ih =>
    cases members with
    | nil => exact (Text.join_singleton ..).symm
    | cons k members =>
      simp only [indentedMembers, ih, List.map_cons, Text.join_cons_cons, indentedMember,
        List.append_assoc, List.singleton_append]

end Json

namespace Token

variable {host : Host} {j : Json} {rest : Text}

theorem cuts_gap {s : Symbol} (h : isGap s = true) (t : Text) : Cuts (s :: t) [] t := by
  rw [Cuts, all, if_pos h]
  rfl

theorem cuts_newline (depth : Nat) (t : Text) : Cuts (Json.newline depth ++ t) [] t := by
  have hblanks (n : Nat) : Cuts (List.replicate n (.char ' ') ++ t) [] t := by
    induction n with
    | zero => rfl
    | succ n ih => exact (cuts_gap rfl _).trans ih
  exact (cuts_gap rfl _).trans (hblanks _)

theorem ends_newline (depth : Nat) (t : Text) : Ends (Json.newline depth ++ t) :=
  ends_cons (by decide)

theorem cuts_indentedItem {depth : Nat}
    (hvalue : Cuts (j.indentedFrom depth ++ rest) j.tokens rest) :
    Cuts (Json.indentedItem depth j ++ rest) j.tokens rest := by
  rw [Json.indentedItem, List.append_assoc]
  exact (cuts_newline depth _).trans hvalue

theorem cuts_indentedMember {m : Text × Json} {depth : Nat} (hname : Text.Unpaired m.1)
    (hvalue : Cuts (m.2.indentedFrom depth ++ rest) m.2.tokens rest) :
    Cuts (Json.indentedMember depth m ++ rest) (Json.tokensOfMember m) rest := by
  have hcolon (t : Text) : Cuts (": " ++ t) [.colon] t :=
    (cuts_of_first? rfl).trans (cuts_gap rfl t)
  rw [Json.indentedMember, List.append_assoc, List.append_assoc, List.append_assoc]
  exact (cuts_newline depth _).trans ((cuts_of_first? (first?_string hname _)).trans
    ((hcolon _).trans hvalue))

theorem cuts_indentedFrom (hj : j.Plain host) (depth : Nat) (hrest : Ends rest) :
    Cuts (j.indentedFrom depth ++ rest) j.tokens rest := by
  -- A scalar is written as in the compact form; an empty container has no lines of its own.
  induction hj generalizing depth rest with
  | null => exact cuts_of_first? (first?_scalar (@Json.Plain.null host) rfl hrest)
  | bool b => exact cuts_of_first? (first?_scalar (@Json.Plain.bool host b) rfl hrest)
  | int hn => exact cuts_of_first? (first?_scalar (.int hn) rfl hrest)
  | str ht => exact cuts_of_first? (first?_scalar (@Json.Plain.str host _ ht) rfl hrest)
  | @arr items _ ih =>
    cases items with
    | nil => exact (cuts_of_first? (k := .openBracket) rfl).trans (cuts_of_first? rfl)
    | cons j items =>
      have hitems : Cuts (Json.indentedItems (depth + 1) (j :: items) ++
          (Json.newline depth ++ .char ']' :: rest)) (Json.tokensOfItems (j :: items))
          (Json.newline depth ++ .char ']' :: rest) := by
        rw [Json.indentedItems_eq_join, Json.tokensOfItems_eq_separated]
        exact cuts_join (ends_newline depth _) fun j hj _ hrest =>
          cuts_indentedItem (ih j hj _ hrest)
      have hclose := (cuts_newline depth (.char ']' :: rest)).trans (cuts_of_first? rfl)
      rw [Json.indentedFrom, Json.tokens, List.cons_append, List.append_assoc, List.append_assoc]
      · exact (cuts_of_first? rfl).trans (hitems.trans hclose)
      · exact List.cons_ne_nil _ _
  | @obj members _ hnames _ ih =>
    cases members with
    | nil => exact (cuts_of_first? (k := .openBrace) rfl).trans (cuts_of_first? rfl)
    | cons m members =>
      have hmembers : Cuts (Json.indentedMembers (depth + 1) (m :: members) ++
          (Json.newline depth ++ .char '}' :: rest)) (Json.tokensOfMembers (m :: members))
          (Json.newline depth ++ .char '}' :: rest) := by
        rw [Json.indentedMembers_eq_join, Json.tokensOfMembers_eq_separated]
        exact cuts_join (ends_newline depth _) fun m hm _ hrest =>
          cuts_indentedMember (hnames m hm) (ih m hm _ hrest)
      have hclose := (cuts_newline depth (.char '}' :: rest)).trans (cuts_of_first? rfl)
      rw [Json.indentedFrom, Json.tokens, List.cons_append, List.append_assoc, List.append_assoc]
      · exact (cuts_of_first? rfl).trans (hmembers.trans hclose)
      · exact List.cons_ne_nil _ _

end Token

namespace Json

variable {host : Host} {j : Json}

theorem read_indented (hj : j.Plain host) (hdepth : j.height ≤ host.nesting) :
    read host j.indented = .ok j := by
  refine read_of_cuts hj hdepth ?_
  have hcuts := Token.cuts_indentedFrom hj 0 Token.ends_nil
  rwa [List.append_nil] at hcuts

/-! ### Bytes -/

/-- Whether all symbols of a text are in ASCII. -/
def Ascii (t : Text) : Prop :=
  ∀ s ∈ t, s.point < 0x80

instance : DecidablePred Ascii := fun _ => inferInstanceAs (Decidable (∀ _ ∈ _, _))

theorem ascii_of_printing {t : Text} (h : ∀ s ∈ t, Printing s) : Ascii t :=
  fun s hs => (h s hs).point_lt

theorem ascii_append {t u : Text} : Ascii (t ++ u) ↔ Ascii t ∧ Ascii u :=
  List.forall_mem_append

theorem ascii_cons {s : Symbol} {t : Text} : Ascii (s :: t) ↔ s.point < 0x80 ∧ Ascii t :=
  List.forall_mem_cons

theorem ascii_newline (depth : Nat) : Ascii (newline depth) :=
  ascii_cons.2 ⟨by decide, fun s hs => by
    rw [List.eq_of_mem_replicate hs]
    decide⟩

theorem ascii_indentedFrom (hj : j.Plain host) (depth : Nat) : Ascii (j.indentedFrom depth) := by
  induction hj generalizing depth with
  | null => exact ascii_of_printing (printing_compact (@Plain.null host))
  | bool b => exact ascii_of_printing (printing_compact (@Plain.bool host b))
  | int hn => exact ascii_of_printing (printing_compact (.int hn))
  | str ht => exact ascii_of_printing (printing_compact (@Plain.str host _ ht))
  | @arr items _ ih =>
    cases items with
    | nil => exact (by decide : Ascii "[]")
    | cons j items =>
      have hitem : ∀ k ∈ j :: items, Ascii (indentedItem (depth + 1) k) := fun k hk =>
        ascii_append.2 ⟨ascii_newline _, ih k hk _⟩
      have hitems : Ascii (indentedItems (depth + 1) (j :: items)) :=
        indentedItems_eq_join .. ▸ Text.forall_mem_join (by decide) (List.forall_mem_map.2 hitem)
      rw [indentedFrom]
      · exact ascii_cons.2 ⟨by decide, ascii_append.2 ⟨ascii_append.2
          ⟨hitems, ascii_newline depth⟩, by decide⟩⟩
      · exact List.cons_ne_nil _ _
  | @obj members _ _ _ ih =>
    cases members with
    | nil => exact (by decide : Ascii [.char '{', .char '}'])
    | cons m members =>
      have hmember : ∀ k ∈ m :: members, Ascii (indentedMember (depth + 1) k) := fun k hk =>
        ascii_append.2 ⟨ascii_append.2 ⟨ascii_append.2 ⟨ascii_newline _,
          ascii_of_printing (printing_writtenString k.1)⟩, by decide⟩, ih k hk _⟩
      have hmembers : Ascii (indentedMembers (depth + 1) (m :: members)) :=
        indentedMembers_eq_join .. ▸
          Text.forall_mem_join (by decide) (List.forall_mem_map.2 hmember)
      rw [indentedFrom]
      · exact ascii_cons.2 ⟨by decide, ascii_append.2 ⟨ascii_append.2
          ⟨hmembers, ascii_newline depth⟩, by decide⟩⟩
      · exact List.cons_ne_nil _ _

theorem fileText?_indented (hj : j.Plain host) :
    Encoding.fileText? (Encoding.encodeUtf8 j.indented) = some j.indented :=
  Encoding.decodeUtf8?_encodeUtf8 (ascii_indentedFrom hj 0)

end Json

end CircuitReceipts
