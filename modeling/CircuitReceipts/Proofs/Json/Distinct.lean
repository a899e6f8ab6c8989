import CircuitReceipts.Json.Document
import CircuitReceipts.Proofs.Table

/-!
# Keys of a document that was read

A text may give a key of an object twice; the later value then takes the place of the earlier one.
So in a document that has been read every object, however deep, has each of its keys once. The
reader keeps this of the containers that are still open, token by token.
-/

namespace CircuitReceipts

namespace Json

/-- Whether every object in a document has each of its keys once. -/
inductive Distinct : Json → Prop where
  | null : Distinct .null
  | bool {b : Bool} : Distinct (.bool b)
  | int {n : Int} : Distinct (.int n)
  | float {x : Binary64} : Distinct (.float x)
  | str {t : Text} : Distinct (.str t)
  | arr {items : List Json} (each : ∀ j ∈ items, Distinct j) : Distinct (.arr items)
  | obj {members : List (Text × Json)} (keys : (Table.keys members).Nodup)
      (each : ∀ m ∈ members, Distinct m.2) : Distinct (.obj members)

variable {t rest : Text} {j : Json} {items : List Json} {members : List (Text × Json)}
  {name : Text}

theorem Distinct.of_mem_items (h : (Json.arr items).Distinct) (hj : j ∈ items) : j.Distinct := by
  cases h with
  | arr each => exact each j hj

theorem Distinct.nodup_keys (h : (Json.obj members).Distinct) : (Table.keys members).Nodup := by
  cases h with
  | obj keys => exact keys

theorem Distinct.of_get? (h : (Json.obj members).Distinct) (hj : Table.get? name members = some j) :
    j.Distinct := by
  cases h with
  | obj _ each => exact each _ (Table.mem_of_get? hj)

theorem Distinct.put (h : (Json.obj members).Distinct) (hj : j.Distinct) :
    (Json.obj (Table.put name j members)).Distinct := by
  cases h with
  | obj keys each =>
    refine .obj (Table.nodup_keys_put name j keys) fun m hm => ?_
    rcases Table.mem_of_mem_put hm with rfl | hm
    · exact hj
    · exact each m hm

end Json

namespace Token

open Json (Distinct)

variable {t rest : Text} {j : Json} {k : Token}

/-- Whether a token is no scalar, or one without containers. -/
def Distinct : Token → Prop
  | .scalar j => j.Distinct
  | _ => True

theorem distinct_of_number? {negative : Bool} (h : number? negative t = some (j, rest)) :
    j.Distinct := by
  revert h
  fun_cases number? negative t <;> rintro ⟨⟩
  · exact .float
  · exact .float
  · exact .float
  · exact .int

theorem distinct_of_named? (h : named? t = some (j, rest)) : j.Distinct := by
  obtain ⟨⟨name, k⟩, hmem, hk⟩ := List.exists_of_findSome?_eq_some h
  simp only [Option.ite_none_right_eq_some, Option.some.injEq, Prod.mk.injEq] at hk
  obtain ⟨-, rfl, -⟩ := hk
  simp only [names, List.mem_cons, Prod.mk.injEq, List.not_mem_nil, or_false] at hmem
  rcases hmem with ⟨-, rfl⟩ | ⟨-, rfl⟩ | ⟨-, rfl⟩ | ⟨-, rfl⟩ | ⟨-, rfl⟩ | ⟨-, rfl⟩
  · exact .null
  · exact .bool
  · exact .bool
  · exact .float
  · exact .float
  · exact .float

theorem distinct_of_scalar? (h : scalar? t = some (j, rest)) : j.Distinct := by
  revert h
  fun_cases scalar? t with
  | case1 rest' =>
    intro h
    obtain ⟨⟨s, r⟩, -, hs⟩ := Option.map_eq_some_iff.1 h
    cases hs
    exact .str
  | case2 rest' r hnumber =>
    rintro ⟨⟩
    exact distinct_of_number? hnumber
  | case3 => exact distinct_of_named?
  | case4 t r hnumber =>
    rw [hnumber]
    rintro ⟨⟩
    exact distinct_of_number? hnumber
  | case5 t hnumber =>
    rw [hnumber]
    exact distinct_of_named?

theorem distinct_of_first? (h : first? t = some (k, rest)) : k.Distinct := by
  rw [first?.eq_def] at h
  split at h
  iterate 6
    · cases h
      trivial
  obtain ⟨⟨j, r⟩, hscalar, hk⟩ := Option.map_eq_some_iff.1 h
  cases hk
  exact distinct_of_scalar? hscalar

theorem distinct_of_mem_all (h : k ∈ (all t).1) : k.Distinct := by
  fun_induction all t with
  | case1 => exact absurd h List.not_mem_nil
  | case2 s rest hgap ih => exact ih h
  | case3 s rest hgap hnone => exact absurd h List.not_mem_nil
  | case4 s rest hgap k' rest' hfirst ks whole hall ih =>
    rcases List.mem_cons.1 h with rfl | h
    · exact distinct_of_first? hfirst
    · exact ih (by rw [hall]; exact h)

end Token

namespace Json

namespace Frame

/-- Whether an open container has distinct keys so far. -/
def Distinct : Frame → Prop
  | .array items => (arr items).Distinct
  | .object members _ => (obj members).Distinct

end Frame

namespace Reader

variable {host : Host} {r r' : Reader} {outer : List Frame} {j : Json} {k : Token} {ks : List Token}

/-- Whether what the reader has read so far has distinct keys. -/
def Distinct : Reader → Prop
  | value outer | firstItem outer | firstKey outer => ∀ f ∈ outer, f.Distinct
  | key members outer | colon members _ outer | moreMembers members outer =>
    (obj members).Distinct ∧ ∀ f ∈ outer, f.Distinct
  | moreItems items outer => (arr items).Distinct ∧ ∀ f ∈ outer, f.Distinct
  | finished j => j.Distinct

theorem distinct_accept (hj : j.Distinct) (houter : ∀ f ∈ outer, f.Distinct) :
    (accept j outer).Distinct := by
  match outer, houter with
  | [], _ => exact hj
  | .array items :: rest, houter =>
    obtain ⟨hitems, hrest⟩ := List.forall_mem_cons.1 houter
    refine ⟨.arr fun i hi => ?_, hrest⟩
    rcases List.mem_cons.1 hi with rfl | hi
    · exact hj
    · exact Json.Distinct.of_mem_items hitems hi
  | .object members name :: rest, houter =>
    obtain ⟨hmembers, hrest⟩ := List.forall_mem_cons.1 houter
    exact ⟨Json.Distinct.put hmembers hj, hrest⟩

theorem distinct_begin? (hk : k.Distinct) (houter : ∀ f ∈ outer, f.Distinct)
    (h : begin? outer k = some r) : r.Distinct := by
  cases k with
  | scalar j =>
    cases h
    exact distinct_accept hk houter
  | openBracket | openBrace =>
    cases h
    exact houter
  | closeBracket | closeBrace | comma | colon => cases h

theorem Distinct.step? (hr : r.Distinct) (hk : k.Distinct) (h : r.step? k = some r') :
    r'.Distinct := by
  have harr : Frame.Distinct (.array []) := Json.Distinct.arr (by simp)
  have hobj : Json.Distinct (.obj []) := .obj List.nodup_nil (by simp)
  rw [Reader.step?.eq_def] at h
  split at h
  · exact distinct_begin? hk hr h
  · cases h
    exact distinct_accept harr hr
  · exact distinct_begin? hk (List.forall_mem_cons.2 ⟨harr, hr⟩) h
  · cases h
    exact distinct_accept hobj hr
  · cases h
    exact ⟨hobj, hr⟩
  · cases h
    exact hr
  · cases h
    exact List.forall_mem_cons.2 hr
  · cases h
    exact List.forall_mem_cons.2 hr
  · cases h
    exact distinct_accept (.arr fun i hi => hr.1.of_mem_items (List.mem_reverse.1 hi)) hr.2
  · cases h
    exact hr
  · cases h
    exact distinct_accept hr.1 hr.2
  · cases h

theorem Distinct.run (hr : r.Distinct) (hks : ∀ k ∈ ks, k.Distinct) (h : r.run host ks = .ok r') :
    r'.Distinct := by
  induction ks generalizing r with
  | nil =>
    cases h
    exact hr
  | cons k ks ih =>
    obtain ⟨hk, hks⟩ := List.forall_mem_cons.1 hks
    rw [Reader.run, advance] at h
    cases hstep : r.step? k with
    | none =>
      rw [hstep] at h
      cases h
    | some r₁ =>
      rw [hstep] at h
      simp only at h
      split at h
      · cases h
      · next r₂ hadvanced =>
        split at hadvanced
        · cases hadvanced
        split at hadvanced
        · cases hadvanced
        · cases hadvanced
          exact ih (hr.step? hk hstep) hks h

end Reader

theorem distinct_of_read {host : Host} {t : Text} {j : Json} (h : read host t = .ok j) :
    j.Distinct := by
  rw [read] at h
  split at h
  next tokens whole hall =>
  have htokens : ∀ k ∈ tokens, k.Distinct := fun k hk =>
    Token.distinct_of_mem_all (t := t) (by rw [hall]; exact hk)
  have hstart : (Reader.value []).Distinct := by
    intro f hf
    exact absurd hf List.not_mem_nil
  split at h
  · cases h
  · next j' hrun =>
    split at h
    · cases h
      exact hstart.run htokens hrun
    · cases h
  · cases h

end Json

end CircuitReceipts
