import CircuitReceipts.Table
import Mathlib.Data.List.Nodup

/-!
# Tables with distinct keys

In a table that has every key once, a key has the value that stands with it, and the order of the
entries does not matter.
-/

namespace CircuitReceipts

namespace Table

variable {κ α : Type} [DecidableEq κ] {t u : Table κ α} {key : κ} {v : α}

theorem mem_of_get? (h : get? key t = some v) : (key, v) ∈ t := by
  induction t with
  | nil => simp at h
  | cons e rest ih =>
    rw [get?_cons] at h
    split at h
    · next he =>
      cases h
      rw [← he]
      exact List.mem_cons_self ..
    · exact List.mem_cons_of_mem _ (ih h)

theorem get?_of_mem (ht : (keys t).Nodup) (h : (key, v) ∈ t) : get? key t = some v := by
  induction t with
  | nil => simp at h
  | cons e rest ih =>
    rw [keys, List.map_cons, List.nodup_cons] at ht
    rw [get?_cons]
    rcases List.mem_cons.1 h with rfl | h
    · rw [if_pos rfl]
    · have hne : e.1 ≠ key := by
        intro he
        exact ht.1 (List.mem_map.2 ⟨_, h, he.symm⟩)
      rw [if_neg hne]
      exact ih ht.2 h

/-- Where every key stands once, the entries may be put in any order. -/
theorem get?_perm (ht : (keys t).Nodup) (h : t.Perm u) (key : κ) : get? key t = get? key u := by
  have hu : (keys u).Nodup := (h.map Prod.fst).nodup_iff.1 ht
  cases hk : get? key t with
  | some v => exact (get?_of_mem hu (h.mem_iff.1 (mem_of_get? hk))).symm
  | none =>
    cases hk' : get? key u with
    | none => rfl
    | some v =>
      rw [get?_of_mem ht (h.mem_iff.2 (mem_of_get? hk'))] at hk
      exact absurd hk (by simp)

theorem mem_of_mem_put {e : κ × α} (h : e ∈ put key v t) : e = (key, v) ∨ e ∈ t := by
  induction t with
  | nil => exact .inl (List.mem_singleton.1 h)
  | cons f rest ih =>
    obtain ⟨k, w⟩ := f
    rw [put] at h
    split at h
    · next hk =>
      rcases List.mem_cons.1 h with rfl | h
      · exact .inl (by rw [hk])
      · exact .inr (List.mem_cons_of_mem _ h)
    · rcases List.mem_cons.1 h with rfl | h
      · exact .inr (List.mem_cons_self ..)
      · exact (ih h).imp_right (List.mem_cons_of_mem _)

theorem put_of_not_mem (h : key ∉ keys t) (v : α) : put key v t = t ++ [(key, v)] := by
  induction t with
  | nil => rfl
  | cons e rest ih =>
    obtain ⟨k, w⟩ := e
    rw [keys, List.map_cons, List.mem_cons, not_or] at h
    rw [put, if_neg (Ne.symm h.1), ih h.2]
    rfl

theorem ofEntries_of_nodup {entries : List (κ × α)} (h : (keys entries).Nodup) :
    ofEntries entries = entries := by
  -- Put one after another behind entries with other keys, the entries are appended.
  have hfoldl (t rest : Table κ α) (ht : (keys (t ++ rest)).Nodup) :
      rest.foldl (fun t e => put e.1 e.2 t) t = t ++ rest := by
    induction rest generalizing t with
    | nil => exact (List.append_nil t).symm
    | cons e rest ih =>
      have hassoc : t ++ e :: rest = t ++ [e] ++ rest := by simp
      have hnew : e.1 ∉ keys t := by
        rw [keys, List.map_append, List.nodup_append] at ht
        exact fun he => ht.2.2 _ he _ (by simp) rfl
      rw [List.foldl_cons, put_of_not_mem hnew, ih _ (hassoc ▸ ht), hassoc]
  exact hfoldl [] entries h

theorem ext_of_get? (hkeys : keys t = keys u) (ht : (keys t).Nodup)
    (hvalues : ∀ key ∈ keys t, get? key t = get? key u) : t = u := by
  induction t generalizing u with
  | nil => exact (List.map_eq_nil_iff.1 hkeys.symm).symm
  | cons e t ih =>
    cases u with
    | nil => exact absurd hkeys (by simp [keys])
    | cons f u =>
      obtain ⟨k, v⟩ := e
      obtain ⟨k', w⟩ := f
      obtain ⟨rfl, hrest⟩ : k = k' ∧ keys t = keys u := List.cons.inj hkeys
      obtain ⟨hnew, ht⟩ : k ∉ keys t ∧ (keys t).Nodup := List.nodup_cons.1 ht
      obtain rfl : v = w := by
        have h := hvalues k (List.mem_cons_self ..)
        rw [get?_cons, if_pos rfl, get?_cons, if_pos rfl] at h
        exact Option.some.inj h
      have htail := ih hrest ht fun key hmem => by
        have hne : k ≠ key := fun he => hnew (he.symm ▸ hmem)
        have h := hvalues key (List.mem_cons_of_mem _ hmem)
        rwa [get?_cons, if_neg hne, get?_cons, if_neg hne] at h
      rw [htail]

end Table

end CircuitReceipts
