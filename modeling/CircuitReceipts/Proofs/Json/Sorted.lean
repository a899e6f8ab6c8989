import CircuitReceipts.Proofs.Json.Reading

/-!
# Objects with their members in order

Putting the members of an object in the order of their keys changes neither what is found in it nor
whether it is plain, nor how deep it is.
-/

namespace CircuitReceipts

namespace Json

variable {host : Host} {members : List (Text × Json)}

theorem perm_sorted (members : List (Text × Json)) :
    (members.mergeSort fun a b => !b.1.precedes a.1).Perm members :=
  List.mergeSort_perm _ _

theorem Plain.sorted (hkeys : (Table.keys members).Nodup)
    (hnames : ∀ m ∈ members, Text.Unpaired m.1) (hvalues : ∀ m ∈ members, m.2.Plain host) :
    (Json.sorted members).Plain host := by
  have hperm := perm_sorted members
  refine .obj ((hperm.map Prod.fst).nodup_iff.2 hkeys) (fun m hm => ?_) fun m hm => ?_
  · exact hnames m (hperm.mem_iff.1 hm)
  · exact hvalues m (hperm.mem_iff.1 hm)

theorem get?_sorted (hkeys : (Table.keys members).Nodup) (key : Text) :
    (Json.sorted members).get? key = Table.get? key members :=
  (Table.get?_perm hkeys (perm_sorted members).symm key).symm

theorem height_arr_le {items : List Json} {k : Nat} (h : ∀ j ∈ items, j.height ≤ k) :
    (arr items).height ≤ k + 1 := by
  have hitems : heightOfItems items ≤ k := by
    induction items with
    | nil => exact Nat.zero_le _
    | cons j items ih =>
      rw [heightOfItems]
      exact Nat.max_le.2 ⟨h j (by simp), ih fun j hj => h j (List.mem_cons_of_mem _ hj)⟩
  rw [height]
  omega

theorem height_obj_le {k : Nat} (h : ∀ m ∈ members, m.2.height ≤ k) :
    (obj members).height ≤ k + 1 := by
  have hmembers : heightOfMembers members ≤ k := by
    induction members with
    | nil => exact Nat.zero_le _
    | cons m members ih =>
      obtain ⟨name, j⟩ := m
      rw [heightOfMembers]
      exact Nat.max_le.2 ⟨h (name, j) (by simp), ih fun m hm => h m (List.mem_cons_of_mem _ hm)⟩
  rw [height]
  omega

theorem height_sorted_le {k : Nat} (h : ∀ m ∈ members, m.2.height ≤ k) :
    (Json.sorted members).height ≤ k + 1 :=
  height_obj_le fun m hm => h m ((perm_sorted members).mem_iff.1 hm)

end Json

theorem Text.unpaired_hex (b : Bytes) : Text.Unpaired b.hex :=
  unpaired_of_ofHex? (Bytes.ofHex?_hex b)

theorem Text.unpaired_of_mem_map {names : List String} {t : Text}
    (h : t ∈ names.map Text.ofString) : t.Unpaired := by
  obtain ⟨s, -, rfl⟩ := List.mem_map.1 h
  exact Text.unpaired_ofString s

end CircuitReceipts
