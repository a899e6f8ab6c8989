import CircuitReceipts.Proofs.Merkle

/-!
# What an opening binds

Two openings of one root at one index, with equally many levels, are compared from the root down.
As long as no two different byte strings are hashed to the same digest, the nodes on the two ways
have the same preimages, and a preimage determines the digest of the child on the way once it is
known where in the preimage that child begins. A first child begins right behind the tag and a last
child ends with the preimage. For a child in between, which only nodes with four children have, the
place depends on how long the siblings before it are, and verification does not check that: an
opening may move a boundary between two siblings, and then opens the same index to the leaf next
to it.
-/

namespace CircuitReceipts

namespace HashName

variable {h : HashName} {inputs others : List Bytes}

/-- Two different byte strings of a list have the same digest. -/
def Collides (h : HashName) (inputs : List Bytes) : Prop :=
  ∃ x ∈ inputs, ∃ y ∈ inputs, x ≠ y ∧ h.digest x = h.digest y

instance (h : HashName) (inputs : List Bytes) : Decidable (h.Collides inputs) :=
  inferInstanceAs (Decidable (∃ x ∈ inputs, ∃ y ∈ inputs, x ≠ y ∧ h.digest x = h.digest y))

theorem Collides.mono (hsub : inputs ⊆ others) (hcollides : h.Collides inputs) :
    h.Collides others := by
  obtain ⟨x, hx, y, hy, hne, hdigest⟩ := hcollides
  exact ⟨x, hsub hx, y, hsub hy, hne, hdigest⟩

theorem eq_or_collides {x y : Bytes} (hx : x ∈ inputs) (hy : y ∈ inputs)
    (hdigest : h.digest x = h.digest y) : x = y ∨ h.Collides inputs := by
  by_cases heq : x = y
  · exact .inl heq
  · exact .inr ⟨x, hx, y, hy, heq, hdigest⟩

end HashName

namespace Merkle

variable {h : HashName} {a : Arity} {index : Int} {place : Nat}

/-- The preimages of the nodes that are hashed on the way from a digest along a path. -/
def climbed (h : HashName) (a : Arity) (digest : Bytes) (index : Int) :
    List (List Bytes) → List Bytes
  | [] => []
  | siblings :: rest =>
    if siblings.length = a.size - 1 then
      let children := insertChild (index % a.size).toNat digest siblings
      nodePreimage children :: climbed h a (hashNode h children) (index / a.size) rest
    else []

/-- All that is hashed when a leaf is verified at an index with a path. -/
def hashed (h : HashName) (a : Arity) (path : List (List Bytes)) (index : Int) (leaf : Bytes) :
    List Bytes :=
  leafPreimage leaf :: climbed h a (hashLeaf h leaf) index path

/-- Whether a child at a place among one list of siblings and among another begins at the same byte,
as far as the place does not say so by itself: a first child has nothing before it, and a last child
nothing behind it. -/
def SameOffset (a : Arity) (place : Nat) (s t : List Bytes) : Prop :=
  0 < place → place + 1 < a.size →
    (s.take place).flatten.length = (t.take place).flatten.length

instance (a : Arity) (place : Nat) (s t : List Bytes) : Decidable (SameOffset a place s t) :=
  inferInstanceAs (Decidable (0 < place → place + 1 < a.size →
    (s.take place).flatten.length = (t.take place).flatten.length))

/-- On every level that two paths share, the child on the way begins at the same byte. -/
def Aligned (a : Arity) (index : Int) : List (List Bytes) → List (List Bytes) → Prop
  | s :: path, t :: path' =>
    SameOffset a (index % a.size).toNat s t ∧ Aligned a (index / a.size) path path'
  | _, _ => True

instance decidableAligned (a : Arity) :
    (index : Int) → (path path' : List (List Bytes)) → Decidable (Aligned a index path path')
  | index, _ :: path, _ :: path' =>
    have := decidableAligned a (index / a.size) path path'
    inferInstanceAs (Decidable (_ ∧ _))
  | _, [], _ => inferInstanceAs (Decidable True)
  | _, _ :: _, [] => inferInstanceAs (Decidable True)

theorem aligned_two (index : Int) (path path' : List (List Bytes)) :
    Aligned .two index path path' := by
  induction path generalizing index path' with
  | nil => trivial
  | cons s path ih =>
    cases path' with
    | nil => trivial
    | cons t path' =>
      refine ⟨fun hfirst hlast => ?_, ih _ _⟩
      have hsize : Arity.two.size = 2 := rfl
      omega

example : ¬Aligned .four 1 [[[0], [], []]] [[[0, 0], [], []]] := by decide

theorem length_flatten_of_digests {siblings : List Bytes} (hs : ∀ d ∈ siblings, d.length = 32) :
    siblings.flatten.length = siblings.length * 32 := by
  rw [List.length_flatten, List.map_congr_left hs, List.map_const', List.sum_replicate_nat]

/-- Siblings as long as digests, equally many on each level, are aligned. -/
theorem aligned_of_digests {path path' : List (List Bytes)}
    (hcount : path.map List.length = path'.map List.length)
    (hs : ∀ level ∈ path, ∀ d ∈ level, d.length = 32)
    (ht : ∀ level ∈ path', ∀ d ∈ level, d.length = 32) : Aligned a index path path' := by
  induction path generalizing index path' with
  | nil => trivial
  | cons s path ih =>
    cases path' with
    | nil => trivial
    | cons t path' =>
      rw [List.map_cons, List.map_cons, List.cons.injEq] at hcount
      rw [List.forall_mem_cons] at hs ht
      refine ⟨fun _ _ => ?_, ih hcount.2 hs.2 ht.2⟩
      rw [length_flatten_of_digests fun d hd => hs.1 d (List.mem_of_mem_take hd),
        length_flatten_of_digests fun d hd => ht.1 d (List.mem_of_mem_take hd),
        List.length_take, List.length_take, hcount.1]

/-- Where a child begins is known, what it is can be read off the preimage. -/
theorem child_eq {c d : Bytes} {s t : List Bytes} (hs : s.length = a.size - 1)
    (ht : t.length = a.size - 1) (hoffset : SameOffset a place s t) (hlen : c.length = d.length)
    (heq : nodePreimage (insertChild place c s) = nodePreimage (insertChild place d t)) :
    c = d := by
  simp only [nodePreimage, insertChild, List.flatten_append, List.flatten_cons, List.cons.injEq,
    true_and] at heq
  have hfront : (s.take place).flatten.length = (t.take place).flatten.length := by
    rcases Nat.eq_zero_or_pos place with rfl | hfirst
    · rfl
    · by_cases hlast : place + 1 < a.size
      · exact hoffset hfirst hlast
      · have htotal := congrArg List.length heq
        rw [List.drop_eq_nil_of_le (by omega), List.drop_eq_nil_of_le (by omega)] at htotal
        simp only [List.length_append, List.flatten_nil, List.length_nil] at htotal
        omega
  exact (List.append_inj (List.append_inj heq hfront).2 hlen).1

/-- Two digests that climb to the same one are equal, or two of the nodes hashed on the way
collide. -/
theorem digest_eq_or_collides {path path' : List (List Bytes)} {digest digest' root : Bytes}
    {left left' : Int} (hlevels : path.length = path'.length)
    (haligned : Aligned a index path path') (hlen : digest.length = digest'.length)
    (hclimb : climb? h a digest index path = some (root, left))
    (hclimb' : climb? h a digest' index path' = some (root, left')) :
    digest = digest' ∨
      h.Collides (climbed h a digest index path ++ climbed h a digest' index path') := by
  induction path generalizing index path' digest digest' with
  | nil =>
    cases path' with
    | nil =>
      simp only [climb?, Option.some.injEq, Prod.mk.injEq] at hclimb hclimb'
      exact .inl (hclimb.1.trans hclimb'.1.symm)
    | cons => simp at hlevels
  | cons s path ih =>
    cases path' with
    | nil => simp at hlevels
    | cons t path' =>
      obtain ⟨hoffset, hrest⟩ := haligned
      rw [climb?, Option.ite_none_right_eq_some] at hclimb hclimb'
      obtain ⟨hs, hclimb⟩ := hclimb
      obtain ⟨ht, hclimb'⟩ := hclimb'
      rw [climbed, if_pos hs, climbed, if_pos ht]
      rcases ih (by simpa using hlevels) hrest (by simp [hashNode]) hclimb hclimb' with
        hnode | hcollides
      · -- The digests above are equal, so the preimages are, or they collide.
        refine (HashName.eq_or_collides ?_ ?_ hnode).imp_left (child_eq hs ht hoffset hlen)
        · exact List.mem_append_left _ List.mem_cons_self
        · exact List.mem_append_right _ List.mem_cons_self
      · refine .inr (hcollides.mono (List.append_subset.2 ⟨?_, ?_⟩))
        · exact List.subset_append_of_subset_left _ (List.subset_cons_self _ _)
        · exact List.subset_append_of_subset_right _ (List.subset_cons_self _ _)

theorem verify_eq_true_iff {root leaf : Bytes} {path : List (List Bytes)} :
    verify h a root path index leaf = true ↔
      climb? h a (hashLeaf h leaf) index path = some (root, 0) := by
  rw [verify]
  split
  · next digest left heq =>
    rw [heq, Bool.and_eq_true, beq_iff_eq, beq_iff_eq, Option.some.injEq, Prod.mk.injEq, and_comm]
  · next heq => simp [heq]

/-- Every level of a path that can be climbed has one sibling less than a node has children. -/
theorem map_length_of_climb {path : List (List Bytes)} {digest : Bytes} {reached : Bytes × Int}
    (hclimb : climb? h a digest index path = some reached) :
    path.map List.length = List.replicate path.length (a.size - 1) := by
  induction path generalizing digest index with
  | nil => rfl
  | cons s path ih =>
    rw [climb?, Option.ite_none_right_eq_some] at hclimb
    rw [List.map_cons, List.length_cons, List.replicate_succ, hclimb.1, ih hclimb.2]

theorem leaf_eq_or_collides_of_aligned {root leaf leaf' : Bytes} {path path' : List (List Bytes)}
    (hlevels : path.length = path'.length) (haligned : Aligned a index path path')
    (hverify : verify h a root path index leaf = true)
    (hverify' : verify h a root path' index leaf' = true) :
    leaf = leaf' ∨ h.Collides (hashed h a path index leaf ++ hashed h a path' index leaf') := by
  rw [verify_eq_true_iff] at hverify hverify'
  rcases digest_eq_or_collides hlevels haligned (by simp [hashLeaf]) hverify hverify' with
    hleaf | hcollides
  · refine (HashName.eq_or_collides ?_ ?_ hleaf).imp_left List.tail_eq_of_cons_eq
    · exact List.mem_append_left _ List.mem_cons_self
    · exact List.mem_append_right _ List.mem_cons_self
  · refine .inr (hcollides.mono (List.append_subset.2 ⟨?_, ?_⟩))
    · exact List.subset_append_of_subset_left _ (List.subset_cons_self _ _)
    · exact List.subset_append_of_subset_right _ (List.subset_cons_self _ _)

/-- Openings whose siblings are as long as digests bind the leaf, for every number of children. -/
theorem leaf_eq_or_collides_of_digests {root leaf leaf' : Bytes} {path path' : List (List Bytes)}
    (hlevels : path.length = path'.length) (hs : ∀ level ∈ path, ∀ d ∈ level, d.length = 32)
    (ht : ∀ level ∈ path', ∀ d ∈ level, d.length = 32)
    (hverify : verify h a root path index leaf = true)
    (hverify' : verify h a root path' index leaf' = true) :
    leaf = leaf' ∨ h.Collides (hashed h a path index leaf ++ hashed h a path' index leaf') := by
  have hcount : path.map List.length = path'.map List.length := by
    rw [map_length_of_climb (verify_eq_true_iff.1 hverify),
      map_length_of_climb (verify_eq_true_iff.1 hverify'), hlevels]
  exact leaf_eq_or_collides_of_aligned hlevels (aligned_of_digests hcount hs ht) hverify hverify'

/-- Two openings of a root at an index, with equally many levels, have the same leaf, or two
different byte strings that were hashed to verify them have the same digest. With two children to a
node this asks nothing of the siblings; with four, a child that is neither the first nor the last
has to begin at the same byte in both. -/
theorem leaf_eq_or_collides {root leaf leaf' : Bytes} {path path' : List (List Bytes)}
    (hlevels : path.length = path'.length) (haligned : a = .four → Aligned .four index path path')
    (hverify : verify h a root path index leaf = true)
    (hverify' : verify h a root path' index leaf' = true) :
    leaf = leaf' ∨ h.Collides (hashed h a path index leaf ++ hashed h a path' index leaf') := by
  cases a with
  | two =>
    exact leaf_eq_or_collides_of_aligned hlevels (aligned_two index path path') hverify hverify'
  | four => exact leaf_eq_or_collides_of_aligned hlevels (haligned rfl) hverify hverify'

theorem leaf_eq_or_collides_of_moved_boundary :
    let d (i : UInt8) := hashLeaf .blake2s [i]
    let root := hashNode .blake2s [d 0, d 1, d 2, d 3]
    let path := [[d 0, d 2, d 3]]
    let path' := [[d 0, d 2 ++ d 3, []]]
    path.length = path'.length ∧ Aligned .four 1 path path' ∧
      verify .blake2s .four root path 1 [1] = true ∧
      verify .blake2s .four root path' 1 [1] = true ∧
      (([1] : Bytes) = [1] ∨ HashName.blake2s.Collides
        (hashed .blake2s .four path 1 [1] ++ hashed .blake2s .four path' 1 [1])) := by
  intro d root path path'
  have haligned : Aligned .four 1 path path' := ⟨fun _ _ => rfl, trivial⟩
  have hverify : verify .blake2s .four root path 1 [1] = true := by
    simp [verify, climb?, insertChild, Arity.size, path, root, d]
  have hverify' : verify .blake2s .four root path' 1 [1] = true := by
    simp [verify, climb?, insertChild, Arity.size, hashNode, nodePreimage, path', root, d]
  exact ⟨rfl, haligned, hverify, hverify',
    leaf_eq_or_collides rfl (fun _ => haligned) hverify hverify'⟩

/-- A sibling that takes the child behind it in, so that the sibling after that takes the child's
place, leaves the preimage as it was. An opening of one leaf becomes one of the leaf next to it,
at the same index. -/
theorem verify_shift (h : HashName) (a : Arity) (root leaf leaf' before : Bytes)
    (front back : List Bytes) (rest : List (List Bytes))
    (hplace : (index % a.size).toNat = front.length + 1) :
    verify h a root ((front ++ (before ++ hashLeaf h leaf) :: (back ++ [[]])) :: rest) index leaf' =
      verify h a root ((front ++ before :: hashLeaf h leaf' :: back) :: rest) index leaf := by
  have hcount : (front ++ (before ++ hashLeaf h leaf) :: (back ++ [[]])).length =
      (front ++ before :: hashLeaf h leaf' :: back).length := by
    simp
  have hnode : hashNode h (insertChild (front.length + 1) (hashLeaf h leaf')
        (front ++ (before ++ hashLeaf h leaf) :: (back ++ [[]]))) =
      hashNode h (insertChild (front.length + 1) (hashLeaf h leaf)
        (front ++ before :: hashLeaf h leaf' :: back)) := by
    have hfront : front.take (front.length + 1) = front := List.take_of_length_le (by omega)
    have hnone : front.drop (front.length + 1) = [] := List.drop_eq_nil_of_le (by omega)
    simp [hashNode, nodePreimage, insertChild, List.take_append, List.drop_append, hfront, hnone]
  simp only [verify, climb?, hplace, hcount, hnode]

/-- In a tree over four leaves, index one opens to its own leaf and, with a boundary moved, to the
next, and what is hashed for the two has pairwise different digests. -/
theorem opens_to_two_leaves :
    ¬ ∀ (h : HashName) (a : Arity) (root leaf leaf' : Bytes) (index : Int)
        (path path' : List (List Bytes)), 0 ≤ index → path.length = path'.length →
      verify h a root path index leaf = true → verify h a root path' index leaf' = true →
      leaf = leaf' ∨ h.Collides (hashed h a path index leaf ++ hashed h a path' index leaf') := by
  intro hbinds
  let d (i : UInt8) := hashLeaf .blake2s [i]
  let root := hashNode .blake2s [d 0, d 1, d 2, d 3]
  have hplace : ((1 : Int) % (Arity.four.size : Int)).toNat = ([] : List Bytes).length + 1 := by
    decide
  have hverify : verify .blake2s .four root [[d 0, d 2, d 3]] 1 [1] = true := by
    simp [verify, climb?, insertChild, Arity.size, root, d]
  have hshift : verify .blake2s .four root [[d 0 ++ d 1, d 3, []]] 1 [2] = true :=
    (verify_shift .blake2s .four root [1] [2] (d 0) [] [d 3] [] hplace).trans hverify
  have hdistinct : ¬ HashName.blake2s.Collides
      (hashed .blake2s .four [[d 0, d 2, d 3]] 1 [1] ++
        hashed .blake2s .four [[d 0 ++ d 1, d 3, []]] 1 [2]) := by
    decide +kernel
  have hleaf : ([1] : Bytes) ≠ [2] := by decide
  have hbound := hbinds .blake2s .four root [1] [2] 1 [[d 0, d 2, d 3]] [[d 0 ++ d 1, d 3, []]]
    Int.one_nonneg rfl hverify hshift
  exact hbound.elim hleaf hdistinct

end Merkle

end CircuitReceipts
