import CircuitReceipts.Proofs.Merkle.Commitment

/-!
# Openings of a committed list

Whoever opens a leaf of a tree, with as many levels as the number of leaves asks for and with
siblings as wide as digests, opens a leaf that is there, at its own index and with the path that the
tree itself gives; or else what is hashed breaks the hash function. The climb from the leaf is
compared with the levels of the tree from the root down: once the node on the way is known to stand
in its level, its children are the family below it, so the digest one level further down stands in
its level as well, and its siblings are the rest of the family. It cannot be one of the zero digests
that fill up the level, since it is the digest of something that was hashed.
-/

namespace CircuitReceipts

namespace Merkle

variable {h : HashName} {a : Arity} {inputs level siblings : List Bytes} {index : Int}
  {node place : Nat} {digest : Bytes}

/-- A node on the way that stands in its level settles what is on the level below: the child is the
digest at its place, and the siblings are the rest of the family. -/
theorem of_parent (hsafe : ¬h.Breaks inputs) (hlevel : level ⊆ inputs.map h.digest)
    (hnodes : nodePreimages a level ⊆ inputs) (hdigest : digest ∈ inputs.map h.digest)
    (hchildren : nodePreimage (insertChild place digest siblings) ∈ inputs)
    (hcount : siblings.length = a.size - 1) (hwide : Wide siblings) (hplace : place < a.size)
    (hparent : (parents h a level)[node]? =
      some (hashNode h (insertChild place digest siblings))) :
    level[node * a.size + place]? = some digest ∧
      (family a level node).eraseIdx place = siblings := by
  have hle : place ≤ siblings.length := by omega
  rw [insertChild_eq_insertIdx hle] at hchildren hparent
  have hlength : (siblings.insertIdx place digest).length = a.size := by
    rw [List.length_insertIdx_of_le_length hle]
    omega
  have hwide' : Wide (siblings.insertIdx place digest) := by
    intro d hd
    rcases (List.mem_insertIdx hle).1 hd with rfl | hd
    · exact wide_of_subset (List.cons_subset.2 ⟨hdigest, List.nil_subset _⟩) _
        (List.mem_singleton_self _)
    · exact hwide d hd
  have hfamily := eq_family_of_parent hsafe hlevel hnodes hchildren hlength hwide' hparent
  refine ⟨getElem?_of_getD hsafe hdigest ?_, ?_⟩
  · have hget := getElem?_family level node hplace
    rw [← hfamily, List.getElem?_insertIdx_self, if_pos hle, Option.some.injEq] at hget
    exact hget.symm
  · rw [← hfamily, List.eraseIdx_insertIdx_self]

/-- A digest that climbs to the root above a level stands in the level at its index, and its path is
the one through the levels. -/
theorem path_of_climb (hsafe : ¬h.Breaks inputs) {root : Bytes} {path : List (List Bytes)}
    (hlevel : level ⊆ inputs.map h.digest) (hraised : raised h a level ⊆ inputs)
    (hdigest : digest ∈ inputs.map h.digest) (hclimbed : climbed h a digest index path ⊆ inputs)
    (hlength : path.length = levelCount a.size level.length)
    (hwide : ∀ siblings ∈ path, Wide siblings)
    (hroot : (((levelsFrom h a level).getLast?).bind List.head?).getD zeroDigest = root)
    (hclimb : climb? h a digest index path = some (root, 0)) :
    ∃ position : Nat, index = position ∧ level[position]? = some digest ∧
      MerkleTree.pathThrough a (levelsFrom h a level) position = .ok path := by
  fun_induction levelsFrom h a level generalizing digest index path with
  | case1 level hmore ih =>
    -- what stands above comes first, as only a node in its level settles the children below it
    have ha := a.two_le_size
    have hpos : (0 : Int) < a.size := by omega
    rw [levelCount.eq_def, dif_pos ⟨hmore, ha⟩] at hlength
    obtain ⟨siblings, rest, rfl⟩ := List.exists_cons_of_length_eq_add_one hlength
    rw [climb?, Option.ite_none_right_eq_some] at hclimb
    obtain ⟨hcount, hclimb⟩ := hclimb
    rw [climbed, if_pos hcount, List.cons_subset] at hclimbed
    rw [raised_of_one_lt hmore, List.append_subset] at hraised
    rw [List.forall_mem_cons] at hwide
    obtain ⟨above, hlevels⟩ := exists_levelsFrom_eq_cons h a (parents h a level)
    have hparents : parents h a level ⊆ inputs.map h.digest := by
      rw [parents_eq_map]
      exact List.map_subset _ hraised.1
    rw [hlevels, List.getLast?_cons_cons, ← hlevels] at hroot
    obtain ⟨node, hnode, hparent, hpath⟩ := ih hparents hraised.2
      (List.mem_map_of_mem hclimbed.1) hclimbed.2 (by simpa using hlength) hwide.2 hroot hclimb
    obtain ⟨place, hplace⟩ := Int.eq_ofNat_of_zero_le (Int.emod_nonneg index hpos.ne')
    have hlt : place < a.size := by
      have := Int.emod_lt_of_pos index hpos
      omega
    rw [hplace, Int.toNat_natCast] at hparent hclimbed
    obtain ⟨hget, hsiblings⟩ := of_parent hsafe hlevel hraised.1 hdigest hclimbed.1 hcount hwide.1
      hlt hparent
    have hdiv : (node * a.size + place) / a.size = node := by
      rw [Nat.mul_comm, Nat.mul_add_div (by omega), Nat.div_eq_of_lt hlt, Nat.add_zero]
    have hmod : (node * a.size + place) % a.size = place := by
      rw [Nat.mul_comm, Nat.mul_add_mod, Nat.mod_eq_of_lt hlt]
    refine ⟨node * a.size + place, ?_, hget, ?_⟩
    · rw [← Int.mul_ediv_add_emod index a.size, hnode, hplace, Int.mul_comm]
      push_cast
      rfl
    · rw [hlevels, MerkleTree.pathThrough, siblings_eq_ok, ok_bind, ← Int.natCast_ediv, hdiv, hmod,
        hsiblings, ← hlevels, hpath]
      rfl
  | case2 level hone =>
    rw [levelCount.eq_def, dif_neg fun h => hone h.1, List.length_eq_zero_iff] at hlength
    subst hlength
    rw [climb?, Option.some.injEq, Prod.mk.injEq] at hclimb
    rw [List.getLast?_singleton, Option.bind_some, List.head?_eq_getElem?, ← hclimb.1,
      ← List.getD_eq_getElem?_getD] at hroot
    exact ⟨0, hclimb.2, getElem?_of_getD hsafe hdigest hroot, rfl⟩

end Merkle

namespace MerkleTree

open Merkle in
/-- An opening that is verified against the root of a tree, with as many levels as the number of
leaves asks for and with siblings as wide as digests, is the tree's own: the index is that of a
leaf, the leaf is the one at the index, and the path is the one that the tree gives for it. Or else
what is hashed to build the tree and to verify the opening breaks the hash function. -/
theorem opening_eq_or_breaks {h : HashName} {a : Arity} {leaves : List Bytes} {index : Int}
    {leaf : Bytes} {path : List (List Bytes)} (hlength : path.length = pathLength a leaves.length)
    (hwide : ∀ siblings ∈ path, ∀ d ∈ siblings, d.length = 32)
    (hverify : verify h a (ofLeaves h a leaves).root path index leaf = true) :
    (0 ≤ index ∧ index < leaves.length ∧ leaves[index.toNat]? = some leaf ∧
      (ofLeaves h a leaves).path index = .ok path) ∨
    h.Breaks (built h a leaves ++ Merkle.hashed h a path index leaf) := by
  refine or_iff_not_imp_right.2 fun hsafe => ?_
  have hbuilt := List.subset_append_left (built h a leaves) (Merkle.hashed h a path index leaf)
  have hhashed := List.subset_append_right (built h a leaves) (Merkle.hashed h a path index leaf)
  obtain ⟨hleaves, hraised⟩ := List.append_subset.1 hbuilt
  obtain ⟨hleaf, hclimbed⟩ := List.cons_subset.1 hhashed
  have hlevel : leaves.map (hashLeaf h) ⊆ _ := iterate_subset hbuilt (Nat.zero_le _)
  obtain ⟨position, rfl, hget, hpath⟩ := path_of_climb hsafe hlevel hraised
    (List.mem_map_of_mem hleaf) hclimbed (by rw [hlength, pathLength, List.length_map]) hwide
    (root_ofLeaves h a leaves).symm (verify_eq_true_iff.1 hverify)
  rw [List.getElem?_map, Option.map_eq_some_iff] at hget
  obtain ⟨committed, hcommitted, hdigest⟩ := hget
  have hmem := List.mem_of_getElem? hcommitted
  obtain rfl : committed = leaf :=
    leaf_eq_of_digest hsafe (hleaves (List.mem_map_of_mem hmem)) hleaf hdigest
  obtain ⟨hposition, -⟩ := List.getElem?_eq_some_iff.1 hcommitted
  refine ⟨Int.natCast_nonneg position, Int.ofNat_lt.2 hposition, hcommitted, ?_⟩
  rw [MerkleTree.path, levels_ofLeaves h a (List.ne_nil_of_mem hmem)]
  exact hpath

open Merkle in
/-- The last of five leaves, which stands alone below a node with three zero digests. -/
theorem opening_eq_or_breaks_five :
    let d (i : UInt8) := hashLeaf .blake2s [i]
    let leaves : List Bytes := [[0], [1], [2], [3], [4]]
    let path := [[zeroDigest, zeroDigest, zeroDigest],
      [hashNode .blake2s [d 0, d 1, d 2, d 3], zeroDigest, zeroDigest]]
    path.length = pathLength .four leaves.length ∧
      (∀ siblings ∈ path, ∀ d ∈ siblings, d.length = 32) ∧
      verify .blake2s .four (ofLeaves .blake2s .four leaves).root path 4 [4] = true ∧
      (((0 : Int) ≤ 4 ∧ (4 : Int) < leaves.length ∧ leaves[(4 : Int).toNat]? = some [4] ∧
        (ofLeaves .blake2s .four leaves).path 4 = .ok path) ∨
      HashName.blake2s.Breaks
        (built .blake2s .four leaves ++ Merkle.hashed .blake2s .four path 4 [4])) := by
  intro d leaves path
  have hlength : path.length = pathLength .four leaves.length := by
    simp [path, leaves, pathLength, levelCount, Arity.size]
  have hwide : ∀ siblings ∈ path, ∀ d ∈ siblings, d.length = 32 := by
    simp [path, zeroDigest, hashNode]
  have hverify : verify .blake2s .four (ofLeaves .blake2s .four leaves).root path 4 [4] = true := by
    simp [verify, climb?, insertChild, Arity.size, path, root_ofLeaves, leaves, levelsFrom, parents,
      families, d]
  exact ⟨hlength, hwide, hverify, opening_eq_or_breaks hlength hwide hverify⟩

end MerkleTree

end CircuitReceipts
