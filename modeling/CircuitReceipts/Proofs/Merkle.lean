import CircuitReceipts.Merkle
import CircuitReceipts.Proofs.Success
import Mathlib.Data.List.InsertIdx
import Mathlib.Tactic.IntervalCases

/-!
# Openings of Merkle trees

Every leaf of a tree, whatever the number of leaves, opens with a path of the length that the number
of leaves asks for, and the path leads back to the root. The invariant of the climb is that after
each level the digest reached is the one that stands, at the place of the ancestor, in the next
level of the tree.
-/

namespace CircuitReceipts

theorem Arity.size_pos (a : Arity) : 0 < a.size :=
  Nat.lt_of_lt_of_le (by decide) a.two_le_size

namespace Merkle

variable {h : HashName} {a : Arity} {level : List Bytes} {position : Nat}

/-- The digests below one node of the level above, filled up with zero digests. -/
def family (a : Arity) (level : List Bytes) (node : Nat) : List Bytes :=
  (List.range a.size).map fun i => level.getD (node * a.size + i) zeroDigest

@[simp] theorem length_family (a : Arity) (level : List Bytes) (node : Nat) :
    (family a level node).length = a.size := by
  simp [family]

theorem getElem?_family (level : List Bytes) (node : Nat) {place : Nat} (hplace : place < a.size) :
    (family a level node)[place]? = some (level.getD (node * a.size + place) zeroDigest) := by
  rw [family, List.getElem?_map, List.getElem?_range hplace, Option.map_some]

theorem padded_eq_family (a : Arity) (level : List Bytes) :
    level.take a.size ++ List.replicate (a.size - (level.take a.size).length) zeroDigest =
      family a level 0 := by
  refine List.ext_getElem ?_ fun i hi hi' => ?_
  · rw [List.length_append, List.length_replicate, family, List.length_map, List.length_range,
      List.length_take]
    omega
  · have hia : i < a.size := by simpa [family] using hi'
    simp only [family, List.getElem_map, List.getElem_range, Nat.zero_mul, Nat.zero_add,
      List.getD_eq_getElem?_getD]
    rw [List.getElem_append]
    split
    · next h =>
      rw [List.length_take] at h
      rw [List.getElem_take, List.getElem?_eq_getElem (by omega)]
      rfl
    · next h =>
      rw [List.length_take] at h
      rw [List.getElem_replicate, List.getElem?_eq_none (by omega)]
      rfl

theorem family_drop (a : Arity) (level : List Bytes) (node : Nat) :
    family a (level.drop a.size) node = family a level (node + 1) := by
  refine List.map_congr_left fun i _ => ?_
  rw [List.getD_eq_getElem?_getD, List.getD_eq_getElem?_getD, List.getElem?_drop, Nat.add_mul,
    Nat.one_mul, Nat.add_comm (node * a.size) a.size, Nat.add_assoc]

theorem getElem?_families {node : Nat} (hnode : node * a.size < level.length) :
    (families a level)[node]? = some (family a level node) := by
  have ha := a.two_le_size
  induction node generalizing level with
  | zero =>
    cases level with
    | nil => simp at hnode
    | cons d ds => rw [families, List.getElem?_cons_zero, padded_eq_family]
  | succ node ih =>
    cases level with
    | nil => simp at hnode
    | cons d ds =>
      have hrest : node * a.size < ((d :: ds).drop a.size).length := by
        rw [List.length_drop]
        rw [Nat.add_mul, Nat.one_mul] at hnode
        omega
      rw [families, List.getElem?_cons_succ, ih hrest, family_drop]

theorem getElem?_parents (hposition : position < level.length) :
    (parents h a level)[position / a.size]? =
      some (hashNode h (family a level (position / a.size))) := by
  have hnode : position / a.size * a.size < level.length :=
    Nat.lt_of_le_of_lt (Nat.div_mul_le_self _ _) hposition
  rw [parents, List.getElem?_map, getElem?_families hnode]
  rfl

theorem filter_range_ne {place : Nat} (hplace : place < a.size) :
    (List.range a.size).filter (fun (i : Nat) => decide ((i : Int) ≠ (place : Int))) =
      (List.range a.size).eraseIdx place := by
  cases a with
  | two =>
    have hlt : place < 2 := hplace
    interval_cases place <;> decide
  | four =>
    have hlt : place < 4 := hplace
    interval_cases place <;> decide

theorem siblings_eq_ok (a : Arity) (level : List Bytes) (position : Nat) :
    MerkleTree.siblings a level position =
      .ok ((family a level (position / a.size)).eraseIdx (position % a.size)) := by
  have hpos := a.size_pos
  have hown : (position : Int) % (a.size : Int) = ((position % a.size : Nat) : Int) :=
    (Int.natCast_emod _ _).symm
  have hstart : (position : Int) - ((position % a.size : Nat) : Int) =
      ((position / a.size * a.size : Nat) : Int) := by
    have := Nat.div_add_mod' position a.size
    omega
  have hdigest (n : Nat) :
      MerkleTree.digestAt level (n : Int) = .ok (level.getD n zeroDigest) := by
    rw [MerkleTree.digestAt, if_pos (Int.natCast_nonneg n), Int.toNat_natCast]
  simp only [MerkleTree.siblings, hown, hstart, ← Int.natCast_add, hdigest]
  rw [filter_range_ne (Nat.mod_lt _ hpos), family, List.eraseIdx_map]
  exact mapM_eq_ok_map fun _ _ => rfl

theorem insertChild_eq_insertIdx {place : Nat} {child : Bytes} {siblings : List Bytes}
    (hplace : place ≤ siblings.length) :
    insertChild place child siblings = siblings.insertIdx place child := by
  induction siblings generalizing place with
  | nil =>
    obtain rfl : place = 0 := Nat.le_zero.1 hplace
    rfl
  | cons d siblings ih =>
    cases place with
    | zero => rfl
    | succ place => exact congrArg (d :: ·) (ih (Nat.le_of_succ_le_succ hplace))

/-- A digest put back among its siblings makes its family. -/
theorem insertChild_eq_family (hposition : position < level.length) :
    insertChild (position % a.size) level[position]
        ((family a level (position / a.size)).eraseIdx (position % a.size)) =
      family a level (position / a.size) := by
  have hmod := Nat.mod_lt position a.size_pos
  have hplace : position % a.size < (family a level (position / a.size)).length := by
    rwa [length_family]
  have hget := getElem?_family level (position / a.size) hmod
  rw [Nat.div_add_mod', List.getD_eq_getElem?_getD, List.getElem?_eq_getElem hposition,
    List.getElem?_eq_getElem hplace, Option.some.injEq, Option.getD_some] at hget
  have hle : position % a.size ≤
      ((family a level (position / a.size)).eraseIdx (position % a.size)).length := by
    rw [List.length_eraseIdx_of_lt hplace]
    omega
  rw [insertChild_eq_insertIdx hle, ← hget, List.insertIdx_eraseIdx_getElem hplace]

theorem exists_levelsFrom_eq_cons (h : HashName) (a : Arity) (level : List Bytes) :
    ∃ above, levelsFrom h a level = level :: above := by
  rw [levelsFrom]
  split
  · exact ⟨_, rfl⟩
  · exact ⟨_, rfl⟩

/-- Every position of a level has a path through the levels above it, of the length that the size of
the level asks for, and climbing it leads to the last digest. -/
theorem exists_climb (h : HashName) (a : Arity) {level : List Bytes} {position : Nat}
    (hposition : position < level.length) :
    ∃ path root, MerkleTree.pathThrough a (levelsFrom h a level) position = .ok path ∧
      path.length = levelCount a.size level.length ∧
      ((levelsFrom h a level).getLast?).bind List.head? = some root ∧
      climb? h a level[position] position path = some (root, 0) := by
  have ha := a.two_le_size
  fun_induction levelsFrom h a level generalizing position with
  | case1 level hmore ih =>
    have habove := getElem?_parents (h := h) (a := a) hposition
    obtain ⟨hlt, hnode⟩ := List.getElem?_eq_some_iff.1 habove
    obtain ⟨path, root, hpath, hlen, hroot, hclimb⟩ := ih hlt
    obtain ⟨above, hlevels⟩ := exists_levelsFrom_eq_cons h a (parents h a level)
    rw [hlevels] at hpath hroot ⊢
    refine ⟨(family a level (position / a.size)).eraseIdx (position % a.size) :: path, root,
      ?_, ?_, ?_, ?_⟩
    · rw [MerkleTree.pathThrough, siblings_eq_ok, ok_bind, ← Int.natCast_ediv, hpath]
      rfl
    · rw [List.length_cons, hlen, length_parents, levelCount.eq_def a.size level.length,
        dif_pos ⟨hmore, ha⟩]
    · rw [List.getLast?_cons_cons]
      exact hroot
    · have hsiblings : ((family a level (position / a.size)).eraseIdx (position % a.size)).length =
          a.size - 1 := by
        have hplace : position % a.size < a.size := Nat.mod_lt _ a.size_pos
        rw [List.length_eraseIdx_of_lt (by rwa [length_family]), length_family]
      rw [climb?, if_pos hsiblings, ← Int.natCast_emod, Int.toNat_natCast, ← Int.natCast_ediv,
        insertChild_eq_family hposition]
      rw [hnode] at hclimb
      exact hclimb
  | case2 level hone =>
    have hzero : position = 0 := by omega
    subst hzero
    refine ⟨[], level[0], rfl, ?_, ?_, rfl⟩
    · rw [levelCount.eq_def, dif_neg (fun h => hone h.1)]
      rfl
    · rw [List.getLast?_singleton, Option.bind_some, List.head?_eq_getElem?,
        List.getElem?_eq_getElem hposition]

end Merkle

namespace MerkleTree

theorem levels_ofLeaves (h : HashName) (a : Arity) {leaves : List Bytes} (hleaves : leaves ≠ []) :
    (ofLeaves h a leaves).levels = Merkle.levelsFrom h a (leaves.map (Merkle.hashLeaf h)) :=
  if_neg (by simpa using hleaves)

theorem root_ofLeaves (h : HashName) (a : Arity) (leaves : List Bytes) :
    (ofLeaves h a leaves).root = (((Merkle.levelsFrom h a
      (leaves.map (Merkle.hashLeaf h))).getLast?).bind List.head?).getD Merkle.zeroDigest := by
  cases leaves with
  | nil =>
    rw [List.map_nil, Merkle.levelsFrom]
    rfl
  | cons => rfl

/-- Each leaf of a tree opens with a path that passes verification against the root. -/
theorem exists_opening (h : HashName) (a : Arity) {leaves : List Bytes} {index : Nat} {leaf : Bytes}
    (hleaf : leaves[index]? = some leaf) :
    ∃ path, (ofLeaves h a leaves).opening index = .ok (leaf, path) ∧
      path.length = Merkle.pathLength a leaves.length ∧
      Merkle.verify h a (ofLeaves h a leaves).root path index leaf = true := by
  obtain ⟨hindex, rfl⟩ := List.getElem?_eq_some_iff.1 hleaf
  have hleaves : leaves ≠ [] := List.ne_nil_of_length_pos (Nat.zero_lt_of_lt hindex)
  have hdigest : index < (leaves.map (Merkle.hashLeaf h)).length := by simpa using hindex
  obtain ⟨path, root, hpath, hlen, hroot, hclimb⟩ := Merkle.exists_climb h a hdigest
  refine ⟨path, ?_, ?_, ?_⟩
  · have hthrough : (ofLeaves h a leaves).path index = .ok path := by
      rw [MerkleTree.path, levels_ofLeaves h a hleaves]
      exact hpath
    have hstored : (ofLeaves h a leaves).leaves = some leaves := rfl
    rw [opening, hstored]
    simp only [if_pos (Int.natCast_nonneg index), Int.toNat_natCast,
      List.getElem?_eq_getElem hindex, hthrough]
    rfl
  · rw [hlen, List.length_map, Merkle.pathLength]
  · rw [List.getElem_map] at hclimb
    rw [Merkle.verify, hclimb, root_ofLeaves, hroot]
    simp

end MerkleTree

end CircuitReceipts
