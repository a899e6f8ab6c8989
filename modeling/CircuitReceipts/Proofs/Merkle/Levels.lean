import CircuitReceipts.Proofs.Merkle
import Mathlib.Data.Nat.Log

/-!
# The levels of a Merkle tree

A tree is built in rounds, each of which puts the parents of a level on top of it, until a level has
no more than one digest. The number of rounds is the logarithm of the number of leaves to the base
of the arity, rounded up, and a path has a level for each round. Where the number of leaves is no
power of the arity, levels are filled up with zero digests, which are as wide as the others; so all
siblings on a path have the width of a digest.
-/

namespace CircuitReceipts

namespace Merkle

variable {h : HashName} {a : Arity} {level : List Bytes}

theorem pathLength_eq_clog (a : Arity) (n : Nat) : pathLength a n = Nat.clog a.size n := by
  have ha := a.two_le_size
  rw [pathLength]
  induction n using Nat.strong_induction_on with
  | _ n ih =>
  by_cases hn : 1 < n
  · have hlt : (n + a.size - 1) / a.size < n := by
      have hlevel : 1 < (List.replicate n ([] : Bytes)).length := by simpa using hn
      simpa using length_parents_lt .sha256 a hlevel
    rw [levelCount.eq_def, dif_pos ⟨hn, ha⟩, ih _ hlt, Nat.clog_of_one_lt ha hn]
  · rw [levelCount.eq_def, dif_neg fun h => hn h.1, Nat.clog_of_right_le_one (Nat.not_lt.1 hn)]

theorem pathLengthOf_size (a : Arity) (n : Int) :
    pathLengthOf n a.size = .ok (Nat.clog a.size n.toNat) := by
  have ha := a.two_le_size
  rw [pathLengthOf]
  split
  · next hn => rw [Nat.clog_of_right_le_one (by omega)]
  · rw [if_neg (by omega), if_neg (by omega), if_neg (by omega), Int.toNat_natCast,
      ← pathLength_eq_clog, pathLength]

/-- A level has more than one digest just as long as the logarithm of its length asks for another
round. -/
theorem one_lt_length_iterate_iff (h : HashName) (a : Arity) (level : List Bytes) (k : Nat) :
    1 < ((parents h a)^[k] level).length ↔ k < Nat.clog a.size level.length := by
  have ha := a.two_le_size
  induction k generalizing level with
  | zero =>
    refine ⟨fun hlevel => Nat.clog_pos ha hlevel, fun hpos => ?_⟩
    by_contra hlevel
    have hzero := Nat.clog_of_right_le_one (Nat.not_lt.1 hlevel) a.size
    exact Nat.ne_of_gt hpos hzero
  | succ k ih =>
    rw [Function.iterate_succ_apply]
    refine (ih (parents h a level)).trans ?_
    rw [length_parents]
    by_cases hlevel : 1 < level.length
    · rw [Nat.clog_of_one_lt ha hlevel, Nat.add_lt_add_iff_right]
    · -- a round leaves no digest, or one, as it was
      have hgroups : (level.length + a.size - 1) / a.size ≤ 1 := by
        rw [Nat.div_le_iff_le_mul_add_pred (by omega)]
        omega
      rw [Nat.clog_of_right_le_one hgroups, Nat.clog_of_right_le_one (Nat.not_lt.1 hlevel)]
      exact iff_of_false (Nat.not_lt_zero _) (Nat.not_lt_zero _)

/-- The levels above a level, it included, are what comes of it round by round. -/
theorem levelsFrom_eq_map_iterate (h : HashName) (a : Arity) (level : List Bytes) :
    levelsFrom h a level =
      (List.range (Nat.clog a.size level.length + 1)).map fun k => (parents h a)^[k] level := by
  fun_induction levelsFrom h a level with
  | case1 level hmore ih =>
    rw [ih, length_parents, Nat.clog_of_one_lt a.two_le_size hmore,
      List.range_succ_eq_map (n := _ + 1), List.map_cons, List.map_map]
    rfl
  | case2 level hone =>
    rw [Nat.clog_of_right_le_one (Nat.not_lt.1 hone)]
    rfl

def Wide (level : List Bytes) : Prop :=
  ∀ d ∈ level, d.length = 32

theorem wide_hashLeaves (h : HashName) (leaves : List Bytes) : Wide (leaves.map (hashLeaf h)) := by
  simp [Wide, hashLeaf]

theorem wide_parents (h : HashName) (a : Arity) (level : List Bytes) :
    Wide (parents h a level) := by
  simp [Wide, parents, hashNode]

theorem Wide.family (hwide : Wide level) (a : Arity) (node : Nat) :
    Wide (family a level node) := by
  intro d hd
  obtain ⟨i, -, rfl⟩ := List.mem_map.1 hd
  rw [List.getD_eq_getElem?_getD]
  cases hget : level[node * a.size + i]? with
  | none => rfl
  | some d => exact hwide d (List.mem_of_getElem? hget)

theorem Wide.levelsFrom (hwide : Wide level) (h : HashName) (a : Arity) :
    ∀ next ∈ levelsFrom h a level, Wide next := by
  fun_induction Merkle.levelsFrom h a level with
  | case1 level hmore ih => exact List.forall_mem_cons.2 ⟨hwide, ih (wide_parents h a level)⟩
  | case2 level hone => exact List.forall_mem_cons.2 ⟨hwide, by simp⟩

/-- Whether there are as many siblings as a node on the way leaves, each as wide as a digest. -/
def Fits (a : Arity) (siblings : List Bytes) : Prop :=
  siblings.length = a.size - 1 ∧ Wide siblings

/-- The rest of a family of wide digests. -/
theorem Wide.fits (hwide : Wide level) (a : Arity) (position : Nat) :
    Fits a ((Merkle.family a level (position / a.size)).eraseIdx (position % a.size)) := by
  have hplace : position % a.size < a.size := Nat.mod_lt _ a.size_pos
  refine ⟨?_, fun d hd => hwide.family a _ d (List.mem_of_mem_eraseIdx hd)⟩
  rw [List.length_eraseIdx_of_lt (by rwa [length_family]), length_family]

/-- On a path through wide levels all siblings fit. -/
theorem fits_of_pathThrough {levels : List (List Bytes)} (hwide : ∀ level ∈ levels, Wide level)
    {position : Nat} {path : List (List Bytes)}
    (hpath : MerkleTree.pathThrough a levels position = .ok path) :
    ∀ siblings ∈ path, Fits a siblings := by
  induction levels generalizing position path with
  | nil =>
    cases hpath
    exact fun _ hmem => absurd hmem List.not_mem_nil
  | cons level rest ih =>
    cases rest with
    | nil =>
      cases hpath
      exact fun _ hmem => absurd hmem List.not_mem_nil
    | cons next rest =>
      rw [MerkleTree.pathThrough, siblings_eq_ok, ok_bind, ← Int.natCast_ediv, bind_eq_ok]
        at hpath
      obtain ⟨above, habove, hpath⟩ := hpath
      cases hpath
      rw [List.forall_mem_cons] at hwide
      exact List.forall_mem_cons.2 ⟨hwide.1.fits a position, ih hwide.2 habove⟩

end Merkle

namespace MerkleTree

open Merkle in
/-- Trees of every size open all their leaves. The opening of a leaf is the leaf with a path of the
length that the number of leaves asks for, of siblings that fit, and it passes verification. The
tree is built in as many rounds as a path has levels, which is when one digest is left; and the
length of a path is found for every number of leaves. -/
theorem opens_every_leaf (h : HashName) (a : Arity) {leaves : List Bytes} {index : Nat}
    (hindex : index < leaves.length) :
    (∃ path, (ofLeaves h a leaves).opening index = .ok (leaves[index], path) ∧
      pathLengthOf leaves.length a.size = .ok path.length ∧
      (∀ siblings ∈ path, siblings.length = a.size - 1 ∧ ∀ d ∈ siblings, d.length = 32) ∧
      verify h a (ofLeaves h a leaves).root path index leaves[index] = true) ∧
    (ofLeaves h a leaves).levels =
      (List.range (Nat.clog a.size leaves.length + 1)).map
        (fun k => (parents h a)^[k] (leaves.map (hashLeaf h))) ∧
    (∀ k, 1 < ((parents h a)^[k] (leaves.map (hashLeaf h))).length ↔
      k < Nat.clog a.size leaves.length) ∧
    ∀ n : Int, pathLengthOf n a.size = .ok (Nat.clog a.size n.toNat) := by
  have hlevels : (ofLeaves h a leaves).levels = levelsFrom h a (leaves.map (hashLeaf h)) :=
    if_neg fun hempty => by simp [List.isEmpty_iff.1 hempty] at hindex
  have hwide := (wide_hashLeaves h leaves).levelsFrom h a
  have hleaf : leaves[index]? = some leaves[index] := List.getElem?_eq_getElem hindex
  obtain ⟨path, hopening, hlength, hverify⟩ := exists_opening h a hleaf
  have hpath : pathThrough a (levelsFrom h a (leaves.map (hashLeaf h))) index = .ok path := by
    rw [opening, show (ofLeaves h a leaves).leaves = some leaves from rfl] at hopening
    simp only [if_pos (Int.natCast_nonneg index), Int.toNat_natCast, hleaf, bind_eq_ok,
      mapError_eq_ok, pure_eq_ok, Prod.mk.injEq, true_and] at hopening
    obtain ⟨p, hp, rfl⟩ := hopening
    rwa [MerkleTree.path, hlevels] at hp
  have hcount : pathLengthOf leaves.length a.size = .ok path.length := by
    rw [pathLengthOf_size, Int.toNat_natCast, hlength, pathLength_eq_clog]
  refine ⟨⟨path, hopening, hcount, fits_of_pathThrough hwide hpath, hverify⟩, ?_, fun k => ?_,
    pathLengthOf_size a⟩
  · rw [hlevels, levelsFrom_eq_map_iterate, List.length_map]
  · rw [one_lt_length_iterate_iff, List.length_map]

/-- The last of five leaves, which stands alone below a node with three zero digests. -/
theorem opens_every_leaf_five :
    4 < [[0], [1], [2], [3], ([4] : Bytes)].length ∧
      ∃ path, (ofLeaves .blake2s .four [[0], [1], [2], [3], [4]]).opening 4 = .ok ([4], path) ∧
        path.length = 2 ∧
        (∀ siblings ∈ path, siblings.length = 3 ∧ ∀ d ∈ siblings, d.length = 32) ∧
        Merkle.verify .blake2s .four (ofLeaves .blake2s .four [[0], [1], [2], [3], [4]]).root
          path 4 [4] = true := by
  have hindex : 4 < [[0], [1], [2], [3], ([4] : Bytes)].length := by decide
  obtain ⟨⟨path, hopening, hcount, hfits, hverify⟩, -⟩ := opens_every_leaf .blake2s .four hindex
  have htwo : Merkle.pathLengthOf 5 4 = .ok 2 := Merkle.pathLengthOf_size .four 5
  exact ⟨hindex, path, hopening, Except.ok.inj (hcount.symm.trans htwo), hfits, hverify⟩

end MerkleTree

end CircuitReceipts
