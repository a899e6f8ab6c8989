import CircuitReceipts.Proofs.Merkle.Binding
import CircuitReceipts.Proofs.Merkle.Levels

/-!
# What the root of a tree commits to

The root of a tree stands for the list of its leaves, their number included, unless the byte strings
that are hashed when the tree is built break the hash function: two different ones have the same
digest, or one has the zero digest. Two trees are compared from their roots down. A node has one
preimage, and since all children are as wide as digests they can be read off it one by one; a zero
digest among them is there to fill up the level, for nothing that was hashed has it. So one round of
the construction can be undone, and by induction all rounds that two trees share. If one of them had
more rounds, the leaves of the other would have the digests of nodes, which are hashed under another
tag.
-/

namespace CircuitReceipts

namespace HashName

variable {h : HashName} {inputs : List Bytes} {x y d : Bytes}

/-- Byte strings that break a hash function: two different ones have the same digest, or one has
the digest that fills up short levels. -/
def Breaks (h : HashName) (inputs : List Bytes) : Prop :=
  h.Collides inputs ∨ ∃ x ∈ inputs, h.digest x = Merkle.zeroDigest

theorem eq_of_not_breaks (hsafe : ¬h.Breaks inputs) (hx : x ∈ inputs) (hy : y ∈ inputs)
    (hdigest : h.digest x = h.digest y) : x = y :=
  (eq_or_collides hx hy hdigest).resolve_right fun hcollides => hsafe (.inl hcollides)

theorem ne_zero_of_not_breaks (hsafe : ¬h.Breaks inputs) (hd : d ∈ inputs.map h.digest) :
    d ≠ Merkle.zeroDigest := by
  rintro rfl
  obtain ⟨x, hx, hzero⟩ := List.mem_map.1 hd
  exact hsafe (.inr ⟨x, hx, hzero⟩)

end HashName

namespace Merkle

variable {h : HashName} {a : Arity} {inputs level other children : List Bytes} {node position : Nat}
  {d : Bytes}

/-- The preimages of the nodes above a level. -/
def nodePreimages (a : Arity) (level : List Bytes) : List Bytes :=
  (families a level).map nodePreimage

/-- The preimages of all nodes of a tree that is built on top of a level. -/
def raised (h : HashName) (a : Arity) (level : List Bytes) : List Bytes :=
  (levelsFrom h a level).dropLast.flatMap (nodePreimages a)

/-- All that is hashed when a tree is built over leaves. -/
def built (h : HashName) (a : Arity) (leaves : List Bytes) : List Bytes :=
  leaves.map leafPreimage ++ raised h a (leaves.map (hashLeaf h))

theorem parents_eq_map (h : HashName) (a : Arity) (level : List Bytes) :
    parents h a level = (nodePreimages a level).map h.digest := by
  rw [nodePreimages, List.map_map]
  rfl

theorem hashLeaves_eq_map (h : HashName) (leaves : List Bytes) :
    leaves.map (hashLeaf h) = (leaves.map leafPreimage).map h.digest := by
  rw [List.map_map]
  rfl

theorem raised_of_one_lt (hmore : 1 < level.length) :
    raised h a level = nodePreimages a level ++ raised h a (parents h a level) := by
  obtain ⟨above, hlevels⟩ := exists_levelsFrom_eq_cons h a (parents h a level)
  rw [raised, raised, levelsFrom, dif_pos hmore, hlevels, List.dropLast_cons_cons,
    List.flatMap_cons]

theorem raised_of_le_one (hone : level.length ≤ 1) : raised h a level = [] := by
  rw [raised, levelsFrom, dif_neg (Nat.not_lt.2 hone)]
  rfl

/-- A level and the levels above it hold its own digests and those of the nodes hashed above it. -/
theorem flatten_levelsFrom (h : HashName) (a : Arity) (level : List Bytes) :
    (levelsFrom h a level).flatten = level ++ (raised h a level).map h.digest := by
  fun_induction levelsFrom h a level with
  | case1 level hmore ih =>
    rw [List.flatten_cons, ih, raised_of_one_lt hmore, List.map_append, ← parents_eq_map]
  | case2 level hone =>
    rw [raised_of_le_one (Nat.not_lt.1 hone), List.map_nil, List.flatten_singleton,
      List.append_nil]

theorem flatten_levels (h : HashName) (a : Arity) (leaves : List Bytes) :
    (levelsFrom h a (leaves.map (hashLeaf h))).flatten = (built h a leaves).map h.digest := by
  rw [flatten_levelsFrom, hashLeaves_eq_map, built, List.map_append, hashLeaves_eq_map]

/-- Round by round, what is hashed to build a tree holds the nodes above the level that the round
starts from. -/
theorem nodePreimages_subset {leaves : List Bytes} (hbuilt : built h a leaves ⊆ inputs) {k : Nat}
    (hk : k < Nat.clog a.size leaves.length) :
    nodePreimages a ((parents h a)^[k] (leaves.map (hashLeaf h))) ⊆ inputs := by
  intro x hx
  refine hbuilt (List.mem_append_right _ ?_)
  rw [raised, levelsFrom_eq_map_iterate, List.length_map, List.range_succ, List.map_append,
    List.map_singleton, List.dropLast_concat, List.flatMap_map]
  exact List.mem_flatMap.2 ⟨k, List.mem_range.2 hk, hx⟩

theorem wide_of_subset (hlevel : level ⊆ inputs.map h.digest) : Wide level := by
  intro d hd
  obtain ⟨x, -, rfl⟩ := List.mem_map.1 (hlevel hd)
  exact HashName.length_digest h x

theorem nodePreimage_family_mem (hnode : node * a.size < level.length) :
    nodePreimage (family a level node) ∈ nodePreimages a level :=
  List.mem_map_of_mem (List.mem_of_getElem? (getElem?_families hnode))

theorem children_eq (hlength : children.length = other.length) (hwide : Wide children)
    (hother : Wide other) (heq : nodePreimage children = nodePreimage other) :
    children = other := by
  refine List.eq_iff_flatten_eq.2 ⟨List.tail_eq_of_cons_eq heq, ?_⟩
  rw [List.map_congr_left hwide, List.map_congr_left hother, List.map_const', List.map_const',
    hlength]

/-- Where every node has one preimage, the children of a node above a level are its family. -/
theorem eq_family_of_parent (hsafe : ¬h.Breaks inputs) (hlevel : level ⊆ inputs.map h.digest)
    (hnodes : nodePreimages a level ⊆ inputs) (hchildren : nodePreimage children ∈ inputs)
    (hlength : children.length = a.size) (hwide : Wide children)
    (hparent : (parents h a level)[node]? = some (hashNode h children)) :
    children = family a level node := by
  have hpos := a.size_pos
  have hnode : node * a.size < level.length := by
    obtain ⟨hlt, -⟩ := List.getElem?_eq_some_iff.1 hparent
    rw [length_parents, Nat.lt_iff_add_one_le, Nat.le_div_iff_mul_le hpos, Nat.add_mul] at hlt
    omega
  rw [parents, List.getElem?_map, getElem?_families hnode, Option.map_some, Option.some.injEq]
    at hparent
  have hpreimage := HashName.eq_of_not_breaks hsafe (hnodes (nodePreimage_family_mem hnode))
    hchildren hparent
  exact children_eq (by rw [hlength, length_family]) hwide ((wide_of_subset hlevel).family a node)
    hpreimage.symm

/-- A digest of something that was hashed does not fill up a level. -/
theorem getElem?_of_getD (hsafe : ¬h.Breaks inputs) (hd : d ∈ inputs.map h.digest)
    (hget : level.getD position zeroDigest = d) : level[position]? = some d := by
  rw [List.getD_eq_getElem?_getD] at hget
  cases hplace : level[position]? with
  | none =>
    rw [hplace] at hget
    exact absurd hget.symm (HashName.ne_zero_of_not_breaks hsafe hd)
  | some c =>
    rw [hplace] at hget
    exact congrArg some hget

theorem getElem?_of_parents_eq (hsafe : ¬h.Breaks inputs) (hlevel : level ⊆ inputs.map h.digest)
    (hother : other ⊆ inputs.map h.digest) (hnodes : nodePreimages a level ⊆ inputs)
    (hnodes' : nodePreimages a other ⊆ inputs) (heq : parents h a level = parents h a other)
    (hd : level[position]? = some d) : other[position]? = some d := by
  obtain ⟨hposition, -⟩ := List.getElem?_eq_some_iff.1 hd
  have hnode : position / a.size * a.size < level.length :=
    Nat.lt_of_le_of_lt (Nat.div_mul_le_self _ _) hposition
  have hparent := getElem?_parents (h := h) (a := a) hposition
  rw [heq] at hparent
  have hfamily : family a level (position / a.size) = family a other (position / a.size) :=
    eq_family_of_parent hsafe hother hnodes' (hnodes (nodePreimage_family_mem hnode))
      (length_family a level _) ((wide_of_subset hlevel).family a _) hparent
  have hplace := Nat.mod_lt position a.size_pos
  have hget := getElem?_family level (position / a.size) hplace
  rw [hfamily, getElem?_family _ _ hplace, Nat.div_add_mod', Option.some.injEq] at hget
  refine getElem?_of_getD hsafe (hlevel (List.mem_of_getElem? hd)) ?_
  rw [hget, List.getD_eq_getElem?_getD, hd]
  rfl

/-- A round of the construction can be undone. -/
theorem eq_of_parents_eq (hsafe : ¬h.Breaks inputs) (hlevel : level ⊆ inputs.map h.digest)
    (hother : other ⊆ inputs.map h.digest) (hnodes : nodePreimages a level ⊆ inputs)
    (hnodes' : nodePreimages a other ⊆ inputs) (heq : parents h a level = parents h a other) :
    level = other := by
  refine List.ext_getElem? fun position => ?_
  cases hd : level[position]? with
  | some d => rw [getElem?_of_parents_eq hsafe hlevel hother hnodes hnodes' heq hd]
  | none =>
    -- both levels may end here, or the other one goes on and is carried back
    cases hc : other[position]? with
    | none => rfl
    | some c =>
      have hback := getElem?_of_parents_eq hsafe hother hlevel hnodes' hnodes heq.symm hc
      rw [hback] at hd
      cases hd

theorem eq_of_iterate_eq (hsafe : ¬h.Breaks inputs) (k : Nat)
    (hlevel : level ⊆ inputs.map h.digest) (hother : other ⊆ inputs.map h.digest)
    (hnodes : ∀ i < k, nodePreimages a ((parents h a)^[i] level) ⊆ inputs)
    (hnodes' : ∀ i < k, nodePreimages a ((parents h a)^[i] other) ⊆ inputs)
    (heq : (parents h a)^[k] level = (parents h a)^[k] other) : level = other := by
  induction k generalizing level other with
  | zero => exact heq
  | succ k ih =>
    have hfirst : nodePreimages a level ⊆ inputs := hnodes 0 (Nat.succ_pos k)
    have hfirst' : nodePreimages a other ⊆ inputs := hnodes' 0 (Nat.succ_pos k)
    have hparents : parents h a level = parents h a other := by
      refine ih ?_ ?_ (fun i hi => hnodes (i + 1) (Nat.succ_lt_succ hi))
        (fun i hi => hnodes' (i + 1) (Nat.succ_lt_succ hi)) heq
      · rw [parents_eq_map]
        exact List.map_subset _ hfirst
      · rw [parents_eq_map]
        exact List.map_subset _ hfirst'
    exact eq_of_parents_eq hsafe hlevel hother hfirst hfirst' hparents

theorem iterate_parents_ne_nil (hlevel : level ≠ []) (k : Nat) :
    (parents h a)^[k] level ≠ [] := by
  induction k generalizing level with
  | zero => exact hlevel
  | succ k ih =>
    refine ih (List.ne_nil_of_length_pos ?_)
    have hpos := List.length_pos_iff.2 hlevel
    rw [length_parents]
    exact Nat.div_pos (by omega) a.size_pos

theorem iterate_clog_eq_root {leaves : List Bytes} (hleaves : leaves ≠ []) :
    (parents h a)^[Nat.clog a.size leaves.length] (leaves.map (hashLeaf h)) =
      [(MerkleTree.ofLeaves h a leaves).root] := by
  have hlevel : leaves.map (hashLeaf h) ≠ [] := by simpa using hleaves
  rw [MerkleTree.root_ofLeaves, levelsFrom_eq_map_iterate, List.length_map, List.range_succ,
    List.map_append, List.map_singleton, List.getLast?_concat, Option.bind_some]
  have hmost := one_lt_length_iterate_iff h a (leaves.map (hashLeaf h))
    (Nat.clog a.size leaves.length)
  rw [List.length_map, iff_false_right (Nat.lt_irrefl _), Nat.not_lt] at hmost
  have hleast := iterate_parents_ne_nil (h := h) (a := a) hlevel (Nat.clog a.size leaves.length)
  generalize (parents h a)^[Nat.clog a.size leaves.length] (leaves.map (hashLeaf h)) = top at *
  match top with
  | [] => exact absurd rfl hleast
  | [root] => rfl
  | _ :: _ :: _ => simp at hmost

theorem leafPreimage_ne_nodePreimage (leaf : Bytes) (children : List Bytes) :
    leafPreimage leaf ≠ nodePreimage children := by
  simp [leafPreimage, nodePreimage]

theorem leaf_eq_of_digest {leaf leaf' : Bytes} (hsafe : ¬h.Breaks inputs)
    (hleaf : leafPreimage leaf ∈ inputs) (hleaf' : leafPreimage leaf' ∈ inputs)
    (hdigest : hashLeaf h leaf = hashLeaf h leaf') : leaf = leaf' :=
  List.tail_eq_of_cons_eq (HashName.eq_of_not_breaks hsafe hleaf hleaf' hdigest)

theorem leaves_eq_of_hashLeaves_eq {xs ys : List Bytes} (hsafe : ¬h.Breaks inputs)
    (hxs : xs.map leafPreimage ⊆ inputs) (hys : ys.map leafPreimage ⊆ inputs)
    (heq : xs.map (hashLeaf h) = ys.map (hashLeaf h)) : xs = ys := by
  induction xs generalizing ys with
  | nil => simpa using heq.symm
  | cons x xs ih =>
    cases ys with
    | nil => simp at heq
    | cons y ys =>
      rw [List.map_cons, List.map_cons, List.cons.injEq] at heq
      rw [List.map_cons, List.cons_subset] at hxs hys
      rw [leaf_eq_of_digest hsafe hxs.1 hys.1 heq.1, ih hxs.2 hys.2 heq.2]

/-- What comes of a list of leaves round by round are digests of what is hashed for it. -/
theorem iterate_subset {leaves : List Bytes} (hbuilt : built h a leaves ⊆ inputs) {k : Nat}
    (hk : k ≤ Nat.clog a.size leaves.length) :
    (parents h a)^[k] (leaves.map (hashLeaf h)) ⊆ inputs.map h.digest := by
  have hmem : (parents h a)^[k] (leaves.map (hashLeaf h)) ∈
      levelsFrom h a (leaves.map (hashLeaf h)) := by
    rw [levelsFrom_eq_map_iterate, List.length_map]
    exact List.mem_map_of_mem (List.mem_range.2 (Nat.lt_succ_of_le hk))
  intro d hd
  have hflat := List.mem_flatten_of_mem hmem hd
  rw [flatten_levels] at hflat
  exact List.map_subset _ hbuilt hflat

/-- Lists of leaves with one root, the second of which asks for at least as many rounds, are
equal. -/
theorem leaves_eq_of_root_eq {xs ys : List Bytes} (hsafe : ¬h.Breaks inputs) (hxs : xs ≠ [])
    (hys : ys ≠ []) (hbuilt : built h a xs ⊆ inputs) (hbuilt' : built h a ys ⊆ inputs)
    (hrounds : Nat.clog a.size xs.length ≤ Nat.clog a.size ys.length)
    (hroot : (MerkleTree.ofLeaves h a xs).root = (MerkleTree.ofLeaves h a ys).root) : xs = ys := by
  have hleaves := (List.append_subset.1 hbuilt).1
  obtain ⟨extra, hextra⟩ := Nat.exists_eq_add_of_le hrounds
  have htops : (parents h a)^[Nat.clog a.size xs.length] (xs.map (hashLeaf h)) =
      (parents h a)^[Nat.clog a.size xs.length]
        ((parents h a)^[extra] (ys.map (hashLeaf h))) := by
    rw [← Function.iterate_add_apply, ← hextra, iterate_clog_eq_root hxs, iterate_clog_eq_root hys,
      hroot]
  have hbase : xs.map (hashLeaf h) = (parents h a)^[extra] (ys.map (hashLeaf h)) := by
    refine eq_of_iterate_eq hsafe _ (iterate_subset hbuilt (Nat.zero_le _))
      (iterate_subset hbuilt' (by omega)) (fun i hi => nodePreimages_subset hbuilt hi)
      (fun i hi => ?_) htops
    rw [← Function.iterate_add_apply]
    exact nodePreimages_subset hbuilt' (by omega)
  cases extra with
  | zero =>
    exact leaves_eq_of_hashLeaves_eq hsafe hleaves (List.append_subset.1 hbuilt').1 hbase
  | succ extra =>
    -- a leaf of the tree with fewer rounds has the digest of a node of the other
    obtain ⟨leaf, hleaf⟩ := List.exists_mem_of_ne_nil xs hxs
    have hdigest := List.mem_map_of_mem (f := hashLeaf h) hleaf
    rw [hbase, Function.iterate_succ_apply', parents_eq_map] at hdigest
    obtain ⟨x, hx, hsame⟩ := List.mem_map.1 hdigest
    have hnode : x ∈ inputs := nodePreimages_subset hbuilt' (by omega) hx
    have hpreimage := HashName.eq_of_not_breaks hsafe hnode (hleaves (List.mem_map_of_mem hleaf))
      hsame
    obtain ⟨children, -, rfl⟩ := List.mem_map.1 hx
    exact absurd hpreimage.symm (leafPreimage_ne_nodePreimage leaf children)

theorem root_mem {leaves : List Bytes} (hleaves : leaves ≠ [])
    (hbuilt : built h a leaves ⊆ inputs) :
    (MerkleTree.ofLeaves h a leaves).root ∈ inputs.map h.digest := by
  refine iterate_subset hbuilt (Nat.le_refl _) ?_
  rw [iterate_clog_eq_root hleaves]
  exact List.mem_singleton_self _

end Merkle

namespace MerkleTree

open Merkle in
/-- Lists of leaves of any lengths whose trees have the same root are equal, or what is hashed to
build the two trees breaks the hash function. The tree without leaves is no exception, as its root
is the zero digest. -/
theorem leaves_eq_or_breaks {h : HashName} {a : Arity} {xs ys : List Bytes}
    (hroot : (ofLeaves h a xs).root = (ofLeaves h a ys).root) :
    xs = ys ∨ h.Breaks (built h a xs ++ built h a ys) := by
  refine or_iff_not_imp_right.2 fun hsafe => ?_
  have hbuilt := List.subset_append_left (built h a xs) (built h a ys)
  have hbuilt' := List.subset_append_right (built h a xs) (built h a ys)
  by_cases hxs : xs = []
  · subst hxs
    by_contra hys
    exact HashName.ne_zero_of_not_breaks hsafe (root_mem (Ne.symm hys) hbuilt') hroot.symm
  by_cases hys : ys = []
  · subst hys
    exact absurd hroot (HashName.ne_zero_of_not_breaks hsafe (root_mem hxs hbuilt))
  rcases Nat.le_total (Nat.clog a.size xs.length) (Nat.clog a.size ys.length) with hle | hle
  · exact leaves_eq_of_root_eq hsafe hxs hys hbuilt hbuilt' hle hroot
  · exact (leaves_eq_of_root_eq hsafe hys hxs hbuilt' hbuilt hle hroot.symm).symm

open Merkle in
/-- Three leaves, below which a level is filled up, put together in two ways. -/
theorem leaves_eq_or_breaks_three :
    (ofLeaves .sha256 .two ([[0], [1]] ++ [[2]])).root =
      (ofLeaves .sha256 .two ([[0]] ++ [[1], [2]])).root ∧
    (([[0], [1]] ++ [[2]] : List Bytes) = [[0]] ++ [[1], [2]] ∨
      HashName.sha256.Breaks
        (built .sha256 .two ([[0], [1]] ++ [[2]]) ++ built .sha256 .two ([[0]] ++ [[1], [2]]))) :=
  ⟨rfl, leaves_eq_or_breaks rfl⟩

end MerkleTree

end CircuitReceipts
