import CircuitReceipts.Digest
import CircuitReceipts.Misuse

/-!
# Merkle trees

A list of leaves is committed to by a tree of digests with two or four children to a node. Leaves
and nodes are hashed under different tags, and a level whose length is no multiple of the arity is
filled up with zero digests. A path holds, for each level below the root, the digests of the other
children of the node on the way.
-/

namespace CircuitReceipts

/-- The number of children of a node. -/
inductive Arity where
  | two
  | four
deriving DecidableEq, Inhabited

namespace Arity

def size : Arity → Nat
  | two => 2
  | four => 4

def ofInt? (n : Int) : Option Arity :=
  if n = 2 then some two else if n = 4 then some four else none

/-- The text that refuses a number of children other than two and four. -/
def refusal (n : Int) : Text :=
  "arity must be 2 or 4, got " ++ Numeral.decimal n

theorem two_le_size (a : Arity) : 2 ≤ a.size := by
  cases a <;> decide

theorem eq_size_of_ofInt? {n : Int} {a : Arity} (h : ofInt? n = some a) : n = a.size := by
  rw [ofInt?] at h
  split at h
  · next hn =>
    cases h
    exact hn
  split at h
  · next hn =>
    cases h
    exact hn
  · cases h

end Arity

namespace Merkle

/-- The digest that fills up a short level, and the root of a tree without leaves. -/
def zeroDigest : Bytes := List.replicate 32 0

def leafPreimage (leaf : Bytes) : Bytes := 0 :: leaf

def nodePreimage (children : List Bytes) : Bytes := 1 :: children.flatten

def hashLeaf (h : HashName) (leaf : Bytes) : Bytes :=
  h.digest (leafPreimage leaf)

def hashNode (h : HashName) (children : List Bytes) : Bytes :=
  h.digest (nodePreimage children)

/-- The children of each node above a level: the digests of the level in groups of the arity, the
last group filled up with zero digests. -/
def families (a : Arity) : List Bytes → List (List Bytes)
  | [] => []
  | d :: ds =>
    let family := (d :: ds).take a.size
    (family ++ List.replicate (a.size - family.length) zeroDigest) ::
      families a ((d :: ds).drop a.size)
termination_by level => level.length
decreasing_by
  have := a.two_le_size
  simp
  omega

def parents (h : HashName) (a : Arity) (level : List Bytes) : List Bytes :=
  (families a level).map (hashNode h)

theorem length_families (a : Arity) (level : List Bytes) :
    (families a level).length = (level.length + a.size - 1) / a.size := by
  have ha := a.two_le_size
  fun_induction families a level with
  | case1 => simp [Nat.div_eq_of_lt (show a.size - 1 < a.size by omega)]
  | case2 d ds family ih =>
    rw [List.length_cons, ih, List.length_drop]
    by_cases hl : a.size ≤ (d :: ds).length
    · rw [show (d :: ds).length + a.size - 1 = ((d :: ds).length - a.size + a.size - 1) + a.size
        by omega, Nat.add_div_right _ (by omega)]
    · rw [show (d :: ds).length - a.size + a.size - 1 = a.size - 1 by omega,
        Nat.div_eq_of_lt (by omega)]
      simp only [List.length_cons] at hl ⊢
      rw [show ds.length + 1 + a.size - 1 = ds.length + a.size by omega,
        Nat.add_div_right _ (by omega), Nat.div_eq_of_lt (by omega)]

@[simp] theorem length_parents (h : HashName) (a : Arity) (level : List Bytes) :
    (parents h a level).length = (level.length + a.size - 1) / a.size := by
  simp [parents, length_families]

theorem length_parents_lt (h : HashName) (a : Arity) {level : List Bytes}
    (hl : 1 < level.length) : (parents h a level).length < level.length := by
  have ha := a.two_le_size
  rw [length_parents, Nat.div_lt_iff_lt_mul (by omega)]
  have : level.length * 2 ≤ level.length * a.size := Nat.mul_le_mul_left _ ha
  cases a <;> simp only [Arity.size] at * <;> omega

def levelsFrom (h : HashName) (a : Arity) (level : List Bytes) : List (List Bytes) :=
  if _more : 1 < level.length then level :: levelsFrom h a (parents h a level) else [level]
termination_by level.length
decreasing_by exact length_parents_lt h a ‹_›

end Merkle

/-- A tree over leaves; before leaves are given it has none and no levels. -/
structure MerkleTree where
  hash : HashName
  arity : Arity
  leaves : Option (List Bytes)
  levels : List (List Bytes)
deriving Inhabited

/-- Why a leaf cannot be opened. -/
inductive OpenError where
  | noLeaves
  | outOfRange (index : Int) (leaves : Nat)
  | misuse (m : Misuse)
deriving DecidableEq, Inhabited

/-- The text of an opening error, where it has one. -/
def OpenError.message? : OpenError → Option Text
  | noLeaves => some "Source data not stored - cannot extract leaf values"
  | outOfRange i n =>
    some ("Query index " ++ Numeral.decimal i ++ s!" out of range [0, {n})")
  | misuse _ => none

namespace MerkleTree

def empty (h : HashName) (a : Arity) : MerkleTree :=
  ⟨h, a, none, []⟩

def ofLeaves (h : HashName) (a : Arity) (leaves : List Bytes) : MerkleTree :=
  ⟨h, a, some leaves,
    if leaves.isEmpty then [] else Merkle.levelsFrom h a (leaves.map (Merkle.hashLeaf h))⟩

def height (t : MerkleTree) : Nat :=
  (t.leaves.getD []).length

/-- The commitment: the only digest of the last level. -/
def root (t : MerkleTree) : Bytes :=
  ((t.levels.getLast?).bind List.head?).getD Merkle.zeroDigest

/-- The digest at a position of a level. Beyond the end there are zero digests; a position below
zero counts from the end, and is refused before the start. -/
def digestAt (level : List Bytes) (position : Int) : Except Misuse Bytes :=
  if 0 ≤ position then .ok (level.getD position.toNat Merkle.zeroDigest)
  else
    match level[((level.length : Int) + position).toNat]? with
    | some d => if 0 ≤ (level.length : Int) + position then .ok d else .error .outOfRange
    | none => .error .outOfRange

/-- The digests of the other children of the node above a position. -/
def siblings (a : Arity) (level : List Bytes) (position : Int) : Except Misuse (List Bytes) :=
  let own := position % a.size
  let others := (List.range a.size).filter fun (i : Nat) => (i : Int) ≠ own
  others.mapM fun (i : Nat) => digestAt level (position - own + i)

/-- The siblings on the way from a position through levels; the last level has none. -/
def pathThrough (a : Arity) : List (List Bytes) → Int → Except Misuse (List (List Bytes))
  | [], _ => .ok []
  | [_], _ => .ok []
  | level :: next :: rest, position => do
    let here ← siblings a level position
    let above ← pathThrough a (next :: rest) (position / a.size)
    return here :: above

def path (t : MerkleTree) (position : Int) : Except Misuse (List (List Bytes)) :=
  pathThrough t.arity t.levels position

/-- The leaf at an index, and its path. -/
def opening (t : MerkleTree) (index : Int) : Except OpenError (Bytes × List (List Bytes)) := do
  match t.leaves with
  | none => throw .noLeaves
  | some leaves =>
    match if 0 ≤ index then leaves[index.toNat]? else none with
    | none => throw (.outOfRange index leaves.length)
    | some leaf =>
      let p ← (t.path index).mapError .misuse
      return (leaf, p)

end MerkleTree

namespace Merkle

/-- The children of a node, given one of them, its place and the others. -/
def insertChild (place : Nat) (child : Bytes) (others : List Bytes) : List Bytes :=
  others.take place ++ child :: others.drop place

/-- The digest reached by climbing from a digest along a path, and the index that is left; none if
a level of the path has the wrong number of siblings. -/
def climb? (h : HashName) (a : Arity) (digest : Bytes) (index : Int) :
    List (List Bytes) → Option (Bytes × Int)
  | [] => some (digest, index)
  | siblings :: rest =>
    if siblings.length = a.size - 1 then
      let children := insertChild (index % a.size).toNat digest siblings
      climb? h a (hashNode h children) (index / a.size) rest
    else none

/-- Whether a path leads from a leaf at an index to a root. -/
def verify (h : HashName) (a : Arity) (root : Bytes) (path : List (List Bytes)) (index : Int)
    (leaf : Bytes) : Bool :=
  match climb? h a (hashLeaf h leaf) index path with
  | some (digest, left) => left == 0 && digest == root
  | none => false

/-- The number of levels of a path among `n` leaves, with `k` children to a node. -/
def levelCount (k n : Nat) : Nat :=
  if _more : 1 < n ∧ 2 ≤ k then levelCount k ((n + k - 1) / k) + 1 else 0
termination_by n
decreasing_by
  rw [Nat.div_lt_iff_lt_mul (by omega)]
  have : n * 2 ≤ n * k := Nat.mul_le_mul_left _ (by omega)
  have : k + k ≤ k * n := by
    have := Nat.mul_le_mul_left k (show 2 ≤ n by omega)
    omega
  have : n * k = k * n := Nat.mul_comm _ _
  rcases Nat.lt_or_ge k 3 with h | h
  · have hk : k = 2 := by omega
    subst hk
    omega
  · have : n * 3 ≤ n * k := Nat.mul_le_mul_left _ h
    omega

/-- The number of levels of a path in a tree with `n` leaves. -/
def pathLength (a : Arity) (n : Nat) : Nat :=
  levelCount a.size n

/-- The number of levels of a path for any numbers. No leaves and one leaf have none; a node with a
negative number of children ends the path, and one with a single child never does, which is
refused. -/
def pathLengthOf (n arity : Int) : Except Misuse Nat :=
  if n ≤ 1 then .ok 0
  else if arity = 0 then .error .divisionByZero
  else if arity < 0 then .ok 1
  else if arity = 1 then .error .badValue
  else .ok (levelCount arity.toNat n.toNat)

end Merkle

end CircuitReceipts
