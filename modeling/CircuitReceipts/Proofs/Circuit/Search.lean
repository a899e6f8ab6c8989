import CircuitReceipts.Proofs.Circuit.Closure
import Mathlib.Data.Finset.Card

/-!
# Searching for dependencies

The closure of some positions can also be found by a search that keeps a store of positions still to
be looked at. A position that has been found before is dropped, any other is found, and its sources
go into the store. Which position is looked at next is left open here, and the store may hold a
position several times. Each position is found once and has at most two sources, which bounds the
number of steps from any roots; and as long as the store is not empty there is a next step. When it
is empty, whatever the order has been, just the closure has been found.
-/

namespace CircuitReceipts

/-- A search: the positions still to be looked at, and those found. -/
structure Search where
  pending : Multiset Nat
  found : Finset Nat

namespace Search

def start (roots : List Nat) : Search :=
  ⟨roots, ∅⟩

/-- One step of a search looks at any of the pending positions. -/
inductive Step (code : Code) : Search → Search → Prop where
  /-- The position has been found before. -/
  | drop {pc : Nat} {rest : Multiset Nat} {found : Finset Nat} (hpc : pc ∈ found) :
    Step code ⟨pc ::ₘ rest, found⟩ ⟨rest, found⟩
  /-- The position is found, and its sources are to be looked at. -/
  | visit {pc : Nat} {rest : Multiset Nat} {found : Finset Nat} (hpc : pc ∉ found) :
    Step code ⟨pc ::ₘ rest, found⟩ ⟨rest + code.sources pc, insert pc found⟩

/-- So many steps lead from one search to another. -/
inductive Run (code : Code) : Nat → Search → Search → Prop where
  | nil (s : Search) : Run code 0 s s
  | cons {n : Nat} {s t u : Search} (first : Step code s t) (rest : Run code n t u) :
    Run code (n + 1) s u

variable {code : Code} {s t : Search} {roots : List Nat} {pc n : Nat}

/-- Whether a search has come across a position. -/
def Knows (s : Search) (pc : Nat) : Prop :=
  pc ∈ s.found ∨ pc ∈ s.pending

theorem Step.knows (hstep : Step code s t) (hpc : s.Knows pc) : t.Knows pc := by
  cases hstep with
  | drop hfound =>
    rcases hpc with hpc | hpc
    · exact .inl hpc
    · rcases Multiset.mem_cons.1 hpc with rfl | hpc
      · exact .inl hfound
      · exact .inr hpc
  | visit =>
    rcases hpc with hpc | hpc
    · exact .inl (Finset.mem_insert_of_mem hpc)
    · rcases Multiset.mem_cons.1 hpc with rfl | hpc
      · exact .inl (Finset.mem_insert_self _ _)
      · exact .inr (Multiset.mem_add.2 (.inl hpc))

/-- What holds of a search from roots after every step: it has come across the roots and the sources
of all that it found, and only across positions of the closure. -/
structure Keeps (code : Code) (roots : List Nat) (s : Search) : Prop where
  knows_roots : ∀ r ∈ roots, s.Knows r
  knows_sources : ∀ pc ∈ s.found, ∀ w ∈ code.sources pc, s.Knows w
  needed : ∀ {pc}, s.Knows pc → pc ∈ code.closure roots

theorem keeps_start (hroots : ∀ r ∈ roots, r < code.size) : Keeps code roots (start roots) where
  knows_roots r hr := .inr hr
  knows_sources pc hpc := absurd hpc (Finset.notMem_empty pc)
  needed hpc := by
    rcases hpc with hpc | hpc
    · exact absurd hpc (Finset.notMem_empty _)
    · exact Code.mem_closure_of_mem hpc (hroots _ hpc)

theorem Keeps.step (hkeeps : Keeps code roots s) (hstep : Step code s t) : Keeps code roots t := by
  have hknows {pc : Nat} (hpc : s.Knows pc) : t.Knows pc := hstep.knows hpc
  refine ⟨fun r hr => hknows (hkeeps.knows_roots r hr), ?_, ?_⟩
  · intro pc hpc w hw
    cases hstep with
    | drop => exact hknows (hkeeps.knows_sources pc hpc w hw)
    | visit =>
      rcases Finset.mem_insert.1 hpc with rfl | hpc
      · exact .inr (Multiset.mem_add.2 (.inr hw))
      · exact hknows (hkeeps.knows_sources pc hpc w hw)
  · intro pc hpc
    cases hstep with
    | drop => exact hkeeps.needed (hpc.imp_right Multiset.mem_cons_of_mem)
    | @visit looked =>
      have hlooked : looked ∈ code.closure roots :=
        hkeeps.needed (.inr (Multiset.mem_cons_self _ _))
      rcases hpc with hpc | hpc
      · rcases Finset.mem_insert.1 hpc with rfl | hpc
        · exact hlooked
        · exact hkeeps.needed (.inl hpc)
      · rcases Multiset.mem_add.1 hpc with hpc | hpc
        · exact hkeeps.needed (.inr (Multiset.mem_cons_of_mem hpc))
        · exact Code.sources_subset_closure hlooked hpc

theorem Keeps.run (hkeeps : Keeps code roots s) (hrun : Run code n s t) : Keeps code roots t := by
  induction hrun with
  | nil => exact hkeeps
  | cons first _ ih => exact ih (hkeeps.step first)

theorem length_sources_le (code : Code) (pc : Nat) : (code.sources pc).length ≤ 2 := by
  refine (List.length_filterMap_le _ _).trans ?_
  cases code[pc]? with
  | none => exact Nat.zero_le 2
  | some i =>
    rw [Option.map_some, Option.getD_some, Instruction.reads]
    split
    · exact Nat.le_refl 2
    · split <;> simp

/-- The steps that a search may still make: every pending position is looked at, and every position
that has not been found may bring two more. -/
def room (code : Code) (s : Search) : Nat :=
  s.pending.card + 2 * (Finset.range code.size \ s.found).card

theorem room_start (code : Code) (roots : List Nat) :
    (start roots).room code = roots.length + 2 * code.size := by
  simp [room, start]

theorem Step.room_lt (hstep : Step code s t) (hlt : ∀ pc ∈ s.pending, pc < code.size) :
    t.room code < s.room code := by
  cases hstep with
  | drop => simp [room]
  | @visit pc rest found hnew =>
    -- one position is no longer to be found, and the two that it may bring are pending
    have hpc : pc ∈ Finset.range code.size \ found :=
      Finset.mem_sdiff.2 ⟨Finset.mem_range.2 (hlt pc (Multiset.mem_cons_self _ _)), hnew⟩
    have hcard : (Finset.range code.size \ insert pc found).card + 1 =
        (Finset.range code.size \ found).card := by
      rw [Finset.sdiff_insert, Finset.card_erase_add_one hpc]
    have htwo := length_sources_le code pc
    simp only [room, Multiset.card_add, Multiset.coe_card, Multiset.card_cons]
    omega

theorem Keeps.run_room (hkeeps : Keeps code roots s) (hrun : Run code n s t) :
    n + t.room code ≤ s.room code := by
  induction hrun with
  | nil => exact Nat.le_of_eq (Nat.zero_add _)
  | cons first _ ih =>
    have hlt := first.room_lt fun pc hpc =>
      Code.lt_size_of_mem_closure (hkeeps.needed (.inr hpc))
    have hrest := ih (hkeeps.step first)
    omega

theorem exists_step (hpending : s.pending ≠ 0) : ∃ t, Step code s t := by
  obtain ⟨pending, found⟩ := s
  obtain ⟨pc, hpc⟩ := Multiset.exists_mem_of_ne_zero hpending
  obtain ⟨rest, rfl⟩ := Multiset.exists_cons_of_mem hpc
  by_cases hfound : pc ∈ found
  · exact ⟨_, .drop hfound⟩
  · exact ⟨_, .visit hfound⟩

theorem Keeps.found_eq (hkeeps : Keeps code roots s) (hpending : s.pending = 0) :
    pc ∈ s.found ↔ pc ∈ code.closure roots := by
  have hfound {pc : Nat} (hpc : s.Knows pc) : pc ∈ s.found :=
    hpc.resolve_right (hpending ▸ Multiset.notMem_zero pc)
  refine ⟨fun hpc => hkeeps.needed (.inl hpc), fun hpc => ?_⟩
  exact Code.closure_subset (S := (· ∈ s.found))
    (fun hw x hx => hfound (hkeeps.knows_sources _ hw x hx))
    (fun r hr => hfound (hkeeps.knows_roots r hr)) pc hpc

/-- A search from roots in whatever order: the number of its steps is bounded, it goes on while
positions are pending, and when none is it has found the closure. -/
theorem of_run (hroots : ∀ r ∈ roots, r < code.size) (hrun : Run code n (start roots) s) :
    n ≤ roots.length + 2 * code.size ∧ (s.pending ≠ 0 → ∃ t, Step code s t) ∧
      (s.pending = 0 → ∀ pc, pc ∈ s.found ↔ pc ∈ code.closure roots) := by
  have hkeeps := keeps_start hroots
  refine ⟨?_, exists_step, fun hpending pc => (hkeeps.run hrun).found_eq hpending⟩
  rw [← room_start]
  exact Nat.le_of_add_right_le (hkeeps.run_room hrun)

end Search

end CircuitReceipts
