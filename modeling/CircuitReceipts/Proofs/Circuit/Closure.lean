import CircuitReceipts.Circuit.Dataflow
import Mathlib.Data.List.Sort

/-!
# The dependency closure

`Code.closure` walks from the last position to the first and carries the positions still wanted and
those already found. What it finds contains the roots, contains with each position its sources, and
stands in increasing order.
-/

namespace CircuitReceipts

namespace Code

variable {code : Code} {pc : Nat} {wanted found roots : List Nat}

theorem mem_closureBelow_of_mem_found {w : Nat} (h : w ∈ found) :
    w ∈ code.closureBelow pc wanted found := by
  induction pc generalizing wanted found with
  | zero => exact h
  | succ pc ih =>
    rw [closureBelow]
    split
    · exact ih (List.mem_cons_of_mem _ h)
    · exact ih h

theorem mem_closureBelow_of_mem_wanted {w : Nat} (h : w ∈ wanted) (hw : w < pc) :
    w ∈ code.closureBelow pc wanted found := by
  induction pc generalizing wanted found with
  | zero => omega
  | succ pc ih =>
    rw [closureBelow]
    rcases Nat.lt_succ_iff_lt_or_eq.1 hw with hlt | rfl
    · split
      · exact ih (List.mem_append_right _ h) hlt
      · exact ih h hlt
    · rw [if_pos (by simpa using h)]
      exact mem_closureBelow_of_mem_found (List.mem_cons_self ..)

theorem lt_of_mem_closureBelow {w : Nat} (h : w ∈ code.closureBelow pc wanted found) :
    w ∈ found ∨ w < pc := by
  induction pc generalizing wanted found with
  | zero => exact .inl h
  | succ pc ih =>
    rw [closureBelow] at h
    split at h
    · rcases ih h with hf | hlt
      · rcases List.mem_cons.1 hf with rfl | hf
        · exact .inr (Nat.lt_succ_self _)
        · exact .inl hf
      · exact .inr (Nat.lt_succ_of_lt hlt)
    · exact (ih h).imp_right Nat.lt_succ_of_lt

theorem sources_subset_closureBelow {w : Nat} (h : w ∈ code.closureBelow pc wanted found)
    (hw : w ∉ found) : code.sources w ⊆ code.closureBelow pc wanted found := by
  induction pc generalizing wanted found with
  | zero => exact absurd h hw
  | succ pc ih =>
    rw [closureBelow] at h ⊢
    split at h
    · next hpc =>
      rw [if_pos hpc]
      by_cases hwpc : w = pc
      · -- the sources of `pc` are wanted from here on, and lie below it
        subst hwpc
        intro s hs
        exact mem_closureBelow_of_mem_wanted (List.mem_append_left _ hs) (lt_of_mem_sources hs)
      · exact ih h (by simp [hwpc, hw])
    · next hpc =>
      rw [if_neg hpc]
      exact ih h hw

/-- The walk finds no more than is needed: a set that holds what is wanted and found, and with each
position its sources, holds all that the walk finds. -/
theorem closureBelow_subset {S : Nat → Prop} (hS : ∀ {w}, S w → ∀ s ∈ code.sources w, S s)
    (hwanted : ∀ w ∈ wanted, S w) (hfound : ∀ w ∈ found, S w) :
    ∀ w ∈ code.closureBelow pc wanted found, S w := by
  induction pc generalizing wanted found with
  | zero => exact hfound
  | succ pc ih =>
    rw [closureBelow]
    split
    · next hpc =>
      have hSpc : S pc := hwanted pc (by simpa using hpc)
      refine ih (fun w hw => ?_) (fun w hw => ?_)
      · exact (List.mem_append.1 hw).elim (hS hSpc w) (hwanted w)
      · rcases List.mem_cons.1 hw with rfl | hw
        · exact hSpc
        · exact hfound w hw
    · exact ih hwanted hfound

theorem pairwise_closureBelow (hfound : found.Pairwise (· < ·)) (hpc : ∀ w ∈ found, pc ≤ w) :
    (code.closureBelow pc wanted found).Pairwise (· < ·) := by
  induction pc generalizing wanted found with
  | zero => exact hfound
  | succ pc ih =>
    rw [closureBelow]
    split
    · refine ih (List.pairwise_cons.2 ⟨fun w hw => hpc w hw, hfound⟩) ?_
      intro w hw
      rcases List.mem_cons.1 hw with rfl | hw
      · exact Nat.le_refl _
      · exact Nat.le_of_succ_le (hpc w hw)
    · exact ih hfound fun w hw => Nat.le_of_succ_le (hpc w hw)

theorem mem_closure_of_mem {r : Nat} (h : r ∈ roots) (hr : r < code.size) :
    r ∈ code.closure roots :=
  mem_closureBelow_of_mem_wanted h hr

theorem lt_size_of_mem_closure {w : Nat} (h : w ∈ code.closure roots) : w < code.size :=
  (lt_of_mem_closureBelow h).resolve_left (List.not_mem_nil)

theorem sources_subset_closure {w : Nat} (h : w ∈ code.closure roots) :
    code.sources w ⊆ code.closure roots :=
  sources_subset_closureBelow h List.not_mem_nil

/-- The closure is the least set that holds the roots and the sources of its members. -/
theorem closure_subset {S : Nat → Prop} (hS : ∀ {w}, S w → ∀ s ∈ code.sources w, S s)
    (hroots : ∀ r ∈ roots, S r) : ∀ w ∈ code.closure roots, S w :=
  closureBelow_subset hS hroots fun _ h => absurd h List.not_mem_nil

theorem pairwise_closure : (code.closure roots).Pairwise (· < ·) :=
  pairwise_closureBelow .nil fun _ h => absurd h List.not_mem_nil

end Code

end CircuitReceipts
