import CircuitReceipts.Circuit.Operation
import CircuitReceipts.Proofs.Circuit.Evaluation
import CircuitReceipts.Proofs.Circuit.Search
import CircuitReceipts.Proofs.Success
import CircuitReceipts.Receipt.Sample
import Mathlib.Order.Bounds.Basic

/-!
# The rows a seal has to open

A set of positions is closed under sources if it holds, with each position, the last writers of the
registers that are read there. The closure of some positions is the least such set around them, and
the rows that a seal has to open are the least such set that holds the sampled rows with their
successors, the rows that append to the journal, and the last row. Prover and verifier compute both
from the program alone, so they come to the same rows whatever order they work in.
-/

namespace CircuitReceipts

namespace Code

variable {code : Code} {S : Set Nat} {roots challenges : List Nat}

theorem mem_eraseRepsBy_loop {n m : Int} {ns seen : List Int} :
    n ∈ List.eraseRepsBy.loop (· == ·) m ns seen ↔ n = m ∨ n ∈ ns ∨ n ∈ seen := by
  induction ns generalizing m seen with
  | nil => simp [List.eraseRepsBy.loop, or_comm]
  | cons next ns ih =>
    rw [List.eraseRepsBy.loop]
    split
    · next heq =>
      rw [ih, List.mem_cons, beq_iff_eq.1 heq]
      tauto
    · rw [ih, List.mem_cons, List.mem_cons]
      tauto

theorem mem_distinct {n : Int} {ns : List Int} : n ∈ distinct ns ↔ n ∈ ns := by
  have hsorted : n ∈ ns.mergeSort (· ≤ ·) ↔ n ∈ ns := List.mem_mergeSort
  rw [distinct, ← hsorted]
  cases ns.mergeSort (· ≤ ·) with
  | nil => rfl
  | cons m ms =>
    rw [List.eraseReps, List.eraseRepsBy, mem_eraseRepsBy_loop, List.mem_cons]
    simp

theorem distinct_nil : distinct [] = [] :=
  List.eq_nil_iff_forall_not_mem.2 fun _ hn => List.not_mem_nil (mem_distinct.1 hn)

/-- Whether a set holds, with each position, the last writers of the registers read there. -/
def SourceClosed (code : Code) (S : Set Nat) : Prop :=
  ∀ pc ∈ S, ∀ i, code[pc]? = some i → ∀ register ∈ i.reads, ∀ w,
    code.lastWriter register pc = some w → w ∈ S

theorem sourceClosed_iff : code.SourceClosed S ↔ ∀ pc ∈ S, ∀ w ∈ code.sources pc, w ∈ S := by
  constructor
  · intro hclosed pc hpc w hw
    obtain ⟨register, hregister, hwriter⟩ := List.mem_filterMap.1 hw
    cases hi : code[pc]? with
    | none => simp [hi] at hregister
    | some i =>
      rw [hi] at hregister
      exact hclosed pc hpc i hi register hregister w hwriter
  · intro hclosed pc hpc i hi register hregister w hwriter
    exact hclosed pc hpc w (mem_sources hi hregister hwriter)

/-- The closure is the least set around the roots that is closed under sources. -/
theorem isLeast_closure (hroots : ∀ r ∈ roots, r < code.size) :
    IsLeast {S : Set Nat | (∀ r ∈ roots, r ∈ S) ∧ code.SourceClosed S}
      {pc | pc ∈ code.closure roots} := by
  constructor
  · refine ⟨fun r hr => mem_closure_of_mem hr (hroots r hr), sourceClosed_iff.2 ?_⟩
    exact fun pc hpc w hw => sources_subset_closure hpc hw
  · rintro S ⟨hS, hclosed⟩
    exact closure_subset (S := (· ∈ S)) (sourceClosed_iff.1 hclosed _) hS

theorem closureOf_natCast (hroots : ∀ r ∈ roots, r < code.size) :
    code.closureOf (roots.map Int.ofNat) = .ok ((code.closure roots).map Int.ofNat) := by
  have hrange : ((roots.map Int.ofNat).any fun r =>
      decide (r < -(code.size : Int)) || decide ((code.size : Int) ≤ r)) = false := by
    rw [List.any_eq_false]
    intro r hr
    obtain ⟨n, hn, rfl⟩ := List.mem_map.1 hr
    have hlt := hroots n hn
    simp only [Bool.or_eq_true, decide_eq_true_eq, Int.ofNat_eq_natCast]
    omega
  have hbelow : (roots.map Int.ofNat).filter (· < 0) = [] := by
    rw [List.filter_eq_nil_iff]
    intro r hr
    obtain ⟨n, -, rfl⟩ := List.mem_map.1 hr
    simp
  have hrest : ((roots.map Int.ofNat).filter (0 ≤ ·)).map Int.toNat = roots := by
    rw [List.filter_eq_self.2, List.map_map]
    · exact List.map_id'' (fun _ => rfl) roots
    · intro r hr
      obtain ⟨n, -, rfl⟩ := List.mem_map.1 hr
      simp
  rw [closureOf]
  simp only [hrange, hbelow, hrest, distinct_nil]
  rfl

/-- Whether a set holds the rows that a seal has to open after given challenges. -/
structure Required (code : Code) (challenges : List Nat) (S : Set Nat) : Prop where
  sampled : ∀ q ∈ challenges, q % code.size ∈ S
  successors : ∀ q ∈ challenges, q % code.size + 1 < code.size → q % code.size + 1 ∈ S
  commits : ∀ pc i, code[pc]? = some i → i.op = .commit → pc ∈ S
  last : code.size - 1 ∈ S
  closed : code.SourceClosed S

theorem mem_rowAndSuccessor_iff {rows q : Nat} {row : Int} :
    row ∈ rowAndSuccessor rows q ↔
      row = (q % rows : Nat) ∨ q % rows + 1 < rows ∧ row = (q % rows + 1 : Nat) := by
  have hfmod : Int.fmod q rows = (q % rows : Nat) := (Int.ofNat_fmod q rows).symm
  rw [rowAndSuccessor, hfmod]
  split
  · next hnext =>
    have hlt : q % rows + 1 < rows := by omega
    simp [hlt]
  · next hnext =>
    have hge : ¬q % rows + 1 < rows := by omega
    simp [hge]

def picked (code : Code) (challenges : List Nat) : List Nat :=
  (distinct (challenges.flatMap (rowAndSuccessor code.size))).map Int.toNat

theorem mem_picked {pc : Nat} : pc ∈ code.picked challenges ↔ ∃ q ∈ challenges,
    pc = q % code.size ∨ q % code.size + 1 < code.size ∧ pc = q % code.size + 1 := by
  simp only [picked, List.mem_map, mem_distinct, List.mem_flatMap]
  constructor
  · rintro ⟨row, ⟨q, hq, hrow⟩, rfl⟩
    refine ⟨q, hq, (mem_rowAndSuccessor_iff.1 hrow).imp ?_ (And.imp_right ?_)⟩
    · rintro rfl
      exact Int.toNat_natCast _
    · rintro rfl
      exact Int.toNat_natCast _
  · rintro ⟨q, hq, hpc⟩
    refine ⟨pc, ⟨q, hq, mem_rowAndSuccessor_iff.2 (hpc.imp ?_ (And.imp_right ?_))⟩,
      Int.toNat_natCast pc⟩
    · exact congrArg Nat.cast
    · exact congrArg Nat.cast

theorem mem_commits {pc : Nat} :
    pc ∈ code.commits ↔ ∃ i, code[pc]? = some i ∧ i.op = .commit := by
  rw [commits, List.mem_filter, List.mem_range, decide_eq_true_eq, Option.map_eq_some_iff]
  refine and_iff_right_of_imp ?_
  rintro ⟨i, hi, -⟩
  exact (Array.getElem?_eq_some_iff.1 hi).1

/-- What is required is closure under sources around the picked positions, those that append to the
journal, and the last. -/
theorem required_iff : code.Required challenges S ↔
    (∀ r ∈ code.picked challenges ++ code.commits ++ [code.size - 1], r ∈ S) ∧
      code.SourceClosed S := by
  constructor
  · intro hrequired
    refine ⟨fun r hr => ?_, hrequired.closed⟩
    rw [List.mem_append, List.mem_append, List.mem_singleton, mem_picked, mem_commits] at hr
    rcases hr with (⟨q, hq, rfl | ⟨hnext, rfl⟩⟩ | ⟨i, hi, hop⟩) | rfl
    · exact hrequired.sampled q hq
    · exact hrequired.successors q hq hnext
    · exact hrequired.commits r i hi hop
    · exact hrequired.last
  · rintro ⟨hroots, hclosed⟩
    refine ⟨fun q hq => ?_, fun q hq hnext => ?_, fun pc i hi hop => ?_, ?_, hclosed⟩
    · exact hroots _ (List.mem_append_left _ (List.mem_append_left _
        (mem_picked.2 ⟨q, hq, .inl rfl⟩)))
    · exact hroots _ (List.mem_append_left _ (List.mem_append_left _
        (mem_picked.2 ⟨q, hq, .inr ⟨hnext, rfl⟩⟩)))
    · exact hroots _ (List.mem_append_left _ (List.mem_append_right _ (mem_commits.2 ⟨i, hi, hop⟩)))
    · exact hroots _ (List.mem_append_right _ (List.mem_singleton_self _))

theorem lt_of_mem_roots (hcode : 0 < code.size) : ∀ r ∈
    code.picked challenges ++ code.commits ++ [code.size - 1], r < code.size := by
  intro r hr
  rw [List.mem_append, List.mem_append, List.mem_singleton, mem_picked, mem_commits] at hr
  rcases hr with (⟨q, -, rfl | ⟨hnext, rfl⟩⟩ | ⟨i, hi, -⟩) | rfl
  · exact Nat.mod_lt q hcode
  · exact hnext
  · exact (Array.getElem?_eq_some_iff.1 hi).1
  · exact Nat.sub_lt hcode Nat.one_pos

theorem openedRows_eq (hcode : 0 < code.size) (t : Transcript) (queries : Int) :
    code.openedRows t queries = .ok (code.closure
      (code.picked (t.draw queries (challengeWidth code.size)).1 ++ code.commits ++
        [code.size - 1])) := by
  have hsize : ¬((code.size : Int) = 0) := by omega
  have hempty : code.isEmpty = false := by
    rw [Array.isEmpty_eq_false_iff, ← Array.size_pos_iff]
    exact hcode
  simp only [openedRows, Transcript.sample, hsize, false_and, if_false, ok_bind, hempty]
  rfl

/-- A program determines what depends on what. The closure of positions of it is found, and it is
the least set around them that is closed under sources; a search for it in any order takes a bounded
number of steps, does not stop while positions are pending, and then has found the closure. The rows
that a seal has to open are found for every transcript, and they are the least set that holds what
is required. -/
theorem isLeast_required (hcode : 0 < code.size) :
    (∀ roots : List Nat, (∀ r ∈ roots, r < code.size) →
      code.closureOf (roots.map Int.ofNat) = .ok ((code.closure roots).map Int.ofNat) ∧
      IsLeast {S : Set Nat | (∀ r ∈ roots, r ∈ S) ∧ code.SourceClosed S}
        {pc | pc ∈ code.closure roots} ∧
      (∀ pc ∈ code.closure roots, pc < code.size) ∧
      ∀ n s, Search.Run code n (.start roots) s →
        n ≤ roots.length + 2 * code.size ∧ (s.pending ≠ 0 → ∃ t, Search.Step code s t) ∧
          (s.pending = 0 → ∀ pc, pc ∈ s.found ↔ pc ∈ code.closure roots)) ∧
    ∀ (t : Transcript) (queries : Int), ∃ rows, code.openedRows t queries = .ok rows ∧
      IsLeast {S | code.Required (t.draw queries (challengeWidth code.size)).1 S}
        {pc | pc ∈ rows} := by
  refine ⟨fun roots hroots => ⟨closureOf_natCast hroots, isLeast_closure hroots,
    fun pc => lt_size_of_mem_closure, fun n s => Search.of_run hroots⟩, fun t queries => ?_⟩
  refine ⟨_, openedRows_eq hcode t queries, ?_⟩
  simp only [required_iff]
  exact isLeast_closure (lt_of_mem_roots hcode)

/-- The first of the two results of a circuit that writes some of its registers twice. -/
theorem isLeast_required_extfieldsub :
    let code : Code := Operation.extfieldsub.program.instructions
    let t := Transcript.new .sha256 Transcript.standardDomain
    0 < code.size ∧ (∀ r ∈ [15], r < code.size) ∧
      code.closureOf [15] = .ok [0, 2, 4, 5, 7, 9, 10, 11, 15] ∧
      IsLeast {S : Set Nat | (∀ r ∈ [15], r ∈ S) ∧ code.SourceClosed S}
        {pc | pc ∈ [0, 2, 4, 5, 7, 9, 10, 11, 15]} ∧
      ∃ rows, code.openedRows t 2 = .ok rows ∧
        IsLeast {S | code.Required (t.draw 2 (challengeWidth code.size)).1 S} {pc | pc ∈ rows} := by
  intro code t
  have hcode : 0 < code.size := by decide
  have hroots : ∀ r ∈ [15], r < code.size := by decide
  have hclosure : code.closure [15] = [0, 2, 4, 5, 7, 9, 10, 11, 15] := by decide
  obtain ⟨hleast, hopened⟩ := isLeast_required hcode
  obtain ⟨hfound, hclosed, -, -⟩ := hleast [15] hroots
  rw [hclosure] at hfound hclosed
  exact ⟨hcode, hroots, hfound, hclosed, hopened t 2⟩

end Code

end CircuitReceipts
