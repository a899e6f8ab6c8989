import CircuitReceipts.Transcript
import Mathlib.Data.List.Induction

/-!
# Histories of transcripts

A transcript is called to absorb byte strings and integers and to draw values. What a history of
calls comes to can be said without buffers and counters. The byte strings it absorbs fall into
groups: the first element that is drawn closes the group of what has been absorbed before it.
Elements are counted from where the last byte string was absorbed. The digests that a transcript has
for its state form a chain along the groups.
-/

namespace CircuitReceipts

namespace Transcript

/-- A call on a transcript. -/
inductive Call where
  | put (b : Bytes)
  | putInt (n : Int)
  | draw (count width : Int)

namespace Call

/-- The transcript after a call. An integer without room in eight bytes is refused and leaves the
transcript as it was. -/
def apply (t : Transcript) : Call → Transcript
  | put b => t.put b
  | putInt n => (t.putInt n).toOption.getD t
  | draw count width => (t.draw count width).2

def absorbed? : Call → Option Bytes
  | put b => some b
  | putInt n => if 0 ≤ n ∧ n < 0x10000000000000000 then some (Bytes.ofNat 8 n.toNat) else none
  | draw _ _ => none

def drawn : Call → Nat
  | draw count width => if width = 0 then 0 else elementCount (count * width)
  | _ => 0

theorem apply_of_absorbed? {c : Call} {b : Bytes} (h : c.absorbed? = some b) (t : Transcript) :
    c.apply t = t.put b := by
  cases c with
  | put b' =>
    cases h
    rfl
  | putInt n =>
    rw [absorbed?] at h
    split at h
    · next hroom =>
      cases h
      rw [apply, Transcript.putInt, if_pos hroom]
      rfl
    · cases h
  | draw count width => cases h

theorem apply_of_absorbed?_eq_none {c : Call} (h : c.absorbed? = none) (t : Transcript) :
    c.apply t = (t.elements c.drawn).2 := by
  cases c with
  | put b => cases h
  | putInt n =>
    have hroom : ¬(0 ≤ n ∧ n < 0x10000000000000000) := by
      intro hroom
      rw [absorbed?, if_pos hroom] at h
      cases h
    rw [apply, Transcript.putInt, if_neg hroom]
    rfl
  | draw count width =>
    rw [apply, Transcript.draw, drawn]
    split <;> rfl

theorem drawn_of_absorbed? {c : Call} {b : Bytes} (h : c.absorbed? = some b) : c.drawn = 0 := by
  cases c with
  | put | putInt => rfl
  | draw => cases h

end Call

def after (t : Transcript) (calls : List Call) : Transcript :=
  calls.foldl Call.apply t

theorem after_concat (t : Transcript) (calls : List Call) (c : Call) :
    t.after (calls ++ [c]) = c.apply (t.after calls) := by
  rw [after, List.foldl_append]
  rfl

/-- What a history has come to. -/
structure Ledger where
  /-- The groups that have been closed. -/
  closed : List (List Bytes)
  /-- What has been absorbed since. -/
  waiting : List Bytes
  /-- The number of elements drawn since something was absorbed. -/
  drawn : Nat
deriving DecidableEq

namespace Ledger

/-- All groups, the one that is waiting included if there is anything in it. -/
def groups (l : Ledger) : List (List Bytes) :=
  if l.waiting = [] then l.closed else l.closed ++ [l.waiting]

def absorb (l : Ledger) (b : Bytes) : Ledger :=
  ⟨l.closed, l.waiting ++ [b], 0⟩

/-- The ledger after elements have been drawn, the first of which closes the group that is
waiting. -/
def draw (l : Ledger) : Nat → Ledger
  | 0 => l
  | n + 1 => ⟨l.groups, [], l.drawn + (n + 1)⟩

def enter (l : Ledger) (c : Call) : Ledger :=
  match c.absorbed? with
  | some b => l.absorb b
  | none => l.draw c.drawn

def ofCalls (calls : List Call) : Ledger :=
  calls.foldl enter ⟨[], [], 0⟩

variable {l : Ledger} {c : Call} {b : Bytes} {n : Nat}

theorem enter_of_absorbed? (h : c.absorbed? = some b) : l.enter c = l.absorb b := by
  simp only [enter, h]

theorem enter_of_absorbed?_eq_none (h : c.absorbed? = none) : l.enter c = l.draw c.drawn := by
  simp only [enter, h]

theorem draw_of_pos (hn : 0 < n) : l.draw n = ⟨l.groups, [], l.drawn + n⟩ := by
  obtain ⟨m, rfl⟩ := Nat.exists_eq_succ_of_ne_zero (Nat.ne_of_gt hn)
  rfl

theorem groups_of_waiting_eq_nil (h : l.waiting = []) : l.groups = l.closed :=
  if_pos h

theorem groups_of_waiting_ne_nil (h : l.waiting ≠ []) : l.groups = l.closed ++ [l.waiting] :=
  if_neg h

theorem ofCalls_concat (calls : List Call) (c : Call) :
    ofCalls (calls ++ [c]) = (ofCalls calls).enter c := by
  rw [ofCalls, List.foldl_append]
  rfl

theorem ofCalls_concat_of_drawn (calls : List Call) (h : 0 < c.drawn) :
    ofCalls (calls ++ [c]) =
      ⟨(ofCalls calls).groups, [], (ofCalls calls).drawn + c.drawn⟩ := by
  have hnone : c.absorbed? = none := by
    cases hc : c.absorbed? with
    | none => rfl
    | some b => exact absurd (Call.drawn_of_absorbed? hc) (Nat.ne_of_gt h)
  rw [ofCalls_concat, enter_of_absorbed?_eq_none hnone, draw_of_pos h]

theorem flatten_groups (l : Ledger) : l.groups.flatten = l.closed.flatten ++ l.waiting := by
  by_cases h : l.waiting = []
  · rw [groups_of_waiting_eq_nil h, h, List.append_nil]
  · rw [groups_of_waiting_ne_nil h, List.flatten_append, List.flatten_singleton]

theorem flatten_groups_ofCalls (calls : List Call) :
    (ofCalls calls).groups.flatten = calls.filterMap Call.absorbed? := by
  induction calls using List.reverseRecOn with
  | nil => rfl
  | append_singleton calls c ih =>
    rw [ofCalls_concat, List.filterMap_append, ← ih]
    cases hc : c.absorbed? with
    | some b =>
      rw [enter_of_absorbed? hc, flatten_groups, flatten_groups, absorb]
      simp [hc]
    | none =>
      rw [enter_of_absorbed?_eq_none hc]
      cases c.drawn with
      | zero => simp [hc, draw]
      | succ n => simp [hc, draw, groups_of_waiting_eq_nil]

end Ledger

/-- The digest of a group that is folded into a state is that of the state and the byte strings of
the group, each with its length in front. -/
def groupPreimage (state : Bytes) (group : List Bytes) : Bytes :=
  state ++ (group.map framed).flatten

/-- The state before anything is folded into it is the digest of the domain. -/
def domainPreimage (domain : Bytes) : Bytes :=
  Bytes.ofAscii "transcript:" ++ domain

/-- The state after groups have been folded one after another. -/
def chain (h : HashName) (domain : Bytes) (groups : List (List Bytes)) : Bytes :=
  groups.foldl (fun state group => h.digest (groupPreimage state group))
    (h.digest (domainPreimage domain))

@[simp] theorem chain_nil (h : HashName) (domain : Bytes) :
    chain h domain [] = h.digest (domainPreimage domain) := rfl

@[simp] theorem chain_concat (h : HashName) (domain : Bytes) (groups : List (List Bytes))
    (group : List Bytes) :
    chain h domain (groups ++ [group]) =
      h.digest (groupPreimage (chain h domain groups) group) := by
  rw [chain, List.foldl_append]
  rfl

@[simp] theorem length_chain (h : HashName) (domain : Bytes) (groups : List (List Bytes)) :
    (chain h domain groups).length = 32 := by
  induction groups using List.reverseRecOn with
  | nil => exact h.length_digest _
  | append_singleton groups group => rw [chain_concat, HashName.length_digest]

end Transcript

end CircuitReceipts
