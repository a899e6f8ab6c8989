import CircuitReceipts.Proofs.Circuit.Gates
import CircuitReceipts.Proofs.Codec.Reading
import CircuitReceipts.Proofs.Engine.Step
import CircuitReceipts.Proofs.Value.Inverse

/-!
# How wide the values of a circuit become

A trace stores the values of a circuit, so each of them must be writable. `Gate.widths` walks over
gates and finds a bound for each value from the bounds of its sources: what is taken in is short,
a sum or a product of short values is writable, a remainder or an inverse is bounded by its modulus
and a difference by what is subtracted from. Where it succeeds, all values of the circuit are
writable.
-/

namespace CircuitReceipts

/-- How much room the count of the limbs of a value leaves in a word. -/
inductive Width where
  | short
  | writable
deriving DecidableEq

def Width.Bounds : Width → Nat → Prop
  | short => Short
  | writable => Writable

namespace Width

variable {w : Width} {ws : List Width} {values : Nat → Nat} {m n : Nat}

theorem Bounds.writable (h : w.Bounds n) : Writable n := by
  cases w with
  | short => exact Short.writable h
  | writable => exact h

theorem Bounds.mono (h : w.Bounds n) (hmn : m ≤ n) : w.Bounds m := by
  cases w with
  | short => exact Short.mono h hmn
  | writable => exact Writable.mono h hmn

/-- The width of what comes from a position, and of the zero from nowhere. -/
def source (ws : List Width) : Option Nat → Option Width
  | none => some short
  | some k => ws[k]?

/-- The width of a sum or a product: known when both widths are short. -/
def joint (lhs rhs : Option Width) : Option Width :=
  if lhs = some short ∧ rhs = some short then some writable else none

/-- Whether widths bound the values at the first positions. -/
def BoundAll (ws : List Width) (values : Nat → Nat) : Prop :=
  ∀ {k : Nat} {w : Width}, ws[k]? = some w → w.Bounds (values k)

theorem BoundAll.source {k : Option Nat} (h : BoundAll ws values)
    (hw : Width.source ws k = some w) : w.Bounds (sourceValue values k) := by
  cases k with
  | none =>
    cases hw
    exact short_of_lt (show 0 < _ by decide)
  | some k => exact h hw

theorem BoundAll.concat (h : BoundAll ws values) (hw : w.Bounds (values ws.length)) :
    BoundAll (ws ++ [w]) values := by
  intro k w' hk
  rcases Nat.lt_trichotomy k ws.length with hlt | rfl | hgt
  · rw [List.getElem?_append_left hlt] at hk
    exact h hk
  · rw [List.getElem?_concat_length, Option.some.injEq] at hk
    exact hk ▸ hw
  · have hnone : (ws ++ [w])[k]? = none := List.getElem?_eq_none (by simp; omega)
    rw [hnone] at hk
    exact absurd hk (by simp)

end Width

namespace Gate

/-- The width of the value of a gate, given those of the values before it. -/
def width (ws : List Width) : Gate → Option Width
  | read => some .short
  | const n => if n < 0x100000000 then some .short else none
  | compute .add lhs rhs => Width.joint (Width.source ws lhs) (Width.source ws rhs)
  | compute .mul lhs rhs => Width.joint (Width.source ws lhs) (Width.source ws rhs)
  | compute .sub lhs _ => Width.source ws lhs
  | compute .mod _ rhs => Width.source ws rhs
  | compute .inv _ rhs => Width.source ws rhs
  | compute _ _ _ => some .short
  | commit source => Width.source ws source
  | halt => some .short

/-- The widths of the values before some gates, followed by those of the gates. -/
def widths (ws : List Width) : List Gate → Option (List Width)
  | [] => some ws
  | g :: gs => (g.width ws).bind fun w => widths (ws ++ [w]) gs

variable {ws ws' : List Width} {values : Nat → Nat} {g : Gate} {gs : List Gate}

/-- The width of a gate bounds a value at which it holds. -/
theorem width_bounds {w : Width} {value : Nat} (hws : Width.BoundAll ws values)
    (hg : g.Holds values value) (hread : g = read → Short value) (hw : g.width ws = some w) :
    w.Bounds value := by
  have hzero : Short 0 := short_of_lt (by decide)
  cases g with
  | read =>
    cases hw
    exact hread rfl
  | const n =>
    rw [width, Option.ite_none_right_eq_some, Option.some.injEq] at hw
    obtain ⟨hn, rfl⟩ := hw
    rw [Holds] at hg
    exact short_of_lt (by omega)
  | compute op lhs rhs =>
    rw [Holds] at hg
    cases op with
    | add =>
      rw [width, Width.joint, Option.ite_none_right_eq_some, Option.some.injEq] at hw
      obtain ⟨⟨hl, hr⟩, rfl⟩ := hw
      rw [compute_add_eq_ok] at hg
      exact hg ▸ Short.add (hws.source hl) (hws.source hr)
    | sub =>
      rw [compute_sub_eq_ok] at hg
      exact hg.2 ▸ (hws.source hw).mono (Nat.sub_le _ _)
    | mul =>
      rw [width, Width.joint, Option.ite_none_right_eq_some, Option.some.injEq] at hw
      obtain ⟨⟨hl, hr⟩, rfl⟩ := hw
      rw [compute_mul_eq_ok] at hg
      exact hg ▸ Short.mul (hws.source hl) (hws.source hr)
    | mod =>
      rw [compute_mod_eq_ok] at hg
      exact hg.2 ▸ (hws.source hw).mono (Nat.le_of_lt (Nat.mod_lt _ (Nat.pos_of_ne_zero hg.1)))
    | inv =>
      rw [compute_inv_eq_ok] at hg
      exact (hws.source hw).mono (Nat.le_of_lt (inverseMod?_eq_some_iff.1 hg).1)
    | read | const | commit | halt =>
      cases hg
      cases hw
      exact hzero
  | commit source =>
    rw [Holds] at hg
    exact hg ▸ hws.source hw
  | halt =>
    cases hg
    cases hw
    exact hzero

/-- The widths of gates bound values at which they hold. -/
theorem boundAll_of_widths (hws : Width.BoundAll ws values)
    (hgs : HoldFrom values ws.length gs)
    (hread : ∀ {k : Nat}, gs[k]? = some read → Short (values (ws.length + k)))
    (h : widths ws gs = some ws') :
    Width.BoundAll ws' values ∧ ws'.length = ws.length + gs.length := by
  induction gs generalizing ws with
  | nil =>
    cases h
    exact ⟨hws, rfl⟩
  | cons g gs ih =>
    obtain ⟨hg, hgs⟩ := hgs
    rw [widths, Option.bind_eq_some_iff] at h
    obtain ⟨w, hw, h⟩ := h
    have hbound : w.Bounds (values ws.length) :=
      width_bounds hws hg (fun hg => hread (k := 0) (by rw [hg]; rfl)) hw
    have hlength : (ws ++ [w]).length = ws.length + 1 := List.length_append
    have hread' {k : Nat} (hk : gs[k]? = some read) :
        Short (values ((ws ++ [w]).length + k)) := by
      rw [hlength, Nat.add_assoc, Nat.add_comm 1]
      exact hread (k := k + 1) hk
    obtain ⟨hall, hlen⟩ := ih (hws.concat hbound) (hlength ▸ hgs) hread' h
    refine ⟨hall, ?_⟩
    rw [hlen, hlength, List.length_cons]
    omega

end Gate

namespace Code

variable {code : Code} {values : Nat → Nat}

theorem mem_positions_of_gates {k : Nat} (h : code.gates[k]? = some .read) :
    k ∈ code.positions .read code.size := by
  rw [gates, List.getElem?_mapIdx, Array.getElem?_toList, Option.map_eq_some_iff] at h
  obtain ⟨i, hi, hgate⟩ := h
  have hop : i.op = .read := by
    rw [gate] at hgate
    split at hgate
    · next hop => exact hop
    all_goals cases hgate
  rw [mem_positions, hi, Option.map_some, hop]
  exact ⟨(Array.getElem?_eq_some_iff.1 hi).1, rfl⟩

/-- Where widths are found for all gates of a circuit, its values on short numbers are writable. -/
theorem writable_of_widths (h : ∀ pc < code.size, code.Consistent values pc)
    (hshort : ∀ k ∈ code.positions .read code.size, Short (values k))
    (hwidths : (Gate.widths [] code.gates).isSome = true) :
    ∀ pc < code.size, Writable (values pc) := by
  have hlength : code.gates.length = code.size := by simp [gates]
  have hgates : Gate.HoldFrom values 0 code.gates := by
    have htake := (consistent_iff_holdFrom (Nat.le_refl _)).1 h
    rwa [← hlength, List.take_length] at htake
  obtain ⟨ws, hws⟩ := Option.isSome_iff_exists.1 hwidths
  have hread {k : Nat} (hk : code.gates[k]? = some .read) : Short (values (0 + k)) := by
    rw [Nat.zero_add]
    exact hshort k (mem_positions_of_gates hk)
  have hnil : Width.BoundAll [] values := fun hk => absurd hk (by simp)
  obtain ⟨hall, hlen⟩ := Gate.boundAll_of_widths hnil hgates hread hws
  intro pc hpc
  have hlt : pc < ws.length := by simpa [hlen, hlength] using hpc
  exact (hall (List.getElem?_eq_getElem hlt)).writable

end Code

end CircuitReceipts
