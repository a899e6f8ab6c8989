import CircuitReceipts.Proofs.Engine.Reach
import CircuitReceipts.Proofs.Receipt.Acceptance

/-!
# Wider limits

Limits stop a run and do nothing else. A step that makes a row makes the same row under wider
limits, and where a circuit halts itself it does so under all limits; only a fault is the work of a
limit. So a run comes, under wider limits, to every point that it comes to under the given ones, and
if it was no fault that ended it there, it ends there again.
-/

namespace CircuitReceipts

/-- Limits are ordered by the room they leave. -/
instance : LE Limits where
  le l l' := l.session ≤ l'.session ∧ l.registerBits ≤ l'.registerBits

namespace Engine

variable {l l' : Limits} {p : Program} {reader : WordReader} {rows : List Row} {m m' : Machine}
  {pc : Nat} {i : Instruction} {row : Row} {reason : Halt} {stop : Option Stop} {imageId : Text}

theorem Goes.mono (h : Goes l m pc i row m') (hle : l ≤ l') : Goes l' m pc i row m' := by
  cases h with
  | read hop hread hbits => exact .read hop hread (hbits.trans hle.2)
  | const hop => exact .const hop
  | commit hop => exact .commit hop
  | halt hop => exact .halt hop
  | computed hop hcompute hbits => exact .computed hop hcompute (hbits.trans hle.2)

theorem Stops.halt_of_halt (h : Stops l m pc i (.halt reason)) :
    Stops l' m pc i (.halt reason) := by
  cases h with
  | unreadable hop hread => exact .unreadable hop hread
  | undefined hop hcompute => exact .undefined hop hcompute

theorem Reaches.mono (h : Reaches l p reader rows m) (hle : l ≤ l') :
    Reaches l' p reader rows m := by
  induction h with
  | start => exact .start
  | step hreach hi hsession hgoes ih =>
    exact ih.step hi (hsession.trans_le hle.1) (hgoes.mono hle)

/-- Where it is no fault that ends a run, it ends under wider limits too. -/
theorem Ends.mono (h : Ends l p pc m stop) (hfault : ∀ cause, stop ≠ some (.fault cause))
    (hle : l ≤ l') : Ends l' p pc m stop := by
  cases h with
  | succeeds hrows hi hop ha => exact .succeeds hrows hi hop ha
  | halts hrows hi hop ha => exact .halts hrows hi hop ha
  | exhausted => exact absurd rfl (hfault _)
  | @stopped i s hi hsession hstops =>
    cases s with
    | halt reason => exact .stopped hi (hsession.trans_le hle.1) hstops.halt_of_halt
    | fault cause => exact absurd rfl (hfault cause)

end Engine

end CircuitReceipts
