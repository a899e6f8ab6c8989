import CircuitReceipts.Circuit.Operation
import CircuitReceipts.Proofs.Engine.Reach
import CircuitReceipts.Proofs.Value.Inverse

/-!
# Ends that cannot be told

A run that exceeds a limit, or that meets a number without an inverse, ends with words that show
numbers, and a host with a bound on digits may not be able to write them. Then there is no session.
On a loaded program this is the only way to have none, and it takes a limit, or a number in a
register, with more digits than the host writes.
-/

namespace CircuitReceipts

/-- An instruction halts over a missing inverse exactly if it asks for one and there is none, and
then it shows its two source values. -/
theorem compute_eq_noInverse_iff {op : Opcode} {lhs rhs a m : Nat} :
    compute op lhs rhs = .error (.noInverse a m) ↔
      op = .inv ∧ (a = lhs ∧ m = rhs) ∧ rhs ≠ 0 ∧ Nat.gcd lhs rhs ≠ 1 := by
  cases op with
  | read | const | add | mul | commit | halt => simp [compute]
  | sub | mod =>
    rw [compute]
    split <;> simp
  | inv =>
    rw [compute]
    by_cases hzero : rhs = 0
    · simp [hzero]
    rw [if_neg hzero]
    cases hinv : inverseMod? lhs rhs with
    | some v =>
      have hgcd := (exists_inverseMod?_iff.1 ⟨v, hinv⟩).2
      simp [hgcd]
    | none =>
      have hgcd : Nat.gcd lhs rhs ≠ 1 := fun h => by
        obtain ⟨v, hv⟩ := exists_inverseMod?_iff.2 ⟨hzero, h⟩
        rw [hinv] at hv
        cases hv
      simp [hzero, hgcd, eq_comm]

theorem compute_ne_asked {op : Opcode} {lhs rhs : Nat} (code : Int) :
    compute op lhs rhs ≠ .error (.asked code) := by
  cases op with
  | read | const | add | mul | commit | halt => simp [compute]
  | sub | mod =>
    rw [compute]
    split <;> simp
  | inv =>
    rw [compute]
    split
    · simp
    · split <;> simp

/-- Limits that a host writes, together with every number that has room in a register. -/
structure Limits.Modest (l : Limits) (host : Host) : Prop where
  session : host.Writes l.session
  registerBits : host.Writes l.registerBits
  values : ∀ v : Nat, (bitLength v : Int) ≤ l.registerBits → host.Writes v

namespace Engine

variable {host : Host} {l : Limits} {p : Program} {input : Bytes} {reader : WordReader}
  {rows : List Row} {m : Machine} {i : Instruction}

/-- Why a host cannot tell how a run of a program ends: the point at which it ends, and what cannot
be written there. -/
inductive Untold (host : Host) (l : Limits) (p : Program) (input : Bytes) : Prop where
  | session {reader : WordReader} {rows : List Row} {m : Machine}
      (hreader : WordReader.ofBytes input = .ok reader) (hreach : Reaches l p reader rows m)
      (hrows : rows.length < p.size) (hsession : l.session ≤ rows.length)
      (hwrites : ¬host.Writes l.session)
  | registerBits {reader : WordReader} {rows : List Row} {m : Machine} {i : Instruction} {v : Nat}
      (hreader : WordReader.ofBytes input = .ok reader) (hreach : Reaches l p reader rows m)
      (hi : p.code[rows.length]? = some i) (hsession : (rows.length : Int) < l.session)
      (hmakes : Makes m i v) (hbits : l.registerBits < bitLength v)
      (hwrites : ¬host.Writes l.registerBits)
  | noInverse {reader : WordReader} {rows : List Row} {m : Machine} {i : Instruction}
      (hreader : WordReader.ofBytes input = .ok reader) (hreach : Reaches l p reader rows m)
      (hi : p.code[rows.length]? = some i) (hsession : (rows.length : Int) < l.session)
      (hop : i.op = .inv) (hzero : m.get i.c ≠ 0) (hgcd : Nat.gcd (m.get i.b) (m.get i.c) ≠ 1)
      (hwrites : ¬(host.Writes (m.get i.b) ∧ host.Writes (m.get i.c)))

/-- The three ends that show numbers are those whose numbers may not be written. -/
theorem untold_iff (hp : p.Loaded) : Untold host l p input ↔ ¬host.Tells (shown l p input) := by
  constructor
  · rintro (⟨hreader, hreach, hrows, hsession, hwrites⟩ |
      ⟨hreader, hreach, hi, hsession, hmakes, hbits, hwrites⟩ |
      ⟨hreader, hreach, hi, hsession, hop, hzero, hgcd, hwrites⟩)
    · rw [shown_of_outcome (hreach.outcome_eq hp hreader (.exhausted hrows hsession))]
      simpa [Stop.numbers, Fault.numbers] using hwrites
    · rw [shown_of_outcome
        (hreach.outcome_eq hp hreader (.stopped hi hsession (.oversize hmakes hbits)))]
      simpa [Stop.numbers, Fault.numbers] using hwrites
    · have hcompute := compute_eq_noInverse_iff.2 ⟨hop, ⟨rfl, rfl⟩, hzero, hgcd⟩
      have hbinary := congrArg Opcode.isBinary hop
      rw [shown_of_outcome
        (hreach.outcome_eq hp hreader (.stopped hi hsession (.undefined hbinary hcompute)))]
      simpa [Stop.numbers, Halt.numbers] using hwrites
  · intro htells
    cases hreader : WordReader.ofBytes input with
    | error e =>
      rw [shown_of_outcome (outcome_of_unreadable l p hreader)] at htells
      exact absurd Host.tells_nil htells
    | ok reader =>
      obtain ⟨rows, m, stop, hreach, hends, houtcome⟩ := exists_outcome_eq l hp hreader
      rw [shown_of_outcome houtcome] at htells
      cases hends with
      | succeeds | halts => exact absurd Host.tells_nil htells
      | exhausted hrows hsession =>
        exact .session hreader hreach hrows hsession (by simpa [Stop.numbers, Fault.numbers] using
          htells)
      | @stopped i s hi hsession hstops =>
        cases hstops with
        | unreadable => exact absurd Host.tells_nil htells
        | oversize hmakes hbits =>
          exact .registerBits hreader hreach hi hsession hmakes hbits
            (by simpa [Stop.numbers, Fault.numbers] using htells)
        | @undefined reason hop hcompute =>
          cases reason with
          | unreadableInput | zeroModulus | underflow | asked => exact absurd Host.tells_nil htells
          | noInverse lhs rhs =>
            obtain ⟨hinv, ⟨rfl, rfl⟩, hzero, hgcd⟩ := compute_eq_noInverse_iff.1 hcompute
            exact .noInverse hreader hreach hi hsession hinv hzero hgcd
              (by simpa [Stop.numbers, Halt.numbers] using htells)

theorem Reaches.writes (h : Reaches l p reader rows m) (hp : p.Loaded) (hmodest : l.Modest host)
    (r : Int) : host.Writes (m.get r) := by
  have hzero : host.Writes (0 : Nat) := Host.writes_of_natAbs_lt (by decide)
  refine forall_get (P := fun v => host.Writes v) hzero (fun v hv => ?_) r
  refine (h.forall_values (P := fun v => host.Writes v) hzero hmodest.values fun v hv => ?_).1 v hv
  exact Host.writes_of_natAbs_lt (hp.constant_lt hv)

theorem not_untold_of_modest (hp : p.Loaded) (hmodest : l.Modest host) :
    ¬Untold host l p input := by
  rintro (⟨-, -, -, -, hwrites⟩ | ⟨-, -, -, -, -, -, hwrites⟩ | ⟨-, hreach, -, -, -, -, -, hwrites⟩)
  · exact hwrites hmodest.session
  · exact hwrites hmodest.registerBits
  · exact hwrites ⟨hreach.writes hp hmodest _, hreach.writes hp hmodest _⟩

theorem tells_of_isFault {imageId : Text} (hp : p.Loaded) (hsession : host.Writes l.session)
    (hbits : host.Writes l.registerBits) (hfault : (run l imageId p input).IsFault) :
    host.Tells (shown l p input) := by
  by_contra htells
  obtain ⟨cause, hcause⟩ := hfault
  rcases (untold_iff hp).2 htells with ⟨-, -, -, -, hwrites⟩ | ⟨-, -, -, -, -, -, hwrites⟩ |
    ⟨hreader, hreach, hi, hlt, hop, hzero, hgcd, -⟩
  · exact hwrites hsession
  · exact hwrites hbits
  · have hcompute := compute_eq_noInverse_iff.2 ⟨hop, ⟨rfl, rfl⟩, hzero, hgcd⟩
    rw [hreach.run_eq hp hreader
      (.stopped hi hlt (.undefined (congrArg Opcode.isBinary hop) hcompute))] at hcause
    cases hcause

/-- The code with which a run ends is a constant of the engine or one word of the program, so every
host writes it. -/
theorem writes_exitCode (hp : p.Loaded) (host : Host) (l : Limits) (imageId : Text)
    (input : Bytes) : host.Writes (run l imageId p input).exitCode.userCode := by
  have hsmall {n : Int} (hn : n ∈ [0, exitInputError, exitNotInvertible, exitZeroModulus,
      exitUnderflow]) : host.Writes n := by
    have hlt : ∀ n ∈ [0, exitInputError, exitNotInvertible, exitZeroModulus, exitUnderflow],
        n.natAbs < 0x100000000 := by decide
    exact Host.writes_of_natAbs_lt (hlt n hn)
  cases hreader : WordReader.ofBytes input with
  | error e =>
    rw [run_of_outcome (outcome_of_unreadable l p hreader)]
    exact hsmall (by simp [ended, Session.abnormalHalt, ExitCode.halted, Halt.code])
  | ok reader =>
    obtain ⟨rows, m, stop, hreach, hends, hrun⟩ := exists_run_eq_ended l imageId hp hreader
    rw [hrun]
    cases hends with
    | succeeds => exact hsmall (by simp [ended, Session.success, ExitCode.halted])
    | exhausted => exact hsmall (by simp [ended, Session.fault, Fault.exitCode])
    | @halts i hrows hi hop ha =>
      obtain ⟨a, b, c, ⟨hlt, -, -⟩, heq, -, -⟩ := (hp.fits hi).inWords
      refine Host.writes_of_natAbs_lt (n := i.a) ?_
      rwa [heq, Int.natAbs_natCast]
    | @stopped i s hi hsession hstops =>
      cases hstops with
      | unreadable =>
        exact hsmall (by simp [ended, Session.abnormalHalt, ExitCode.halted, Halt.code])
      | oversize => exact hsmall (by simp [ended, Session.fault, Fault.exitCode])
      | @undefined reason hop hcompute =>
        refine hsmall (n := reason.code) ?_
        cases reason with
        | asked code => exact absurd hcompute (compute_ne_asked code)
        | unreadableInput | noInverse | zeroModulus | underflow => simp [Halt.code]

/-- Two powers of two for which the standard limits leave room. The first has no inverse modulo the
second, and the standard host cannot write them. -/
theorem not_tells_powersOfTwo : ¬Host.standard.Tells
    (shown .standard Operation.modinv.program (encodeNats [2 ^ 14285, 2 ^ 14286])) := by
  decide +kernel

end Engine

end CircuitReceipts
