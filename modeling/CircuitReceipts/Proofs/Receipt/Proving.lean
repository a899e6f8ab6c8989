import CircuitReceipts.Proofs.Receipt.Options

/-!
# What is proved, and what the seal shows

A session that claims success may be forged: its rows need not come from any run, its registers from
any program, its journal from its rows. The check of the trace looks only at where the rows stand,
whether their operation codes exist, whether the last row ends the run, and what the rows append to
the journal. Nothing more is needed: once it has passed, no later step can fail, and the seal shows
the rows as they are.
-/

namespace CircuitReceipts

/-- Whether a row claims that an instruction was executed at a place. -/
structure Row.StandsFor (r : Row) (place : Nat) (i : Instruction) : Prop where
  cycle : r.cycle = place
  pc : r.pc = place
  repeats : r.repeats i = true

theorem Row.StandsFor.opcode {r : Row} {place : Nat} {i : Instruction} (h : r.StandsFor place i) :
    r.opcode = i.op.number :=
  (of_decide_eq_true h.repeats).1

namespace Session

variable {s : Session} {code : Code}

section Check

variable {rows : List Row} {start : Nat}

theorem of_instructionsFrom {is : List Instruction} (h : instructionsFrom start rows = .ok is) :
    is.length = rows.length ∧ ∀ (k : Nat) (row : Row), rows[k]? = some row →
      ∃ i, is[k]? = some i ∧ row.StandsFor (start + k) i := by
  induction rows generalizing start is with
  | nil =>
    cases h
    exact ⟨rfl, by simp⟩
  | cons r rows ih =>
    rw [instructionsFrom, guard_eq_ok, not_or, not_not, not_not] at h
    obtain ⟨⟨hcycle, hpc⟩, h⟩ := h
    split at h
    · cases h
    next op hop =>
    simp only [bind_eq_ok, pure_eq_ok] at h
    obtain ⟨rest, hrest, rfl⟩ := h
    obtain ⟨hlen, hrows⟩ := ih hrest
    refine ⟨by rw [List.length_cons, hlen, List.length_cons], fun k row hrow => ?_⟩
    cases k with
    | zero =>
      obtain rfl : r = row := Option.some.inj hrow
      refine ⟨_, rfl, hcycle, hpc, ?_⟩
      simp [Row.repeats, Opcode.eq_of_ofNumber? hop]
    | succ k =>
      obtain ⟨i, hi, hstands⟩ := hrows k row hrow
      rw [Nat.add_assoc, Nat.add_comm 1] at hstands
      exact ⟨i, hi, hstands⟩

/-- Rows that do not pass the check have among them one out of place or without an operation
code, and this is the row whose numbers the error shows. -/
theorem exists_of_instructionsFrom_error {e : ProvingError}
    (h : instructionsFrom start rows = .error e) :
    ∃ (k : Nat) (row : Row), rows[k]? = some row ∧
      ((row.cycle ≠ (start + k : Nat) ∨ row.pc ≠ (start + k : Nat)) ∨
        ¬(1 ≤ row.opcode ∧ row.opcode ≤ 9)) ∧ ∀ n ∈ e.numbers, n ∈ row.header := by
  induction rows generalizing start e with
  | nil => cases h
  | cons r rows ih =>
    rw [instructionsFrom] at h
    split at h
    · next hplace =>
      cases h
      exact ⟨0, r, rfl, .inl hplace, by simp [ProvingError.numbers, Row.header]⟩
    split at h
    · next hop =>
      cases h
      refine ⟨0, r, rfl, .inr fun hrange => ?_, by simp [ProvingError.numbers, Row.header]⟩
      obtain ⟨op, hop'⟩ := Opcode.exists_ofNumber?_iff.2 hrange
      rw [hop] at hop'
      cases hop'
    · cases hrest : instructionsFrom (start + 1) rows with
      | ok rest =>
        rw [hrest] at h
        cases h
      | error e' =>
        rw [hrest] at h
        cases h
        obtain ⟨k, row, hrow, hwrong, hnumbers⟩ := ih hrest
        rw [Nat.add_assoc, Nat.add_comm 1] at hwrong
        exact ⟨k + 1, row, hrow, hwrong, hnumbers⟩

end Check

/-- What keeps a session from being proved that claims success. -/
inductive Unprovable (s : Session) : Prop where
  | empty (h : s.trace = [])
  | misplaced {i : Nat} {row : Row} (hrow : s.trace[i]? = some row) (h : row.cycle ≠ i ∨ row.pc ≠ i)
  | badOpcode {i : Nat} {row : Row} (hrow : s.trace[i]? = some row)
      (h : ¬(1 ≤ row.opcode ∧ row.opcode ≤ 9))
  | noFinalHalt {last : Row} (hlast : s.trace.getLast? = some last)
      (h : ¬(last.opcode = Opcode.halt.number ∧ last.a = 0))
  | journalMismatch
      (h : s.journal ≠ (s.trace.filter Row.appends).flatMap fun row => encodeNat row.value.toNat)

/-- Whether the rows of a session claim that just the instructions of code were executed. -/
structure Ran (s : Session) (code : Code) : Prop where
  size : code.size = s.trace.length
  standsFor : ∀ (pc : Nat) (row : Row), s.trace[pc]? = some row →
    ∃ i, code[pc]? = some i ∧ row.StandsFor pc i

theorem committed_eq (hnatural : ∀ row ∈ s.trace, 0 ≤ row.value) : committed s.trace =
    .ok ((s.trace.filter Row.appends).flatMap fun row => encodeNat row.value.toNat) := by
  rw [committed_of_nonneg hnatural, encodeNats, List.flatMap_map]

/-- The code that passes the check is that of the rows, and nothing keeps the session from being
proved. -/
theorem of_checkedCode (hnatural : ∀ row ∈ s.trace, 0 ≤ row.value)
    (h : checkedCode s.trace s.journal = .ok code) : ¬s.Unprovable ∧ s.Ran code := by
  rw [checkedCode] at h
  split at h
  · cases h
  next last hlast =>
  simp only [committed_eq hnatural, mapError_ok, ok_bind, bind_eq_ok, mapError_eq_ok, throw_bind,
    guard_eq_ok, pure_eq_ok] at h
  obtain ⟨is, his, hends, hjournal, rfl⟩ := h
  obtain ⟨hlen, hrows⟩ := of_instructionsFrom his
  have hran : s.Ran is.toArray := by
    refine ⟨hlen, fun pc row hrow => ?_⟩
    obtain ⟨i, hi, hstands⟩ := hrows pc row hrow
    rw [Nat.zero_add] at hstands
    exact ⟨i, by simpa using hi, hstands⟩
  refine ⟨?_, hran⟩
  rintro (hempty | ⟨hrow, hplace⟩ | ⟨hrow, hrange⟩ | ⟨hlast', hhalt⟩ | hmismatch)
  · rw [hempty] at hlast
    cases hlast
  · obtain ⟨i, -, hstands⟩ := hran.standsFor _ _ hrow
    exact hplace.elim (absurd hstands.cycle) (absurd hstands.pc)
  · obtain ⟨i, -, hstands⟩ := hran.standsFor _ _ hrow
    rw [hstands.opcode] at hrange
    exact hrange (Opcode.exists_ofNumber?_iff.1 ⟨i.op, Opcode.ofNumber?_number i.op⟩)
  · obtain rfl := Option.some.inj (hlast.symm.trans hlast')
    rw [Bool.not_eq_true', Bool.not_eq_false, Row.endsWell_iff] at hends
    exact hhalt hends
  · exact hmismatch (not_not.1 hjournal).symm

/-- A check that fails names what keeps the session from being proved. -/
theorem of_checkedCode_error (hnatural : ∀ row ∈ s.trace, 0 ≤ row.value) {e : ProveError}
    (h : checkedCode s.trace s.journal = .error e) :
    s.Unprovable ∧ ∃ reason, e = .proving reason ∧
      ∀ n ∈ reason.numbers, ∃ row ∈ s.trace, n ∈ row.header := by
  rw [checkedCode] at h
  split at h
  · next hlast =>
    cases h
    exact ⟨.empty (List.getLast?_eq_none_iff.1 hlast), _, rfl, by simp [ProvingError.numbers]⟩
  next last hlast =>
  simp only [committed_eq hnatural, mapError_ok, ok_bind, throw_bind] at h
  cases his : instructionsFrom 0 s.trace with
  | error reason =>
    rw [his] at h
    cases h
    obtain ⟨k, row, hrow, hwrong, hnumbers⟩ := exists_of_instructionsFrom_error his
    have hshown : ∀ n ∈ reason.numbers, ∃ row ∈ s.trace, n ∈ row.header :=
      fun n hn => ⟨row, List.mem_of_getElem? hrow, hnumbers n hn⟩
    rcases hwrong with hplace | hrange
    · rw [Nat.zero_add] at hplace
      exact ⟨.misplaced hrow hplace, reason, rfl, hshown⟩
    · exact ⟨.badOpcode hrow hrange, reason, rfl, hshown⟩
  | ok is =>
    rw [his, mapError_ok, ok_bind] at h
    split at h
    · next hends =>
      cases h
      rw [Bool.not_eq_true', Bool.eq_false_iff, Ne, Row.endsWell_iff] at hends
      exact ⟨.noFinalHalt hlast hends, _, rfl, by simp [ProvingError.numbers]⟩
    split at h
    · next hmismatch =>
      cases h
      exact ⟨.journalMismatch (Ne.symm hmismatch), _, rfl, by simp [ProvingError.numbers]⟩
    · cases h

theorem Ran.length_le (hran : s.Ran code) (hplain : ∀ row ∈ s.trace, row.Plain) :
    s.trace.length ≤ 0x100000000 := by
  cases hlast : s.trace[s.trace.length - 1]? with
  | none =>
    rw [List.getElem?_eq_none_iff] at hlast
    omega
  | some row =>
    obtain ⟨i, -, hstands⟩ := hran.standsFor _ row hlast
    have hplace := hstands.cycle
    have hword := (hplain row (List.mem_of_getElem? hlast)).header row.cycle (by simp [Row.header])
    omega

end Session

namespace Session

variable {s : Session} {o : ProverOptions} {code : Code} {id : Bytes}
  {queries children minimum : Int}

/-- A session that claims success, forged or not, is refused exactly if it has no rows, a row is out
of its place or names no operation code, the last row does not end the run well, or the journal is
not what the rows append to it. Any other is proved, and its seal shows it; only a minimum for which
the padded length cannot be held stands in the way. -/
theorem proved_unless_unprovable (host : Host) (hsuccess : s.ending = .success)
    (hplain : ∀ row ∈ s.trace, row.Plain) (hid : Bytes.ofHex? s.imageId = some id)
    (hchecked : o.Checked) (hqueries : o.queries.integer? = some queries)
    (harity : o.arity.integer? = some children) (hminimum : o.minPo2.integer? = some minimum) :
    ((∃ reason, s.prove host o = .error (.proving reason)) ↔ s.Unprovable) ∧
    (¬s.Unprovable →
      (exponentRoom ≤ minimum →
        s.prove host o = .error (.misuse .tooLarge) ∨ s.prove host o = .error (.misuse .noRoom)) ∧
      (minimum < exponentRoom → ∃ code proof shown, s.Ran code ∧ s.prove host o = .ok proof ∧
        proof.receipt.imageId = s.imageId ∧ proof.receipt.journal = s.journal ∧
        Seal.ofBytes proof.receipt.evidence = .ok shown ∧ shown.Shows s o code ∧
        IsLeast {p : Int | max minimum 0 ≤ p ∧ s.trace.length ≤ 2 ^ p.toNat} shown.po2 ∧
        proof.stats.userCycles = s.trace.length ∧ proof.stats.po2.integer? = some shown.po2 ∧
        proof.stats.totalCycles = 2 ^ shown.po2.toNat)) := by
  have hnatural : ∀ row ∈ s.trace, 0 ≤ row.value := by
    intro row hrow
    obtain ⟨n, hn, -⟩ := (hplain row hrow).values row.value (by simp [Row.values])
    omega
  cases hcode : checkedCode s.trace s.journal with
  | error e =>
    obtain ⟨hunprovable, reason, rfl, hshown⟩ := of_checkedCode_error hnatural hcode
    -- the numbers in the message are those of a header, which every host writes
    have htells : host.Tells reason.numbers := by
      intro n hn
      obtain ⟨row, hrow, hheader⟩ := hshown n hn
      have hword := (hplain row hrow).header n hheader
      exact Host.writes_of_natAbs_lt (by omega)
    have hattest : s.attest o = .error (.proving reason) := by
      rw [attest, if_neg (not_not.2 hsuccess), hcode]
      rfl
    have hprove : s.prove host o = .error (.proving reason) := by
      rw [prove, hattest, mapError_error, ProveError.told, if_pos htells]
    exact ⟨iff_of_true ⟨reason, hprove⟩ hunprovable, fun h => absurd hunprovable h⟩
  | ok code =>
    obtain ⟨hprovable, hran⟩ := of_checkedCode hnatural hcode
    have hpos : 0 < s.trace.length := List.length_pos_iff.2 fun h => hprovable (.empty h)
    obtain ⟨arity, hsize⟩ := hchecked.exists_arity harity
    obtain ⟨po2, hpo2, hinteger⟩ := exists_paddedExponent hminimum s.trace.length
    obtain ⟨evidence, shown, hattest, hseal, hshows, hexponent⟩ := exists_evidence hsuccess hplain
      (hran.length_le hplain) hid hqueries (hchecked.range hqueries) harity hsize hcode hran.size
      (hran.size ▸ hpos) hpo2 hinteger
    have hprove := congrArg (Except.mapError (ProveError.told host)) hattest
    rw [← prove] at hprove
    rw [← hexponent] at hinteger
    have hnever : ¬∃ reason, s.prove host o = .error (.proving reason) := by
      rintro ⟨reason, herror⟩
      rw [hprove] at herror
      cases hlength : paddedLength po2 <;> rw [hlength] at herror <;> cases herror
    refine ⟨iff_of_false hnever hprovable, fun _ => ⟨fun hroom => ?_, fun hroom => ?_⟩⟩
    · have hroom' : exponentRoom ≤ shown.po2 := by omega
      rcases paddedLength_of_le hinteger hroom' with hlength | hlength
      · exact .inl (by rw [hprove, hlength]; rfl)
      · exact .inr (by rw [hprove, hlength]; rfl)
    · have hleast := leastExponent_le (hran.length_le hplain)
      have hroom' : shown.po2 < exponentRoom := by
        rw [exponentRoom] at hroom ⊢
        omega
      rw [paddedLength_of_lt hinteger hroom'] at hprove
      refine ⟨code, _, shown, hran, hprove, rfl, rfl, hseal, hshows, ?_, rfl, hinteger, rfl⟩
      rw [hexponent]
      exact isLeast_exponent hpos minimum

/-- A forged session of two rows, which no run leaves: nothing has written the register that is
committed, and the last row has a value. It is proved, but with another journal it is not. -/
theorem proved_unless_unprovable_forged :
    let rows : List Row := [⟨0, 0, 8, 7, 0, 0, 3, 1, 5⟩, ⟨1, 1, 9, 0, 2, 6, 9, 3, 4⟩]
    let s := success "ab\tCD" rows (encodeNat 5)
    let s' := success "ab\tCD" rows []
    (∃ code proof shown, s.Ran code ∧ s.prove .standard .fast = .ok proof ∧
      Seal.ofBytes proof.receipt.evidence = .ok shown ∧ shown.Shows s .fast code ∧
      shown.po2 = 4) ∧
    ∃ reason, s'.prove .standard .fast = .error (.proving reason) := by
  intro rows s s'
  have hplain : ∀ row ∈ rows, row.Plain := by
    refine List.forall_mem_cons.2 ⟨?_, List.forall_mem_cons.2 ⟨?_, by simp⟩⟩
    · exact Row.plain_of_lt (by decide) (by decide)
    · exact Row.plain_of_lt (by decide) (by decide)
  have hid : Bytes.ofHex? "ab\tCD" = some [0xAB, 0xCD] := by decide
  have hchecked := ProverOptions.valid_fast.checked
  constructor
  · have hprovable : ¬s.Unprovable := by
      have hcode : (checkedCode s.trace s.journal).toOption.isSome = true := by decide +kernel
      cases h : checkedCode s.trace s.journal with
      | ok code => exact (of_checkedCode (by decide) h).1
      | error e => simp [h, Except.toOption] at hcode
    obtain ⟨code, proof, shown, hran, hprove, -, -, hseal, hshows, hleast, -⟩ :=
      ((proved_unless_unprovable .standard (s := s) rfl hplain hid hchecked rfl rfl rfl).2
        hprovable).2 (by decide)
    have hfour : IsLeast {p : Int | max 4 0 ≤ p ∧ s.trace.length ≤ 2 ^ p.toNat} 4 :=
      isLeast_exponent (show 0 < 2 by decide) 4
    exact ⟨code, proof, shown, hran, hprove, hseal, hshows, hleast.unique hfour⟩
  · have hunprovable : s'.Unprovable := .journalMismatch (by decide +kernel)
    exact (proved_unless_unprovable .standard (s := s') rfl hplain hid hchecked rfl rfl rfl).1.2
      hunprovable

end Session

end CircuitReceipts
