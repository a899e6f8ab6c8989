import CircuitReceipts.Proofs.Engine.Step
import CircuitReceipts.Proofs.Host

/-!
# Runs of the engine

A whole run is followed by induction on the instructions left. Whatever its end, its rows are those
of consistent values, its journal is what they commit, and it has read a prefix of its input; and
where values are consistent up to a position and the input begins with those that are read, a run
either reaches that position with just these values or is stopped by a limit.
-/

namespace CircuitReceipts

namespace Code

/-- The rows of a whole run under given values. -/
def rows (code : Code) (values : Nat → Nat) : List Row :=
  code.toList.mapIdx (code.rowOf values)

variable {code : Code} {values : Nat → Nat}

theorem getElem?_rows (pc : Nat) :
    (code.rows values)[pc]? = code[pc]?.map (code.rowOf values pc) := by
  rw [rows, List.getElem?_mapIdx, Array.getElem?_toList]

@[simp] theorem length_rows : (code.rows values).length = code.size := by
  simp [rows]

theorem take_rows_concat {pc : Nat} {i : Instruction} (hi : code[pc]? = some i) :
    (code.rows values).take pc ++ [code.rowOf values pc i] = (code.rows values).take (pc + 1) := by
  rw [List.take_add_one, getElem?_rows, hi]
  rfl

@[simp] theorem value_rowOf (pc : Nat) (i : Instruction) :
    (code.rowOf values pc i).value = values pc := by
  rw [rowOf]
  split <;> rfl

end Code

/-- Whether limits allow a run of `n` instructions that produce the given values. -/
def Limits.Allow (l : Limits) (values : Nat → Nat) (n : Nat) : Prop :=
  (n : Int) ≤ l.session ∧ ∀ k < n, (bitLength (values k) : Int) ≤ l.registerBits

theorem Limits.exists_allow (values : Nat → Nat) (n : Nat) :
    ∃ enough : Int, ∀ l : Limits, enough ≤ l.session → enough ≤ l.registerBits →
      l.Allow values n := by
  induction n with
  | zero => exact ⟨0, fun l hsession _ => ⟨hsession, fun k hk => absurd hk (Nat.not_lt_zero k)⟩⟩
  | succ n ih =>
    obtain ⟨enough, h⟩ := ih
    refine ⟨max enough (max (n + 1 : Nat) (bitLength (values n))), fun l hsession hbits => ?_⟩
    obtain ⟨-, hvalues⟩ := h l (by omega) (by omega)
    refine ⟨by omega, fun k hk => ?_⟩
    rcases Nat.lt_succ_iff_lt_or_eq.1 hk with hlt | rfl
    · exact hvalues k hlt
    · omega

/-- Whether a session was stopped by a fault. -/
def Session.IsFault (s : Session) : Prop :=
  ∃ cause, s.ending = .fault cause

namespace Engine

variable {l : Limits} {p : Program} {values : Nat → Nat} {stream : List UInt32}

/-- What the rows from `pc` on, the journal and the input of a run are under given values. -/
structure Follows (p : Program) (values : Nat → Nat) (stream : List UInt32) (pc : Nat)
    (taken : List Row) (written : Bytes) : Prop where
  le_size : pc + taken.length ≤ p.size
  rows : ∀ {j : Nat} {row : Row}, taken[j]? = some row → ∃ i, p.code[pc + j]? = some i ∧
    row = p.code.rowOf values (pc + j) i ∧ p.code.Produces values (pc + j) i
  journal : written = encodeNats ((p.code.positions .commit (pc + taken.length)).map values)
  input : ∃ tail, stream =
    wordsOfNats ((p.code.positions .read (pc + taken.length)).map values) ++ tail

/-- A run that takes no step has done what the machine holds. -/
theorem Follows.nil {pc : Nat} {m : Machine} (hpc : pc ≤ p.size)
    (hm : m.Holds p.code values p.registers stream pc) : Follows p values stream pc [] m.journal :=
  ⟨hpc, fun h => absurd h (by simp), hm.journal, _, hm.input⟩

/-- A step under the values, and then a run that follows them. -/
theorem Follows.cons {pc : Nat} {i : Instruction} {row : Row} {rows : List Row} {written : Bytes}
    (hi : p.code[pc]? = some i) (hrow : row = p.code.rowOf values pc i)
    (hproduces : p.code.Produces values pc i)
    (h : Follows p values stream (pc + 1) rows written) :
    Follows p values stream pc (row :: rows) written := by
  have hlen : pc + (row :: rows).length = pc + 1 + rows.length := by
    rw [List.length_cons]
    omega
  refine ⟨?_, fun {j r} hj => ?_, ?_, ?_⟩
  · rw [hlen]
    exact h.le_size
  · cases j with
    | zero =>
      cases hj
      exact ⟨i, hi, hrow, hproduces⟩
    | succ j =>
      rw [Nat.add_comm j 1, ← Nat.add_assoc]
      exact h.rows hj
  · rw [hlen]
    exact h.journal
  · rw [hlen]
    exact h.input

theorem Follows.eq_rows {rows : List Row} {written : Bytes}
    (h : Follows p values stream 0 rows written) (hlen : rows.length = p.size) :
    rows = p.code.rows values := by
  refine List.ext_getElem? fun j => ?_
  rw [Code.getElem?_rows]
  cases hj : rows[j]? with
  | none =>
    have hle := List.getElem?_eq_none_iff.1 hj
    rw [Array.getElem?_eq_none (by simpa [Program.size, hlen] using hle)]
    rfl
  | some row =>
    obtain ⟨i, hi, hrow, -⟩ := h.rows hj
    rw [Nat.zero_add] at hi hrow
    rw [hi, hrow]
    rfl

theorem of_drop_eq_cons {pc : Nat} {i : Instruction} {rest : List Instruction}
    (h : i :: rest = p.code.toList.drop pc) :
    p.code[pc]? = some i ∧ rest = p.code.toList.drop (pc + 1) := by
  constructor
  · rw [← Array.getElem?_toList, ← List.head?_drop, ← h]
    rfl
  · rw [← List.tail_drop, ← h]
    rfl

/-- A run follows the values of its rows. It ends without a reason to stop only at the end of the
program, with a successful halt. -/
theorem runFrom_sound (hp : p.Loaded) {rest : List Instruction} :
    ∀ {pc : Nat} {m : Machine} {rows : List Row} {journal : Bytes} {stop : Option Stop},
      rest = p.code.toList.drop pc → pc ≤ p.size →
      m.Holds p.code values p.registers stream pc →
      runFrom l m pc rest = (rows, journal, stop) →
      (∀ {j : Nat} {row : Row}, rows[j]? = some row → row.value.toNat = values (pc + j)) →
      Follows p values stream pc rows journal ∧
        (stop = none → pc + rows.length = p.size ∧
          ∀ {k : Nat} {i : Instruction}, p.code[k]? = some i → pc ≤ k → i.op = .halt →
            i.a = 0) := by
  induction rest with
  | nil =>
    intro pc m rows journal stop hrest hpc hm hrun hvalues
    rw [runFrom] at hrun
    cases hrun
    have hend : p.size ≤ pc := by simpa [Program.size] using hrest.symm
    refine ⟨.nil hpc hm, fun _ => ⟨by simp; omega, fun {k i} hi hk _ => ?_⟩⟩
    have hlt : k < p.size := (Array.getElem?_eq_some_iff.1 hi).1
    omega
  | cons i rest ih =>
    intro pc m rows journal stop hrest hpc hm hrun hvalues
    obtain ⟨hi, hrest'⟩ := of_drop_eq_cons hrest
    have hlt : pc < p.size := (Array.getElem?_eq_some_iff.1 hi).1
    rw [runFrom] at hrun
    split at hrun
    · cases hrun
      exact ⟨.nil hpc hm, fun h => absurd h (by simp)⟩
    split at hrun
    · cases hrun
      exact ⟨.nil hpc hm, fun h => absurd h (by simp)⟩
    next row m' hstep =>
    split at hrun
    · next hop =>
      cases hrun
      have hlast : pc + 1 = p.size := (hp.halt_iff hi).1 hop
      obtain ⟨hrow, hproduces, hm'⟩ := step_sound hi (hp.fits hi) hm hstep (hvalues (j := 0) rfl)
      refine ⟨.cons hi hrow hproduces (.nil hlt hm'), fun hstop => ⟨hlast, ?_⟩⟩
      intro k i' hi' hk hop'
      have hk' := (hp.halt_iff hi').1 hop'
      obtain rfl : k = pc := by omega
      rw [hi] at hi'
      cases hi'
      by_contra ha
      simp [ha] at hstop
    · next hop =>
      cases hrun' : runFrom l m' (pc + 1) rest with
      | mk rows' tail =>
      obtain ⟨journal', stop'⟩ := tail
      rw [hrun'] at hrun
      cases hrun
      obtain ⟨hrow, hproduces, hm'⟩ := step_sound hi (hp.fits hi) hm hstep (hvalues (j := 0) rfl)
      have hvalues' {j : Nat} {r : Row} (hj : rows'[j]? = some r) :
          r.value.toNat = values (pc + 1 + j) := by
        rw [Nat.add_right_comm, Nat.add_assoc]
        exact hvalues (j := j + 1) hj
      obtain ⟨hfollows, hend⟩ := ih hrest' hlt hm' hrun' hvalues'
      refine ⟨.cons hi hrow hproduces hfollows, fun hstop => ⟨?_, ?_⟩⟩
      · rw [List.length_cons, Nat.add_comm rows'.length, ← Nat.add_assoc]
        exact (hend hstop).1
      · intro k i' hi' hk hop'
        rcases Nat.eq_or_lt_of_le hk with rfl | hk
        · rw [hi] at hi'
          cases hi'
          exact absurd hop' hop
        · exact (hend hstop).2 hi' hk hop'

theorem drop_eq_cons {pc : Nat} {i : Instruction} (hi : p.code[pc]? = some i) :
    p.code.toList.drop pc = i :: p.code.toList.drop (pc + 1) := by
  rw [List.drop_eq_getElem_cons (by simpa using (Array.getElem?_eq_some_iff.1 hi).1)]
  congr 1
  have := (Array.getElem?_eq_some_iff.1 hi).2
  simpa using this

theorem exists_last (hp : p.Loaded) : ∃ i, p.code[p.size - 1]? = some i ∧ i.op = .halt := by
  have hlast : p.size - 1 < p.size := Nat.sub_lt hp.size_pos Nat.one_pos
  obtain ⟨i, hi⟩ := Code.exists_instruction hlast
  exact ⟨i, hi, (hp.halt_iff hi).2 (Nat.sub_add_cancel hp.size_pos)⟩

/-- Whether the words of an input begin with the values that the reading positions below `n` take
in. -/
structure Supplies (p : Program) (values : Nat → Nat) (stream : List UInt32) (n : Nat) : Prop where
  writable : ∀ k ∈ p.code.positions .read n, Writable (values k)
  input : ∃ tail, stream = wordsOfNats ((p.code.positions .read n).map values) ++ tail

/-- The words of the values that the reading positions below `n` take in supply them. -/
theorem supplies_words {n : Nat}
    (hwritable : ∀ v ∈ (p.code.positions .read n).map values, Writable v) :
    Supplies p values (wordsOfNats ((p.code.positions .read n).map values)) n :=
  ⟨fun _ hk => hwritable _ (List.mem_map_of_mem hk), [], (List.append_nil _).symm⟩

/-- A machine that holds the values finds the next one to be read at the front of its input. -/
theorem Supplies.next {n pc : Nat} {m : Machine} {i : Instruction}
    (h : Supplies p values stream n) (hm : m.Holds p.code values p.registers stream pc)
    (hi : p.code[pc]? = some i) (hn : pc < n) (hop : i.op = .read) :
    Writable (values pc) ∧ ∃ tail, m.input.rest = wordsOfNat (values pc) ++ tail := by
  have hmem : pc ∈ p.code.positions .read n := by
    rw [Code.mem_positions, hi]
    exact ⟨hn, by simp [hop]⟩
  refine ⟨h.writable pc hmem, ?_⟩
  obtain ⟨tail, htail⟩ := h.input
  obtain ⟨more, hmore⟩ := p.code.positions_prefix .read (Nat.succ_le_of_lt hn)
  rw [hmore, Code.positions_succ hi, if_pos hop, hm.input] at htail
  simp only [List.map_append, wordsOfNats_append, List.append_assoc, List.append_cancel_left_eq,
    List.map_cons, List.map_nil, wordsOfNats_cons, wordsOfNats_nil, List.nil_append] at htail
  exact ⟨_, htail⟩

def Faulted (r : List Row × Bytes × Option Stop) : Prop :=
  ∃ cause, r.2.2 = some (.fault cause)

/-- Where values are consistent at the next positions and the input begins with those to be read, a
run gets past these positions with just these values, unless a limit stops it. -/
theorem runFrom_reaches (hp : p.Loaded) {n : Nat} (hn : n < p.size)
    (hsupplies : Supplies p values stream n) (hvalues : ∀ k < n, p.code.Consistent values k)
    (steps : Nat) :
    ∀ {pc : Nat} {m : Machine}, pc + steps = n → m.Holds p.code values p.registers stream pc →
      (∃ m', m'.Holds p.code values p.registers stream n ∧
        runFrom l m pc (p.code.toList.drop pc) =
          (((p.code.rows values).drop pc).take steps ++
            (runFrom l m' n (p.code.toList.drop n)).1,
            (runFrom l m' n (p.code.toList.drop n)).2)) ∨
      (¬l.Allow values n ∧ Faulted (runFrom l m pc (p.code.toList.drop pc))) := by
  induction steps with
  | zero =>
    rintro pc m rfl hm
    exact .inl ⟨m, hm, by simp⟩
  | succ steps ih =>
    rintro pc m hpc hm
    have hlt : pc < n := by omega
    obtain ⟨i, hi, hproduces⟩ := hvalues pc hlt
    have hhalt : i.op ≠ .halt := by
      intro hop
      have := (hp.halt_iff hi).1 hop
      omega
    rw [drop_eq_cons hi, runFrom]
    split
    · next hsession =>
      refine .inr ⟨fun h => ?_, _, rfl⟩
      have := h.1
      omega
    rcases step_of_produces l (hp.fits hi) hm hproduces (hsupplies.next hm hi hlt) with
      ⟨m₁, hstep⟩ | ⟨hbits, cause, hstep⟩
    · obtain ⟨-, -, hm₁⟩ := step_sound hi (hp.fits hi) hm hstep (by simp)
      simp only [hstep]
      have hrow : (p.code.rows values)[pc]? = some (p.code.rowOf values pc i) := by
        rw [Code.getElem?_rows, hi]
        rfl
      obtain ⟨hpos, hget⟩ := List.getElem?_eq_some_iff.1 hrow
      rw [List.drop_eq_getElem_cons hpos, hget, List.take_succ_cons]
      rcases ih (by omega) hm₁ with ⟨m', hm', hrun⟩ | ⟨hlimit, cause, hfault⟩
      · exact .inl ⟨m', hm', by rw [hrun]; rfl⟩
      · exact .inr ⟨hlimit, cause, hfault⟩
    · simp only [hstep]
      refine .inr ⟨fun h => ?_, cause, rfl⟩
      have := h.2 pc hlt
      omega

variable {imageId : Text} {input : Bytes} {reader : WordReader}

theorem outcome_eq (l : Limits) (p : Program) (hreader : WordReader.ofBytes input = .ok reader) :
    outcome l p input = runFrom l (.start p.registers.toNat reader) 0 p.code.toList := by
  rw [outcome, hreader, Program.code]

theorem outcome_of_unreadable {e : DecodeError} (l : Limits) (p : Program)
    (hreader : WordReader.ofBytes input = .error e) :
    outcome l p input = ([], [], some (.halt .unreadableInput)) := by
  rw [outcome, hreader]

section Outcome

variable {rows : List Row} {journal : Bytes} {stop : Option Stop} {a : Artifact}

theorem run_of_outcome (h : outcome l p input = (rows, journal, stop)) :
    run l imageId p input = ended imageId rows journal stop := by
  rw [run, h]

@[simp] theorem trace_ended (rows : List Row) (journal : Bytes) (stop : Option Stop) :
    (ended imageId rows journal stop).trace = rows := by
  rcases stop with _ | _ | _ <;> rfl

theorem trace_run : (run l imageId p input).trace = (outcome l p input).1 :=
  trace_ended _ _ _

theorem isFault_of_faulted (imageId : Text) (h : Faulted (outcome l p input)) :
    (run l imageId p input).IsFault := by
  obtain ⟨cause, hcause⟩ := h
  cases houtcome : outcome l p input with
  | mk rows tail =>
  obtain ⟨journal, stop⟩ := tail
  rw [houtcome] at hcause
  obtain rfl : stop = some (.fault cause) := hcause
  rw [run_of_outcome houtcome]
  exact ⟨cause, rfl⟩

theorem shown_of_outcome (h : outcome l p input = (rows, journal, stop)) :
    shown l p input = stop.elim [] Stop.numbers := by
  rw [shown, h]

theorem shown_of_success (hending : (run l imageId p input).ending = .success) :
    shown l p input = [] := by
  cases h : outcome l p input with
  | mk rows tail =>
  obtain ⟨journal, _ | reason | cause⟩ := tail
  · exact shown_of_outcome h
  · rw [run_of_outcome h] at hending
    cases hending
  · rw [run_of_outcome h] at hending
    cases hending

theorem shown_of_halt {reason : Halt}
    (h : outcome l p input = (rows, journal, some (.halt reason))) :
    shown l p input = reason.numbers :=
  shown_of_outcome h

theorem shown_of_fault {cause : Fault} (hending : (run l imageId p input).ending = .fault cause) :
    shown l p input = cause.numbers := by
  cases h : outcome l p input with
  | mk rows tail =>
  obtain ⟨journal, _ | reason | fault⟩ := tail <;> rw [run_of_outcome h] at hending <;>
    cases hending
  exact shown_of_outcome h

/-- The session of an artifact that loads is that of its program, on a host that can write what is
to be said about its end. -/
theorem execute_of_load (hload : Program.load a.blob = .ok p) (host : Host) (l : Limits)
    (input : Bytes) : execute host l a input =
      if host.Tells (shown l p input) then .ok (run l a.imageId p input)
      else .error (.misuse .tooManyDigits) := by
  rw [execute, hload, mapError_ok, ok_bind]
  rfl

theorem execute_of_tells {host : Host} (hload : Program.load a.blob = .ok p)
    (htells : host.Tells (shown l p input)) :
    execute host l a input = .ok (run l a.imageId p input) := by
  rw [execute_of_load hload, if_pos htells]

theorem execute_of_success {host : Host} (hload : Program.load a.blob = .ok p)
    (hending : (run l a.imageId p input).ending = .success) :
    execute host l a input = .ok (run l a.imageId p input) :=
  execute_of_tells hload (by rw [shown_of_success hending]; exact Host.tells_nil)

theorem execute_eq_ok_iff_of_load {host : Host} {s : Session}
    (hload : Program.load a.blob = .ok p) :
    execute host l a input = .ok s ↔
      host.Tells (shown l p input) ∧ run l a.imageId p input = s := by
  rw [execute_of_load hload]
  split <;> simp [*]

theorem execute_eq_success_iff {host : Host} (hload : Program.load a.blob = .ok p) :
    execute host l a input = .ok (.success imageId rows journal) ↔
      run l a.imageId p input = .success imageId rows journal := by
  refine (execute_eq_ok_iff_of_load hload).trans (and_iff_right_of_imp fun hrun => ?_)
  have hending : (run l a.imageId p input).ending = .success := by
    rw [hrun]
    rfl
  rw [shown_of_success hending]
  exact Host.tells_nil

/-- The session of an artifact is that of the run of the program that it holds. -/
theorem execute_eq_ok_iff {host : Host} {s : Session} : execute host l a input = .ok s ↔
    ∃ p, Program.load a.blob = .ok p ∧ host.Tells (shown l p input) ∧
      run l a.imageId p input = s := by
  cases hload : Program.load a.blob with
  | error e => simp [execute, hload]
  | ok p => simp [execute_eq_ok_iff_of_load hload]

end Outcome

/-- Whether the last instruction of a program ends a run with code zero. -/
def EndsWell (p : Program) : Prop :=
  ∃ i, p.code[p.size - 1]? = some i ∧ i.op = .halt ∧ i.a = 0

theorem exitCode_of_isFault (h : (run l imageId p input).IsFault) (code : Int) :
    (run l imageId p input).exitCode ≠ .halted code := by
  obtain ⟨cause, hcause⟩ := h
  cases houtcome : outcome l p input with
  | mk rows tail =>
  obtain ⟨journal, stop⟩ := tail
  rw [run_of_outcome houtcome] at hcause ⊢
  rcases stop with _ | ⟨reason⟩ | ⟨fault⟩
  · cases hcause
  · cases hcause
  · cases fault <;> exact fun heq => absurd (congrArg ExitCode.kind heq) ExitKind.noConfusion

/-- A successful run of a program has executed every instruction: its rows are those of the values
it produced, which are consistent throughout, and its journal is what they commit. -/
theorem of_run_success (hp : p.Loaded) {s : Session} (hs : run l imageId p input = s)
    (hending : s.ending = .success) :
    EndsWell p ∧ ∃ values : Nat → Nat,
      s = .success imageId (p.code.rows values) (encodeNats (p.code.commits.map values)) ∧
        ∀ pc < p.size, p.code.Consistent values pc := by
  cases houtcome : outcome l p input with
  | mk rows tail =>
  obtain ⟨journal, stop⟩ := tail
  rw [run_of_outcome houtcome] at hs
  cases hreader : WordReader.ofBytes input with
  | error e =>
    rw [outcome_of_unreadable l p hreader] at houtcome
    cases houtcome
    subst hs
    cases hending
  | ok reader =>
  have hrun := houtcome
  rw [outcome_eq l p hreader] at hrun
  let values (k : Nat) : Nat := ((rows[k]?.map Row.value).getD 0).toNat
  have hvalues {j : Nat} {row : Row} (hj : rows[j]? = some row) :
      row.value.toNat = values (0 + j) := by simp [values, hj]
  obtain ⟨hfollows, hend⟩ := runFrom_sound hp rfl (Nat.zero_le _)
    (Machine.holds_start p.registers reader) hrun hvalues
  match stop with
  | some (.halt reason) =>
    subst hs
    cases hending
  | some (.fault cause) =>
    subst hs
    cases hending
  | none =>
    subst hs
    obtain ⟨hlen, hhalt⟩ := hend rfl
    rw [Nat.zero_add] at hlen
    have hrows : rows = p.code.rows values := hfollows.eq_rows hlen
    refine ⟨?_, values, ?_, fun pc hpc => ?_⟩
    · obtain ⟨i, hi, hop⟩ := exists_last hp
      exact ⟨i, hi, hop, hhalt hi (Nat.zero_le _) hop⟩
    · have hjournal := hfollows.journal
      rw [Nat.zero_add, hlen] at hjournal
      rw [← hrows, Code.commits_eq_positions, hjournal]
      rfl
    · obtain ⟨i, hi, -, hproduces⟩ :=
        hfollows.rows (List.getElem?_eq_getElem (by omega : pc < rows.length))
      rw [Nat.zero_add] at hi hproduces
      exact ⟨i, hi, hproduces⟩

theorem Supplies.mono {m n : Nat} (h : Supplies p values stream n) (hmn : m ≤ n) :
    Supplies p values stream m := by
  obtain ⟨more, hmore⟩ := p.code.positions_prefix .read hmn
  obtain ⟨tail, htail⟩ := h.input
  refine ⟨fun k hk => h.writable k ?_, wordsOfNats (more.map values) ++ tail, ?_⟩
  · rw [hmore]
    exact List.mem_append_left _ hk
  · rw [htail, hmore, List.map_append, wordsOfNats_append, List.append_assoc]

/-- A run whose values are consistent up to a position comes to that position with these values,
unless a limit stops it. What it does from there on is left to say. -/
theorem run_reaches (l : Limits) (imageId : Text) (hp : p.Loaded) {n : Nat} (hn : n < p.size)
    (hreader : WordReader.ofBytes input = .ok reader)
    (hsupplies : Supplies p values reader.rest n) (hvalues : ∀ k < n, p.code.Consistent values k) :
    (∃ m, m.Holds p.code values p.registers reader.rest n ∧ ∀ {rows : List Row} {journal : Bytes}
      {stop : Option Stop}, runFrom l m n (p.code.toList.drop n) = (rows, journal, stop) →
        outcome l p input = ((p.code.rows values).take n ++ rows, journal, stop)) ∨
      (¬l.Allow values n ∧ (run l imageId p input).IsFault) := by
  have hrun := outcome_eq l p hreader
  rcases runFrom_reaches (l := l) hp hn hsupplies hvalues n (Nat.zero_add n)
    (Machine.holds_start p.registers reader) with ⟨m, hm, hreach⟩ | ⟨hlimit, cause, hfault⟩
  · refine .inl ⟨m, hm, fun {rows journal stop} hrest => ?_⟩
    rw [List.drop_zero] at hreach
    rw [hrun, hreach, hrest, List.drop_zero]
  · rw [List.drop_zero, ← hrun] at hfault
    exact .inr ⟨hlimit, isFault_of_faulted imageId ⟨cause, hfault⟩⟩

/-- Where values are consistent throughout, the program ends well, and the input begins with the
values that are read, a run succeeds with these values, unless a limit stops it. -/
theorem run_of_consistent (l : Limits) (imageId : Text) (hp : p.Loaded) (hend : EndsWell p)
    (hreader : WordReader.ofBytes input = .ok reader)
    (hsupplies : Supplies p values reader.rest p.size)
    (hvalues : ∀ pc < p.size, p.code.Consistent values pc) :
    run l imageId p input =
        .success imageId (p.code.rows values) (encodeNats (p.code.commits.map values)) ∨
      (¬l.Allow values p.size ∧ (run l imageId p input).IsFault) := by
  obtain ⟨i, hi, hop, ha⟩ := hend
  have hpos := hp.size_pos
  have hn : p.size - 1 < p.size := by omega
  rcases run_reaches l imageId hp hn hreader (hsupplies.mono (by omega))
    (fun k hk => hvalues k (by omega)) with ⟨m, hm, hrest⟩ | ⟨hlimit, hfault⟩
  · have hdrop : p.code.toList.drop (p.size - 1) = [i] := by
      have hle : p.size ≤ p.size - 1 + 1 := by omega
      rw [drop_eq_cons hi, List.drop_eq_nil_of_le]
      rw [Array.length_toList]
      exact hle
    by_cases hsession : l.session ≤ (p.size - 1 : Nat)
    · refine .inr ⟨fun h => ?_, ?_⟩
      · have := h.1
        omega
      · rw [run_of_outcome (hrest (by rw [hdrop, runFrom, if_pos hsession]))]
        exact ⟨_, rfl⟩
    · left
      obtain ⟨i', hi', hproduces⟩ := hvalues _ hn
      rw [hi] at hi'
      cases hi'
      have hstep : step l m (p.size - 1) i = .ok (p.code.rowOf values (p.size - 1) i, m) := by
        rw [Code.Produces] at hproduces
        simp only [hop] at hproduces
        rw [step, Code.rowOf, hproduces]
        simp only [hop]
        rfl
      have hlast : runFrom l m (p.size - 1) (p.code.toList.drop (p.size - 1)) =
          ([p.code.rowOf values (p.size - 1) i], m.journal, none) := by
        rw [hdrop, runFrom, if_neg hsession, hstep]
        simp [hop, ha]
      rw [run_of_outcome (hrest hlast)]
      have hrows : (p.code.rows values).take (p.size - 1) ++
          [p.code.rowOf values (p.size - 1) i] = p.code.rows values := by
        rw [Code.take_rows_concat hi, Nat.sub_add_cancel hpos]
        exact List.take_of_length_le (by simp [Program.size])
      have hjournal : m.journal = encodeNats (p.code.commits.map values) := by
        have hall : p.code.positions .commit p.size = p.code.positions .commit (p.size - 1) := by
          have hsucc := Code.positions_succ hi .commit
          rw [Nat.sub_add_cancel hpos, if_neg (by simp [hop]), List.append_nil] at hsucc
          exact hsucc
        rw [hm.journal, Code.commits_eq_positions, ← Program.size, hall]
      rw [hrows, hjournal, ended]
  · exact .inr ⟨fun h => hlimit ⟨by have := h.1; omega, fun k hk => h.2 k (by omega)⟩, hfault⟩

/-- Where values are consistent up to a computing instruction that has no result on them, and the
input begins with the values that are read, the circuit halts itself for the reason of that
instruction, unless a limit stops it before. -/
theorem run_of_error (l : Limits) (imageId : Text) (hp : p.Loaded) {n : Nat} {i : Instruction}
    (hi : p.code[n]? = some i) (hop : i.op.isBinary = true) {reason : Halt}
    (hcompute : compute i.op (p.code.before values i.b n) (p.code.before values i.c n) =
      .error reason)
    (hreader : WordReader.ofBytes input = .ok reader) (hsupplies : Supplies p values reader.rest n)
    (hvalues : ∀ pc < n, p.code.Consistent values pc) :
    (∃ rows journal, outcome l p input = (rows, journal, some (.halt reason))) ∨
      (¬(l.Allow values n ∧ (n : Int) < l.session) ∧ (run l imageId p input).IsFault) := by
  have hn : n < p.size := (Array.getElem?_eq_some_iff.1 hi).1
  rcases run_reaches l imageId hp hn hreader hsupplies hvalues with
    ⟨m, hm, hrest⟩ | ⟨hlimit, hfault⟩
  · by_cases hsession : l.session ≤ n
    · refine .inr ⟨fun h => absurd hsession (Int.not_le.2 h.2), ?_⟩
      rw [run_of_outcome (hrest (by rw [drop_eq_cons hi, runFrom, if_pos hsession]))]
      exact ⟨_, rfl⟩
    · left
      have hstep := step_of_error l (hp.fits hi) hm hop hcompute
      rw [hrest (by rw [drop_eq_cons hi, runFrom, if_neg hsession, hstep])]
      exact ⟨_, _, rfl⟩
  · exact .inr ⟨fun h => hlimit h.1, hfault⟩

end Engine

end CircuitReceipts
