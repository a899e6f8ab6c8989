import CircuitReceipts.Proofs.Transcript.History

/-!
# The elements that a transcript yields

Elements are squeezed in blocks of four and drawn one by one, and absorbing throws away what is left
of a block. All the same the elements that are drawn are those of a stream that is said without
blocks: the state after the groups of a history has an element at each position, and drawing goes
along the positions, one after another, from the first one again whenever something has been
absorbed.
-/

namespace CircuitReceipts

variable {h : HashName} {domain : Bytes} {t : Transcript}

theorem fieldElements_append {word : Bytes} (hword : word.length = 8) (rest : Bytes) :
    fieldElements (word ++ rest) = word.toNat % fieldPrime :: fieldElements rest := by
  match word, hword with
  | [a, b, c, d, e, f, g, i], _ => rfl

theorem fieldElements_eq_map {b : Bytes} {n : Nat} (hb : b.length = 8 * n) :
    fieldElements b =
      (List.range n).map fun j => Bytes.toNat ((b.drop (8 * j)).take 8) % fieldPrime := by
  induction n generalizing b with
  | zero =>
    rw [List.eq_nil_of_length_eq_zero hb]
    rfl
  | succ n ih =>
    have hword : (b.take 8).length = 8 := by
      rw [List.length_take]
      omega
    have hrest : (b.drop 8).length = 8 * n := by
      rw [List.length_drop]
      omega
    rw [← List.take_append_drop 8 b, fieldElements_append hword, ih hrest,
      List.take_append_drop, List.range_succ_eq_map, List.map_cons, List.map_map]
    congr 1
    refine List.map_congr_left fun j _ => ?_
    rw [Function.comp_apply, List.drop_drop, Nat.mul_succ, Nat.add_comm 8]

namespace Transcript

theorem cut_zero (bits : List Bool) (count : Nat) : cut 0 bits count = List.replicate count 0 := by
  induction count with
  | zero => rfl
  | succ count ih => rw [cut, List.drop_zero, ih, List.replicate_succ, List.take_zero, ofBits]

/-- Drawn values are cut from the bits of the elements that the call draws. -/
theorem draw_eq_cut (t : Transcript) (count width : Int) :
    (t.draw count width).1 = cut width.toNat
      ((t.elements (Call.draw count width).drawn).1.flatMap (lowBits bitsPerElement))
        count.toNat := by
  rw [draw, Call.drawn]
  split
  · next hzero => rw [hzero, Int.toNat_zero, cut_zero]
  · rfl

/-- The element at a position of the stream that is squeezed from a state. The digest of the state
and the number of a block has four of them, eight bytes each, the least byte first. -/
def challenge (h : HashName) (state : Bytes) (position : Nat) : Nat :=
  let digest := h.digest (state ++ Bytes.ofAscii "squeeze" ++ Bytes.ofNat 8 (position / 4))
  Bytes.toNat ((digest.drop (8 * (position % 4))).take 8) % fieldPrime

theorem block_eq_map (h : HashName) (state : Bytes) (counter : Nat) :
    block h state counter = (List.range' (4 * counter) 4).map (challenge h state) := by
  rw [block, fieldElements_eq_map (n := 4) (h.length_digest _), List.range'_eq_map_range,
    List.map_map]
  refine List.map_congr_left fun j hj => ?_
  have hj := List.mem_range.1 hj
  have hblock : (4 * counter + j) / 4 = counter := by omega
  have hplace : (4 * counter + j) % 4 = j := by omega
  rw [Function.comp_apply, challenge, hblock, hplace, blockPreimage]

/-- Whether the elements that have been squeezed and not drawn are those from a position on, up to
the end of a block. -/
structure Streams (t : Transcript) (position : Nat) : Prop where
  buffer : t.buffer =
    (List.range' position (4 * t.squeezed - position)).map (challenge t.hash t.state)
  le_squeezed : position ≤ 4 * t.squeezed

/-- Whether a transcript is as a ledger says. -/
structure Keeps (h : HashName) (domain : Bytes) (t : Transcript) (l : Ledger) : Prop where
  hash : t.hash = h
  state : t.state = chain h domain l.closed
  pending : t.pending = l.waiting.map framed
  fresh : l.waiting ≠ [] → t.buffer = [] ∧ l.drawn = 0
  streams : l.waiting = [] → t.Streams l.drawn

variable {l : Ledger} {b : Bytes}

theorem keeps_new (h : HashName) (domain : Bytes) : Keeps h domain (new h domain) ⟨[], [], 0⟩ where
  hash := rfl
  state := rfl
  pending := rfl
  fresh := fun hne => absurd rfl hne
  streams := fun _ => ⟨rfl, Nat.le_refl 0⟩

theorem Keeps.put (hkeeps : Keeps h domain t l) (b : Bytes) :
    Keeps h domain (t.put b) (l.absorb b) where
  hash := hkeeps.hash
  state := hkeeps.state
  pending := by rw [Transcript.put, hkeeps.pending, Ledger.absorb, List.map_append]; rfl
  fresh := fun _ => ⟨rfl, rfl⟩
  streams := fun hnil => absurd hnil (by simp [Ledger.absorb])

theorem fold_of_pending_eq_nil (hpending : t.pending = []) : t.fold = t := by
  rw [fold, hpending]
  rfl

theorem fold_of_pending_ne_nil (hpending : t.pending ≠ []) :
    t.fold = { t with
      state := t.hash.digest (t.state ++ t.pending.flatten), pending := [], squeezed := 0 } := by
  rw [fold, if_neg (by simpa using hpending)]

theorem Keeps.fold (hkeeps : Keeps h domain t l) :
    Keeps h domain t.fold ⟨l.groups, [], l.drawn⟩ := by
  by_cases hwaiting : l.waiting = []
  · have hpending : t.pending = [] := by rw [hkeeps.pending, hwaiting]; rfl
    rw [fold_of_pending_eq_nil hpending, Ledger.groups_of_waiting_eq_nil hwaiting]
    exact ⟨hkeeps.hash, hkeeps.state, hpending, fun hne => absurd rfl hne,
      fun _ => hkeeps.streams hwaiting⟩
  · have hpending : t.pending ≠ [] := by simpa [hkeeps.pending] using hwaiting
    obtain ⟨hbuffer, hdrawn⟩ := hkeeps.fresh hwaiting
    rw [fold_of_pending_ne_nil hpending, Ledger.groups_of_waiting_ne_nil hwaiting]
    refine ⟨hkeeps.hash, ?_, rfl, fun hne => absurd rfl hne, fun _ => ⟨?_, ?_⟩⟩
    · rw [chain_concat, groupPreimage, ← hkeeps.pending, ← hkeeps.state, hkeeps.hash]
    · simp only [hbuffer, hdrawn]
      rfl
    · simp only [hdrawn, Nat.zero_le]

theorem element_fold (t : Transcript) : t.fold.element = t.element := by
  have hfold : t.fold.fold = t.fold := by
    by_cases hpending : t.pending = []
    · rw [fold_of_pending_eq_nil hpending, fold_of_pending_eq_nil hpending]
    · exact fold_of_pending_eq_nil (by rw [fold_of_pending_ne_nil hpending])
  rw [element, element, hfold]

theorem Keeps.element_of_settled (hkeeps : Keeps h domain t l) (hwaiting : l.waiting = []) :
    t.element.1 = challenge h (chain h domain l.closed) l.drawn ∧
      Keeps h domain t.element.2 ⟨l.closed, [], l.drawn + 1⟩ := by
  have hpending : t.pending = [] := by rw [hkeeps.pending, hwaiting]; rfl
  obtain ⟨hbuffer, hle⟩ := hkeeps.streams hwaiting
  rw [element, fold_of_pending_eq_nil hpending]
  obtain ⟨left, hleft⟩ := Nat.exists_eq_add_of_le hle
  rw [hleft, Nat.add_sub_cancel_left] at hbuffer
  cases left with
  | zero =>
    -- the block is used up, and the position is the first one of the next
    have hempty : t.buffer = [] := hbuffer
    have hblock : block t.hash t.state t.squeezed =
        challenge h (chain h domain l.closed) l.drawn ::
          (List.range' (l.drawn + 1) 3).map (challenge h (chain h domain l.closed)) := by
      rw [block_eq_map, hleft, hkeeps.hash, hkeeps.state]
      rfl
    simp only [hempty, hblock]
    refine ⟨rfl, hkeeps.hash, hkeeps.state, hpending, fun hne => absurd rfl hne, fun _ => ⟨?_, ?_⟩⟩
    · have hthree : 4 * (t.squeezed + 1) - (l.drawn + 1) = 3 := by omega
      simp only [List.tail_cons, hthree, hkeeps.hash, hkeeps.state]
    · show l.drawn + 1 ≤ 4 * (t.squeezed + 1)
      omega
  | succ left =>
    rw [List.range'_succ, List.map_cons, hkeeps.hash, hkeeps.state] at hbuffer
    simp only [hbuffer]
    refine ⟨trivial, hkeeps.hash, hkeeps.state, hpending, fun hne => absurd rfl hne,
      fun _ => ⟨?_, ?_⟩⟩
    · have hrest : 4 * t.squeezed - (l.drawn + 1) = left := by omega
      simp only [hrest, hkeeps.hash, hkeeps.state]
    · show l.drawn + 1 ≤ 4 * t.squeezed
      omega

theorem Keeps.element (hkeeps : Keeps h domain t l) :
    t.element.1 = challenge h (chain h domain l.groups) l.drawn ∧
      Keeps h domain t.element.2 (l.draw 1) := by
  rw [← element_fold]
  exact hkeeps.fold.element_of_settled rfl

/-- Elements drawn one after another are those at the positions from the next one on. -/
theorem Keeps.elements (hkeeps : Keeps h domain t l) (count : Nat) :
    (t.elements count).1 =
        (List.range' l.drawn count).map (challenge h (chain h domain l.groups)) ∧
      Keeps h domain (t.elements count).2 (l.draw count) := by
  induction count generalizing t l with
  | zero => exact ⟨rfl, hkeeps⟩
  | succ count ih =>
    obtain ⟨hfirst, hnext⟩ := hkeeps.element
    obtain ⟨hrest, hlast⟩ := ih hnext
    have hgroups : (l.draw 1).groups = l.groups := Ledger.groups_of_waiting_eq_nil rfl
    have hdraw : (l.draw 1).draw count = l.draw (count + 1) := by
      cases count with
      | zero => rfl
      | succ count =>
        rw [Ledger.draw_of_pos (Nat.succ_pos count), hgroups]
        simp only [Ledger.draw, Nat.add_assoc, Nat.add_comm 1]
    rw [hgroups] at hrest
    rw [hdraw] at hlast
    refine ⟨?_, hlast⟩
    rw [List.range'_succ, List.map_cons, ← hfirst]
    exact congrArg _ hrest

/-- Call by call, a transcript is as the ledger of its history says. -/
theorem keeps_after (h : HashName) (domain : Bytes) (calls : List Call) :
    Keeps h domain (after (new h domain) calls) (Ledger.ofCalls calls) := by
  induction calls using List.reverseRecOn with
  | nil => exact keeps_new h domain
  | append_singleton calls c ih =>
    rw [after_concat, Ledger.ofCalls_concat]
    cases hc : c.absorbed? with
    | some b =>
      rw [Call.apply_of_absorbed? hc, Ledger.enter_of_absorbed? hc]
      exact ih.put b
    | none =>
      rw [Call.apply_of_absorbed?_eq_none hc, Ledger.enter_of_absorbed?_eq_none hc]
      exact (ih.elements c.drawn).2

/-- What a transcript yields after a history of calls, whatever has been drawn before, can be said
without its buffer. The elements are those at successive positions of the stream of one state: the
digest chain over the groups of all that has been absorbed. They begin at the position that tells
how many have been drawn since something was absorbed. The values that are drawn are cut from the
bits of these elements, and the first element leaves the transcript in that state. -/
theorem elements_eq_challenges (h : HashName) (domain : Bytes) (calls : List Call) :
    let t := (new h domain).after calls
    let l := Ledger.ofCalls calls
    let state := chain h domain l.groups
    (∀ count, (t.elements count).1 = (List.range' l.drawn count).map (challenge h state)) ∧
      (∀ count width : Int, (t.draw count width).1 =
        cut width.toNat (((List.range' l.drawn (Call.draw count width).drawn).map
          (challenge h state)).flatMap (lowBits bitsPerElement)) count.toNat) ∧
      ∀ count, 0 < count → (t.elements count).2.state = state := by
  intro t l state
  have hkeeps : Keeps h domain t l := keeps_after h domain calls
  have helements (count : Nat) :
      (t.elements count).1 = (List.range' l.drawn count).map (challenge h state) :=
    (hkeeps.elements count).1
  refine ⟨helements, fun count width => ?_, fun count hcount => ?_⟩
  · rw [← helements, draw_eq_cut]
  · have hstate := (hkeeps.elements count).2.state
    rwa [Ledger.draw_of_pos hcount] at hstate

end Transcript

end CircuitReceipts
