import CircuitReceipts.Proofs.Receipt.Completeness

/-!
# Options that cannot be used

The check on prover options compares numbers by their value alone, and does not look at the minimal
exponent at all. So it lets options pass that are of no use: a number with a point counts no queries
and arranges no siblings, and a minimum may be no number, or too large. A session that succeeded is
proved under the options that are usable, and under others it is a misuse.
-/

namespace CircuitReceipts

namespace ProverOptions

variable {o : ProverOptions} {n : Int}

/-- Whether the numbers of queries and of children have passed their checks. -/
structure Checked (o : ProverOptions) : Prop where
  queries : inRange o.queries = .ok true
  arity : isArity o.arity = true

theorem checked_of_check {queries arity hash minPo2 : Json}
    (h : check queries arity hash minPo2 = .ok o) : o.Checked := by
  rw [check] at h
  simp only [bind_eq_ok, mapError_eq_ok] at h
  obtain ⟨ranged, hqueries, h⟩ := h
  cases ranged with
  | false => cases h
  | true =>
    cases harity : isArity arity with
    | false => simp [harity] at h
    | true =>
      simp only [harity, Bool.not_true, Bool.false_eq_true, if_false] at h
      split at h
      · cases h
      · cases h
        exact ⟨hqueries, harity⟩

theorem checked_of_ofJson {j : Json} (h : ofJson j = .ok o) : o.Checked := by
  cases j with
  | obj members => exact checked_of_check h
  | _ => cases h

theorem ne_float {j : Json} (hn : j.integer? = some n) (x : Binary64) (hx : j = .float x) :
    False := by
  subst hx
  cases hn

theorem Valid.checked (h : o.Valid) : o.Checked := by
  obtain ⟨n, hn, hpos, hmax⟩ := h.queries
  obtain ⟨k, arity, hk, harity⟩ := h.arity
  constructor
  · rw [inRange, hn]
    · simp [hpos, hmax]
    · exact ne_float hn
  · rw [isArity, hk]
    · simp [harity]
    · exact ne_float hk

theorem Checked.range (h : o.Checked) (hn : o.queries.integer? = some n) :
    1 ≤ n ∧ n ≤ maxQueries := by
  have hqueries := h.queries
  rw [inRange, hn] at hqueries
  · simpa using hqueries
  · exact ne_float hn

theorem Checked.exists_arity (h : o.Checked)
    (hn : o.arity.integer? = some n) : ∃ a, Arity.ofInt? n = some a := by
  have harity := h.arity
  rw [isArity, hn] at harity
  · exact Option.isSome_iff_exists.1 harity
  · exact ne_float hn

end ProverOptions

namespace Session

variable {p : Program} {values : Nat → Nat} {o : ProverOptions} {a : Artifact}

/-- Where the rows of a successful run can be proved at all, options alone are at fault if they are
not: some number among them is not fit for its use. -/
theorem misuse_of_attest {e : ProveError} (hp : p.Loaded) (hend : Engine.EndsWell p)
    (hwritable : ∀ pc < p.size, Writable (values pc))
    (h : attest o (ofValues a p values) = .error e) : ∃ m, e = .misuse m := by
  have hmisuse {α β : Type} {x : Except Misuse α} {f : α → Except ProveError β}
      (hx : (x.mapError ProveError.misuse >>= f) = .error e) :
      (∃ m, e = .misuse m) ∨ ∃ v, f v = .error e := by
    cases x with
    | error m =>
      cases hx
      exact .inl ⟨m, rfl⟩
    | ok v => exact .inr ⟨v, hx⟩
  obtain ⟨leaves, hleaves⟩ := Row.exists_leaves (Code.plain_rows hp hwritable)
  have hending : (ofValues a p values).ending = .success := rfl
  rw [attest, if_neg (not_not.2 hending)] at h
  have hcode : checkedCode (ofValues a p values).trace (ofValues a p values).journal =
      .ok p.code := checkedCode_rows hend
  rw [hcode, ok_bind, show (ofValues a p values).trace.mapM Row.leaf = .ok leaves from hleaves,
    mapError_ok, ok_bind] at h
  -- what is left are steps that fail by a misuse
  obtain hm | ⟨arity, h⟩ := hmisuse h
  · exact hm
  obtain hm | ⟨t, h⟩ := hmisuse h
  · exact hm
  obtain hm | ⟨queries, h⟩ := hmisuse h
  · exact hm
  obtain hm | ⟨rows, h⟩ := hmisuse h
  · exact hm
  obtain hm | ⟨openings, h⟩ := hmisuse h
  · exact hm
  obtain hm | ⟨po2, h⟩ := hmisuse h
  · exact hm
  obtain hm | ⟨cycles, h⟩ := hmisuse h
  · exact hm
  · cases h

theorem usable_of_attest {proof : Proof} (hp : p.Loaded) (hend : Engine.EndsWell p)
    (hwritable : ∀ pc < p.size, Writable (values pc)) (hsize : 1 < p.size) (hchecked : o.Checked)
    (h : attest o (ofValues a p values) = .ok proof) : o.Usable p.size := by
  obtain ⟨leaves, hleaves⟩ := Row.exists_leaves (Code.plain_rows hp hwritable)
  have hlength : leaves.length = p.size :=
    (mapM_eq_ok.1 hleaves).length_eq.symm.trans Code.length_rows
  have hcode : checkedCode (ofValues a p values).trace (ofValues a p values).journal =
      .ok p.code := checkedCode_rows hend
  have hcycles : (ofValues a p values).userCycles = p.size := Code.length_rows
  have hending : (ofValues a p values).ending = .success := rfl
  rw [attest, if_neg (not_not.2 hending)] at h
  rw [hcode, ok_bind, show (ofValues a p values).trace.mapM Row.leaf = .ok leaves from hleaves,
    mapError_ok, ok_bind] at h
  simp only [bind_eq_ok, mapError_eq_ok, hcycles] at h
  obtain ⟨arity, harity, t, -, queries, hqueries, rows, -, openings, -, po2, hpo2, cycles,
    hcycles, -⟩ := h
  refine ⟨?_, ?_, po2, cycles, hpo2, hcycles⟩
  · rw [ProverOptions.queryCount] at hqueries
    split at hqueries
    · next n hn => exact ⟨n, hn, hchecked.range hn⟩
    · cases hqueries
  · rw [ProverOptions.treeArity, hlength] at harity
    split at harity
    · next found hfound =>
      obtain ⟨n, hn, hsize⟩ := Option.bind_eq_some_iff.1 hfound
      exact ⟨n, found, hn, hsize⟩
    · rw [if_neg (by omega)] at harity
      cases harity

/-- Under checked options a run of more than one row is proved, and the receipt accepted, exactly if
they are usable for it; else there is a misuse. -/
theorem proved_or_misuse (host : Host) (hload : Program.load a.blob = .ok p)
    (hend : Engine.EndsWell p) (hvalues : ∀ pc < p.size, p.code.Consistent values pc)
    (hwritable : ∀ pc < p.size, Writable (values pc)) (hsize : 1 < p.size)
    (hchecked : o.Checked) :
    (o.Usable p.size ∧ ∃ proof, prove host o (ofValues a p values) = .ok proof ∧
        proof.receipt.verify a 1 = .ok ()) ∨
      ¬o.Usable p.size ∧ ∃ m, prove host o (ofValues a p values) = .error (.misuse m) := by
  have hp := Program.loaded_of_load hload
  by_cases husable : o.Usable p.size
  · obtain ⟨n, hn, hpos, -⟩ := husable.queries
    obtain ⟨proof, hproof, hverify⟩ :=
      exists_proof_of_usable hload hend hvalues hwritable husable hn
    exact .inl ⟨husable, proof, prove_of_attest hproof, (hverify 1).1 hpos⟩
  · refine .inr ⟨husable, ?_⟩
    cases hprove : attest o (ofValues a p values) with
    | ok proof => exact absurd (usable_of_attest hp hend hwritable hsize hchecked hprove) husable
    | error e =>
      obtain ⟨m, rfl⟩ := misuse_of_attest hp hend hwritable hprove
      exact ⟨m, by rw [prove, hprove]; rfl⟩

end Session

end CircuitReceipts
