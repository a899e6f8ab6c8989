import CircuitReceipts.Proofs.Merkle.Binding
import CircuitReceipts.Proofs.Transcript.Squeezing

/-!
# What the state of a transcript binds

Two histories that leave their transcripts in one state have absorbed the same groups of byte
strings, as long as no two different byte strings that were hashed have the same digest. The chains
of the two histories are compared from their ends. The preimage of a fold begins with a state, which
is as wide as a digest, and behind it every byte string has its length in front; so a preimage
determines the state before and the group. The preimage of the domain is shorter than any of them,
which tells where a chain begins.
-/

namespace CircuitReceipts

namespace Transcript

variable {h : HashName} {t : Transcript} {b c rest others : Bytes} {group group' : List Bytes}

/-! ### Preimages -/

def Framable (b : Bytes) : Prop :=
  b.length < 2 ^ 64

instance : DecidablePred Framable := fun _ => inferInstanceAs (Decidable (_ < _))

/-- A byte string with its length in front is told from whatever follows it. -/
theorem framed_append_inj (hb : Framable b) (hc : Framable c)
    (heq : framed b ++ rest = framed c ++ others) : b = c ∧ rest = others := by
  have hcapacity : Bytes.capacity 8 = 2 ^ 64 := rfl
  rw [framed, framed, List.append_assoc, List.append_assoc] at heq
  obtain ⟨hbefore, htail⟩ := List.append_inj heq (by simp)
  have hlength : b.length = c.length := by
    have hvalue := congrArg Bytes.toNat hbefore
    rwa [Bytes.toNat_ofNat, Bytes.toNat_ofNat, hcapacity, Nat.mod_eq_of_lt hb,
      Nat.mod_eq_of_lt hc] at hvalue
  exact List.append_inj htail hlength

theorem framed_ne_nil (b : Bytes) : framed b ≠ [] := by
  intro hnil
  have hlength := congrArg List.length hnil
  simp [framed] at hlength

/-- Byte strings can be read off one after another where each has its length in front. -/
theorem eq_of_flatten_framed_eq (hgroup : ∀ b ∈ group, Framable b)
    (hgroup' : ∀ b ∈ group', Framable b)
    (heq : (group.map framed).flatten = (group'.map framed).flatten) : group = group' := by
  induction group generalizing group' with
  | nil =>
    cases group' with
    | nil => rfl
    | cons c group' => exact absurd heq (by simp [framed_ne_nil])
  | cons b group ih =>
    cases group' with
    | nil => exact absurd heq (by simp [framed_ne_nil])
    | cons c group' =>
      obtain ⟨hb, hmore⟩ := List.forall_mem_cons.1 hgroup
      obtain ⟨hc, hmore'⟩ := List.forall_mem_cons.1 hgroup'
      simp only [List.map_cons, List.flatten_cons] at heq
      obtain ⟨hfirst, hrest⟩ := framed_append_inj hb hc heq
      rw [hfirst, ih hmore hmore' hrest]

/-- The preimage of a fold determines the state before it and the group. -/
theorem eq_of_groupPreimage_eq {state state' : Bytes} (hlength : state.length = state'.length)
    (hgroup : ∀ b ∈ group, Framable b) (hgroup' : ∀ b ∈ group', Framable b)
    (heq : groupPreimage state group = groupPreimage state' group') :
    state = state' ∧ group = group' := by
  obtain ⟨hstate, hgroups⟩ := List.append_inj heq hlength
  exact ⟨hstate, eq_of_flatten_framed_eq hgroup hgroup' hgroups⟩

/-- Nothing that is folded is hashed like the domain, which is shorter than a state. -/
theorem domainPreimage_ne_groupPreimage {state : Bytes} (hstate : state.length = 32) :
    domainPreimage standardDomain ≠ groupPreimage state group := by
  intro heq
  have hlength := congrArg List.length heq
  have hdomain : (domainPreimage standardDomain).length = 18 := by decide
  rw [hdomain, groupPreimage, List.length_append, hstate] at hlength
  omega

/-! ### What is hashed in a history -/

/-- The byte strings that are hashed when an element is drawn: what has been absorbed is folded if
there is any, and a block is squeezed if none is left over. -/
def elementHashes (t : Transcript) : List Bytes :=
  (if t.pending = [] then [] else [t.state ++ t.pending.flatten]) ++
    if t.fold.buffer = [] then [blockPreimage t.fold.state t.fold.squeezed] else []

def elementsHashes (t : Transcript) : Nat → List Bytes
  | 0 => []
  | n + 1 => t.elementHashes ++ t.element.2.elementsHashes n

/-- The byte strings that are hashed in a history of calls. -/
def hashes (t : Transcript) : List Call → List Bytes
  | [] => []
  | c :: calls => t.elementsHashes c.drawn ++ (c.apply t).hashes calls

/-- All that is hashed in a history of calls on a new transcript, the domain included. -/
def hashed (h : HashName) (domain : Bytes) (calls : List Call) : List Bytes :=
  domainPreimage domain :: (new h domain).hashes calls

theorem hashes_concat (t : Transcript) (calls : List Call) (c : Call) :
    t.hashes (calls ++ [c]) = t.hashes calls ++ (t.after calls).elementsHashes c.drawn := by
  induction calls generalizing t with
  | nil => simp [hashes, after]
  | cons c' calls ih =>
    rw [List.cons_append, hashes, hashes, ih, List.append_assoc]
    rfl

theorem hashed_concat (h : HashName) (domain : Bytes) (calls : List Call) (c : Call) :
    hashed h domain (calls ++ [c]) =
      hashed h domain calls ++ ((new h domain).after calls).elementsHashes c.drawn := by
  rw [hashed, hashes_concat]
  rfl

/-- The first of some elements folds what has been absorbed. -/
theorem fold_mem_elementsHashes {n : Nat} (hn : 0 < n) (hpending : t.pending ≠ []) :
    t.state ++ t.pending.flatten ∈ t.elementsHashes n := by
  obtain ⟨m, rfl⟩ := Nat.exists_eq_succ_of_ne_zero (Nat.ne_of_gt hn)
  rw [elementsHashes, elementHashes, if_neg hpending]
  simp

/-- Whether the preimages of all folds of a chain are in a list. -/
def Linked (h : HashName) (domain : Bytes) (inputs : List Bytes) (groups : List (List Bytes)) :
    Prop :=
  ∀ earlier group, earlier ++ [group] <+: groups →
    groupPreimage (chain h domain earlier) group ∈ inputs

theorem Linked.mono {domain : Bytes} {inputs others : List Bytes} {groups : List (List Bytes)}
    (hlinked : Linked h domain inputs groups) (hsub : inputs ⊆ others) :
    Linked h domain others groups :=
  fun earlier group hbefore => hsub (hlinked earlier group hbefore)

theorem linked_concat_iff {domain : Bytes} {inputs : List Bytes} {groups : List (List Bytes)} :
    Linked h domain inputs (groups ++ [group]) ↔
      Linked h domain inputs groups ∧ groupPreimage (chain h domain groups) group ∈ inputs := by
  constructor
  · intro hlinked
    refine ⟨fun earlier g hbefore => ?_, hlinked groups group (List.prefix_refl _)⟩
    exact hlinked earlier g (hbefore.trans (List.prefix_append _ _))
  · rintro ⟨hlinked, hlast⟩ earlier g hbefore
    rcases List.prefix_concat_iff.1 hbefore with heq | hbefore
    · obtain ⟨rfl, hg⟩ := List.append_inj' heq rfl
      rwa [List.cons.inj hg |>.1]
    · exact hlinked earlier g hbefore

/-- All folds of a history are among what is hashed in it. -/
theorem linked_hashed (h : HashName) (domain : Bytes) (calls : List Call) :
    Linked h domain (hashed h domain calls) (Ledger.ofCalls calls).closed := by
  induction calls using List.reverseRecOn with
  | nil =>
    intro earlier group hbefore
    exact absurd (List.prefix_nil.1 hbefore) (by simp)
  | append_singleton calls c ih =>
    have hbefore : Linked h domain (hashed h domain (calls ++ [c]))
        (Ledger.ofCalls calls).closed := by
      rw [hashed_concat]
      exact ih.mono (List.subset_append_left _ _)
    rw [Ledger.ofCalls_concat]
    cases hc : c.absorbed? with
    | some b =>
      rw [Ledger.enter_of_absorbed? hc]
      exact hbefore
    | none =>
      rw [Ledger.enter_of_absorbed?_eq_none hc]
      rcases Nat.eq_zero_or_pos c.drawn with hzero | hpos
      · rw [hzero]
        exact hbefore
      rw [Ledger.draw_of_pos hpos]
      by_cases hwaiting : (Ledger.ofCalls calls).waiting = []
      · rw [Ledger.groups_of_waiting_eq_nil hwaiting]
        exact hbefore
      rw [Ledger.groups_of_waiting_ne_nil hwaiting]
      refine linked_concat_iff.2 ⟨hbefore, ?_⟩
      -- the group that was waiting is folded by the first element of this call
      have hkeeps := keeps_after h domain calls
      have hpending : ((new h domain).after calls).pending ≠ [] := by
        simpa [hkeeps.pending] using hwaiting
      have hfold := fold_mem_elementsHashes hpos hpending
      rw [hkeeps.state, hkeeps.pending] at hfold
      rw [hashed_concat]
      exact List.mem_append_right _ hfold

/-! ### Comparing two chains -/

/-- Two chains with one end are the same chain, if no preimages of theirs have one digest. -/
theorem groups_eq_of_chain_eq {inputs : List Bytes} {groups groups' : List (List Bytes)}
    (hsafe : ¬h.Collides inputs) (hdomain : domainPreimage standardDomain ∈ inputs)
    (hlinked : Linked h standardDomain inputs groups)
    (hlinked' : Linked h standardDomain inputs groups')
    (hframable : ∀ g ∈ groups, ∀ b ∈ g, Framable b)
    (hframable' : ∀ g ∈ groups', ∀ b ∈ g, Framable b)
    (heq : chain h standardDomain groups = chain h standardDomain groups') : groups = groups' := by
  have hpreimage {x y : Bytes} (hx : x ∈ inputs) (hy : y ∈ inputs)
      (hdigest : h.digest x = h.digest y) : x = y :=
    (HashName.eq_or_collides hx hy hdigest).resolve_right hsafe
  induction groups using List.reverseRecOn generalizing groups' with
  | nil =>
    cases groups' using List.reverseRecOn with
    | nil => rfl
    | append_singleton groups' group' =>
      rw [chain_nil, chain_concat] at heq
      exact absurd (hpreimage hdomain (linked_concat_iff.1 hlinked').2 heq)
        (domainPreimage_ne_groupPreimage (length_chain ..))
  | append_singleton groups group ih =>
    obtain ⟨hbefore, hlast⟩ := linked_concat_iff.1 hlinked
    rw [chain_concat] at heq
    cases groups' using List.reverseRecOn with
    | nil =>
      rw [chain_nil] at heq
      exact absurd (hpreimage hlast hdomain heq).symm
        (domainPreimage_ne_groupPreimage (length_chain ..))
    | append_singleton groups' group' =>
      obtain ⟨hbefore', hlast'⟩ := linked_concat_iff.1 hlinked'
      rw [chain_concat] at heq
      obtain ⟨hstate, hgroup⟩ := eq_of_groupPreimage_eq (by simp) (hframable group (by simp))
        (hframable' group' (by simp)) (hpreimage hlast hlast' heq)
      rw [hgroup, ih hbefore hbefore' (fun g hg => hframable g (by simp [hg]))
        (fun g hg => hframable' g (by simp [hg])) hstate]

/-- Two histories on new transcripts, each with a draw of an element at its end, that come to one
state have absorbed the same groups of byte strings, unless two different ones of the byte strings
hashed in them have the same digest. -/
theorem groups_eq_or_collides {calls calls' : List Call} {last last' : Call}
    (hlast : 0 < last.drawn) (hlast' : 0 < last'.drawn)
    (hframable : ∀ c ∈ calls ++ [last], ∀ b ∈ c.absorbed?, Framable b)
    (hframable' : ∀ c ∈ calls' ++ [last'], ∀ b ∈ c.absorbed?, Framable b)
    (hstate : ((new h standardDomain).after (calls ++ [last])).state =
      ((new h standardDomain).after (calls' ++ [last'])).state) :
    (Ledger.ofCalls (calls ++ [last])).groups = (Ledger.ofCalls (calls' ++ [last'])).groups ∨
      h.Collides (hashed h standardDomain (calls ++ [last]) ++
        hashed h standardDomain (calls' ++ [last'])) := by
  refine or_iff_not_imp_right.2 fun hsafe => ?_
  have hwaiting : (Ledger.ofCalls (calls ++ [last])).waiting = [] := by
    rw [Ledger.ofCalls_concat_of_drawn calls hlast]
  have hwaiting' : (Ledger.ofCalls (calls' ++ [last'])).waiting = [] := by
    rw [Ledger.ofCalls_concat_of_drawn calls' hlast']
  have hgroups {calls : List Call} (hcalls : ∀ c ∈ calls, ∀ b ∈ c.absorbed?, Framable b) :
      ∀ g ∈ (Ledger.ofCalls calls).groups, ∀ b ∈ g, Framable b := by
    intro g hg b hb
    have hmem : b ∈ (Ledger.ofCalls calls).groups.flatten := List.mem_flatten.2 ⟨g, hg, hb⟩
    rw [Ledger.flatten_groups_ofCalls] at hmem
    obtain ⟨c, hc, habsorbed⟩ := List.mem_filterMap.1 hmem
    exact hcalls c hc b habsorbed
  have hchain : chain h standardDomain (Ledger.ofCalls (calls ++ [last])).groups =
      chain h standardDomain (Ledger.ofCalls (calls' ++ [last'])).groups := by
    rw [Ledger.groups_of_waiting_eq_nil hwaiting, Ledger.groups_of_waiting_eq_nil hwaiting',
      ← (keeps_after h standardDomain _).state, ← (keeps_after h standardDomain _).state, hstate]
  refine groups_eq_of_chain_eq hsafe ?_ ?_ ?_ (hgroups hframable) (hgroups hframable') hchain
  · exact List.mem_append_left _ (List.mem_cons_self ..)
  · rw [Ledger.groups_of_waiting_eq_nil hwaiting]
    exact (linked_hashed h standardDomain _).mono (List.subset_append_left _ _)
  · rw [Ledger.groups_of_waiting_eq_nil hwaiting']
    exact (linked_hashed h standardDomain _).mono (List.subset_append_right _ _)

/-- Two histories of two groups that differ in how much they draw, in a refused integer, and in
whether they absorb an integer or its bytes. -/
theorem groups_eq_or_collides_two :
    let calls : List Call := [.put [1, 2], .put [], .draw 1 8, .putInt 3, .draw 0 8]
    let calls' : List Call :=
      [.put [1, 2], .put [], .draw 9 63, .putInt (-1), .put [3, 0, 0, 0, 0, 0, 0, 0]]
    let last : Call := .draw 2 40
    let last' : Call := .draw 1 1
    0 < last.drawn ∧ 0 < last'.drawn ∧
      (∀ c ∈ calls ++ [last], ∀ b ∈ c.absorbed?, Framable b) ∧
      (∀ c ∈ calls' ++ [last'], ∀ b ∈ c.absorbed?, Framable b) ∧
      ((new .sha256 standardDomain).after (calls ++ [last])).state =
        ((new .sha256 standardDomain).after (calls' ++ [last'])).state ∧
      ((Ledger.ofCalls (calls ++ [last])).groups = (Ledger.ofCalls (calls' ++ [last'])).groups ∨
        HashName.sha256.Collides (hashed .sha256 standardDomain (calls ++ [last]) ++
          hashed .sha256 standardDomain (calls' ++ [last']))) := by
  intro calls calls' last last'
  have hlast : 0 < last.drawn := by decide
  have hlast' : 0 < last'.drawn := by decide
  have hframable : ∀ c ∈ calls ++ [last], ∀ b ∈ c.absorbed?, Framable b := by decide
  have hframable' : ∀ c ∈ calls' ++ [last'], ∀ b ∈ c.absorbed?, Framable b := by decide
  have hclosed : (Ledger.ofCalls (calls ++ [last])).closed =
      (Ledger.ofCalls (calls' ++ [last'])).closed := by decide
  have hstate : ((new .sha256 standardDomain).after (calls ++ [last])).state =
      ((new .sha256 standardDomain).after (calls' ++ [last'])).state := by
    rw [(keeps_after .sha256 standardDomain _).state, (keeps_after .sha256 standardDomain _).state,
      hclosed]
  exact ⟨hlast, hlast', hframable, hframable', hstate,
    groups_eq_or_collides hlast hlast' hframable hframable' hstate⟩

end Transcript

end CircuitReceipts
