import CircuitReceipts.CommandLine.Command
import CircuitReceipts.Proofs.Success
import Mathlib.Data.List.Induction

/-!
# Command lines of a run

A run is written as the name of an operation, its operands, and then options in any order. Reading
such a line gives back what was written, where an option given later takes the place of an earlier
one; and a line without operands, or with an expected result of no texts, does not fit. Operands and
the values of options do not begin with a hyphen here, or they might be taken for options.
-/

namespace CircuitReceipts

/-- Whether a text does not begin with a hyphen. -/
def Text.Bare (t : Text) : Prop :=
  t.head? ≠ some (.char '-')

instance (t : Text) : Decidable t.Bare :=
  inferInstanceAs (Decidable (t.head? ≠ some (.char '-')))

open Arguments

/-- Texts none of which is an option. -/
def Arguments.asArguments (texts : List Text) : List (Text × Mark) :=
  texts.map fun t => (t, .argument)

/-- An option of a run, as it may follow the operands. -/
inductive RunOption where
  | expect (texts : List Text)
  | noProof
  | options (name : Text)
  /-- The name after an equals sign, which may begin with a hyphen. -/
  | attached (name : Text)
  | concurrent

namespace RunOption

def written : RunOption → List Text
  | expect texts => "--expect" :: texts
  | noProof => ["--no-prove"]
  | options name => ["--opts", name]
  | attached name => ["--opts=" ++ name]
  | concurrent => ["--concurrent"]

/-- Whether no value of an option may be taken for another option. -/
def Bare : RunOption → Prop
  | expect texts => ∀ t ∈ texts, t.Bare
  | options name => name.Bare
  | _ => True

def Fits : RunOption → Prop
  | expect texts => texts ≠ []
  | _ => True

instance : (o : RunOption) → Decidable o.Bare
  | expect texts => inferInstanceAs (Decidable (∀ t ∈ texts, t.Bare))
  | options name => inferInstanceAs (Decidable name.Bare)
  | noProof | attached _ | concurrent => .isTrue trivial

instance : (o : RunOption) → Decidable o.Fits
  | expect texts => inferInstanceAs (Decidable (texts ≠ []))
  | noProof | options _ | attached _ | concurrent => .isTrue trivial

def apply (a : RunArguments) : RunOption → RunArguments
  | expect texts => { a with expected := some texts }
  | noProof => { a with noProof := true }
  | options name => { a with options := some name }
  | attached name => { a with options := if name = separator then none else some name }
  | concurrent => { a with concurrent := true }

def marked : RunOption → List (Text × Mark)
  | expect texts =>
    ("--expect", .known (Command.long "--expect" .several) .nothing) :: asArguments texts
  | noProof => [("--no-prove", .known (Command.long "--no-prove" .switch) .nothing)]
  | options name =>
    [("--opts", .known (Command.long "--opts" .single) .nothing), (name, .argument)]
  | attached name =>
    [("--opts=" ++ name, .known (Command.long "--opts" .single) (.value name))]
  | concurrent => [("--concurrent", .known (Command.long "--concurrent" .switch) .nothing)]

def given : RunOption → Text × List Text
  | expect texts => ("--expect", texts)
  | noProof => ("--no-prove", [])
  | options name => ("--opts", [name])
  | attached name => ("--opts", [name].erase separator)
  | concurrent => ("--concurrent", [])

end RunOption

/-- The command line of a run. -/
def runLine (op : Operation) (operands : List Text) (options : List RunOption) : List Text :=
  "run" :: op.name :: (operands ++ options.flatMap RunOption.written)

/-- The arguments of a run with options given in order. -/
def RunArguments.ofOptions (op : Operation) (operands : List Text) (options : List RunOption) :
    RunArguments :=
  options.foldl RunOption.apply ⟨op.name, operands, none, false, some "fast", none, false⟩

namespace Arguments

variable {g : Grammar} {texts operands : List Text} {st : State} {rest : List (Text × Mark)}

theorem bare_ne_separator {t : Text} (h : t.Bare) : t ≠ separator := by
  rintro rfl
  exact h rfl

theorem mark_of_bare (g : Grammar) {t : Text} (h : t.Bare) : g.mark t = .ok .argument := by
  rw [Grammar.mark]
  rintro s rest rfl
  exact h rfl

/-- What each argument is does not depend on those around it, as long as no separator stands
before. -/
theorem marks_append {front back : List Text} {ms ns : List (Text × Mark)}
    (hfront : g.marks front = .ok ms) (hseparator : separator ∉ front)
    (hback : g.marks back = .ok ns) : g.marks (front ++ back) = .ok (ms ++ ns) := by
  induction front generalizing ms with
  | nil =>
    cases hfront
    exact hback
  | cons t front ih =>
    rw [List.mem_cons, not_or] at hseparator
    rw [Grammar.marks, if_neg (Ne.symm hseparator.1)] at hfront
    simp only [bind_eq_ok, pure_eq_ok] at hfront
    obtain ⟨m, hm, ms, hms, rfl⟩ := hfront
    rw [List.cons_append, Grammar.marks, if_neg (Ne.symm hseparator.1), hm,
      ih hms hseparator.2]
    rfl

theorem marks_of_bare (h : ∀ t ∈ texts, t.Bare) :
    g.marks texts = .ok (asArguments texts) := by
  induction texts with
  | nil => rfl
  | cons t texts ih =>
    have ht := h t (List.mem_cons_self ..)
    rw [Grammar.marks, if_neg (bare_ne_separator ht), mark_of_bare g ht,
      ih fun t ht => h t (List.mem_cons_of_mem _ ht)]
    rfl

theorem separator_not_mem (h : ∀ t ∈ texts, t.Bare) : separator ∉ texts :=
  fun hmem => bare_ne_separator (h _ hmem) rfl

theorem erase_separator (h : ∀ t ∈ texts, t.Bare) : texts.erase separator = texts :=
  List.erase_of_not_mem (separator_not_mem h)

theorem cut_asArguments (n : Nat) (texts : List Text) :
    cut n (asArguments texts) = (asArguments (texts.take n), asArguments (texts.drop n)) := by
  induction texts generalizing n with
  | nil => cases n <;> rfl
  | cons t texts ih =>
    cases n with
    | zero => rfl
    | succ n =>
      rw [asArguments, List.map_cons, ← asArguments, cut, if_pos (by rfl)]
      simp only [ih]
      rfl

theorem countP_asArguments (texts : List Text) :
    (asArguments texts).countP isArgument = texts.length := by
  rw [List.countP_eq_length.2, asArguments, List.length_map]
  intro m hm
  obtain ⟨t, -, rfl⟩ := List.mem_map.1 hm
  rfl

theorem map_asArguments (texts : List Text) : (asArguments texts).map (·.1) = texts := by
  rw [asArguments, List.map_map]
  exact List.map_id' _

/-- A run of arguments is taken as far as something else follows. -/
theorem takeWhile_asArguments {p : Text × Mark → Bool} (hp : ∀ t, p (t, .argument) = true)
    (hrest : ∀ m ∈ rest.head?, p m = false) (texts : List Text) :
    (asArguments texts ++ rest).takeWhile p = asArguments texts ∧
      (asArguments texts ++ rest).dropWhile p = rest := by
  have hall : ∀ m ∈ asArguments texts, p m = true := by
    intro m hm
    obtain ⟨t, -, rfl⟩ := List.mem_map.1 hm
    exact hp t
  rw [List.takeWhile_append_of_pos hall, List.dropWhile_append_of_pos hall]
  cases rest with
  | nil => simp
  | cons m rest => simp [hrest m rfl]

theorem deal_many (hoperands : ∀ t ∈ operands, t.Bare) :
    deal [⟨true, none⟩] (asArguments operands) =
      if operands = [] then ([], [], [⟨true, none⟩]) else ([operands], [], []) := by
  rw [deal, countP_asArguments]
  by_cases hempty : operands = []
  · subst hempty
    rfl
  · have hlength : operands.length ≠ 0 := by simpa using hempty
    simp only [if_neg hlength, if_neg hempty, cut_asArguments, List.length_nil, Nat.zero_min,
      Nat.sub_zero, if_true, List.take_length, List.drop_length, map_asArguments,
      erase_separator hoperands]
    rfl

/-- The operands of a run serve its two rules, as far as there are any. -/
theorem serve_operands (op : Operation) (hoperands : ∀ t ∈ operands, t.Bare) :
    State.serve ⟨⟨[], []⟩, Command.runGrammar.operands, false⟩
        (asArguments (op.name :: operands)) =
      .ok (if operands = [] then ⟨⟨[], [[op.name]]⟩, [⟨true, none⟩], false⟩
        else ⟨⟨[], [[op.name], operands]⟩, [], false⟩) := by
  have hname : [op.name].erase separator = [op.name] := by cases op <;> decide
  have hchoice : ∃ o, o ∈ Operation.all ∧ o.name = op.name := ⟨op, by cases op <;> decide, rfl⟩
  have hdeal : deal Command.runGrammar.operands (asArguments (op.name :: operands)) =
      if operands = [] then ([[op.name]], [], [⟨true, none⟩])
      else ([[op.name], operands], [], []) := by
    have hlength : (op.name :: operands).length ≠ 0 := Nat.succ_ne_zero _
    rw [Command.runGrammar, deal, countP_asArguments, if_neg hlength]
    simp only [Bool.false_eq_true, if_false, cut_asArguments, List.take_succ_cons, List.take_zero,
      List.drop_succ_cons, List.drop_zero, map_asArguments, hname, deal_many hoperands]
    split <;> rfl
  rw [State.serve]
  simp only [hdeal]
  by_cases hempty : operands = []
  · simp [hempty, allowed, Command.runGrammar, hchoice]
  · simp [hempty, allowed, Command.runGrammar, hchoice]

end Arguments

namespace RunOption

theorem marks_written {o : RunOption} (h : o.Bare) :
    Command.runGrammar.marks o.written = .ok o.marked := by
  cases o with
  | expect texts =>
    have hmark : Command.runGrammar.mark "--expect" =
        .ok (.known (Command.long "--expect" .several) .nothing) := by decide +kernel
    rw [written, Grammar.marks, if_neg (by decide), hmark, marks_of_bare h]
    rfl
  | noProof => decide +kernel
  | options name =>
    have hmark : Command.runGrammar.mark "--opts" =
        .ok (.known (Command.long "--opts" .single) .nothing) := by decide +kernel
    rw [written, Grammar.marks, if_neg (by decide), hmark, Grammar.marks,
      if_neg (bare_ne_separator h), mark_of_bare _ h]
    rfl
  | attached name =>
    have hmark : Command.runGrammar.mark ("--opts=" ++ name) =
        .ok (.known (Command.long "--opts" .single) (.value name)) := rfl
    rw [written, Grammar.marks, if_neg (by rintro ⟨⟩), hmark]
    rfl
  | concurrent => decide +kernel

theorem separator_not_mem_written {o : RunOption} (h : o.Bare) : separator ∉ o.written := by
  cases o with
  | expect texts =>
    rw [written, List.mem_cons, not_or]
    exact ⟨by decide, separator_not_mem h⟩
  | noProof => decide
  | options name =>
    rw [written, List.mem_cons, List.mem_singleton, not_or]
    exact ⟨by decide, Ne.symm (bare_ne_separator h)⟩
  | attached name =>
    rw [written, List.mem_singleton]
    rintro ⟨⟩
  | concurrent => decide

theorem marks_flatMap_written {os : List RunOption} (h : ∀ o ∈ os, o.Bare) :
    Command.runGrammar.marks (os.flatMap written) = .ok (os.flatMap marked) := by
  induction os with
  | nil => rfl
  | cons o os ih =>
    have ho := h o (List.mem_cons_self ..)
    exact marks_append (marks_written ho) (separator_not_mem_written ho)
      (ih fun o ho => h o (List.mem_cons_of_mem _ ho))

/-- An option ends a run of arguments and of operands. -/
theorem not_argument_of_head {os : List RunOption} {m : Text × Mark}
    (hm : m ∈ (os.flatMap marked).head?) : isArgument m = false ∧ isOperand m = false := by
  cases os with
  | nil => cases hm
  | cons o os =>
    have hhead : m ∈ (o.marked ++ os.flatMap marked).head? := hm
    cases o <;> (cases hhead; exact ⟨rfl, rfl⟩)

/-- What reading an option adds to what has been read. -/
def add (o : RunOption) (st : State) : State :=
  { st with parsed := { st.parsed with given := st.parsed.given ++ [o.given] } }

variable {o : RunOption} {st : State} {rest : List (Text × Mark)}

/-- An option with several values takes the run of arguments that follows it. -/
theorem option_expect (st : State) {texts : List Text} (hbare : ∀ t ∈ texts, t.Bare)
    (hfits : texts ≠ []) (hrest : ∀ m ∈ rest.head?, isArgument m = false) :
    ∃ hle, State.option Command.runGrammar st (Command.long "--expect" .several) .nothing
        (asArguments texts ++ rest) = .ok ((expect texts).add st, ⟨rest, hle⟩) := by
  obtain ⟨htake, hdrop⟩ := takeWhile_asArguments (p := isArgument) (fun _ => rfl) hrest texts
  have hnonempty : (asArguments texts).isEmpty = false := by
    cases texts with
    | nil => exact absurd rfl hfits
    | cons t texts => rfl
  refine ⟨by simp, ?_⟩
  unfold State.option
  simp only [Command.long, htake, hdrop, hnonempty, Bool.false_eq_true, if_false, State.give,
    map_asArguments, erase_separator hbare]
  rfl

/-- An option is read, and reading goes on after it. -/
theorem run_marked (hbare : o.Bare) (hfits : o.Fits)
    (hrest : ∀ m ∈ rest.head?, isArgument m = false) :
    State.run Command.runGrammar st (o.marked ++ rest) =
      State.run Command.runGrammar (o.add st) rest := by
  cases o with
  | expect texts =>
    obtain ⟨hle, hoption⟩ := option_expect st hbare hfits hrest
    rw [marked, List.cons_append, State.run, hoption]
  | noProof =>
    rw [marked, List.singleton_append, State.run]
    rfl
  | options name =>
    have hname : [name].erase separator = [name] :=
      erase_separator fun t ht => List.mem_singleton.1 ht ▸ hbare
    have hoption : State.option Command.runGrammar st (Command.long "--opts" .single) .nothing
        ((name, .argument) :: rest) = .ok (st.give (Command.long "--opts" .single) [name],
          ⟨rest, Nat.le_succ _⟩) := rfl
    rw [marked, List.cons_append, List.singleton_append, State.run, hoption, State.give, hname]
    rfl
  | attached name =>
    rw [marked, List.singleton_append, State.run]
    rfl
  | concurrent =>
    rw [marked, List.singleton_append, State.run]
    rfl

theorem run_marked_of_not_fits (hfits : ¬o.Fits) (hrest : ∀ m ∈ rest.head?, isArgument m = false) :
    State.run Command.runGrammar st (o.marked ++ rest) = .error .misfit := by
  cases o with
  | expect texts =>
    obtain rfl : texts = [] := not_not.1 hfits
    have hempty : (asArguments [] ++ rest).takeWhile isArgument = [] :=
      (takeWhile_asArguments (fun _ => rfl) hrest []).1
    have hoption : State.option Command.runGrammar st (Command.long "--expect" .several) .nothing
        (asArguments [] ++ rest) = .error .misfit := by
      unfold State.option
      simp only [Command.long, hempty]
      rfl
    rw [marked, List.cons_append, State.run, hoption]
  | noProof | options _ | attached _ | concurrent => exact absurd trivial hfits

/-- Options that fit are read one after another. -/
theorem run_flatMap_marked {os : List RunOption} (hbare : ∀ o ∈ os, o.Bare)
    (hfits : ∀ o ∈ os, o.Fits) (st : State) :
    State.run Command.runGrammar st (os.flatMap marked) =
      .ok { st with parsed := { st.parsed with given := st.parsed.given ++ os.map given } } := by
  induction os generalizing st with
  | nil =>
    rw [List.flatMap_nil, State.run, List.map_nil, List.append_nil]
  | cons o os ih =>
    rw [List.flatMap_cons, run_marked (hbare o (List.mem_cons_self ..))
        (hfits o (List.mem_cons_self ..)) fun m hm => (not_argument_of_head hm).1,
      ih (fun o ho => hbare o (List.mem_cons_of_mem _ ho))
        (fun o ho => hfits o (List.mem_cons_of_mem _ ho)), List.map_cons, add]
    simp only [List.append_assoc, List.singleton_append]

theorem run_flatMap_marked_of_not_fits {os : List RunOption} (hbare : ∀ o ∈ os, o.Bare)
    (hfits : ∃ o ∈ os, ¬o.Fits) (st : State) :
    State.run Command.runGrammar st (os.flatMap marked) = .error .misfit := by
  induction os generalizing st with
  | nil =>
    obtain ⟨o, ho, -⟩ := hfits
    cases ho
  | cons o os ih =>
    rw [List.flatMap_cons]
    by_cases ho : o.Fits
    · obtain ⟨o', hmem, ho'⟩ := hfits
      have hmem : o' ∈ os := (List.mem_cons.1 hmem).resolve_left fun h => ho' (h ▸ ho)
      rw [run_marked (hbare o (List.mem_cons_self ..)) ho fun m hm => (not_argument_of_head hm).1,
        ih (fun o ho => hbare o (List.mem_cons_of_mem _ ho)) ⟨o', hmem, ho'⟩]
    · exact run_marked_of_not_fits ho fun m hm => (not_argument_of_head hm).1

end RunOption

namespace Command

variable {operands : List Text} {os : List RunOption}

theorem bare_name (op : Operation) : op.name.Bare := by
  cases op <;> decide

/-- The operands are read first, and then the options. -/
theorem run_runLine (op : Operation) (hoperands : ∀ t ∈ operands, t.Bare)
    (hbare : ∀ o ∈ os, o.Bare) :
    runGrammar.parse (op.name :: (operands ++ os.flatMap RunOption.written)) = (do
      let st ← State.run runGrammar (if operands = []
        then ⟨⟨[], [[op.name]]⟩, [⟨true, none⟩], false⟩
        else ⟨⟨[], [[op.name], operands]⟩, [], false⟩) (os.flatMap RunOption.marked)
      if st.misfits || !st.pending.isEmpty then throw .misfit
      return st.parsed) := by
  have hall : ∀ t ∈ op.name :: operands, t.Bare := by
    intro t ht
    rcases List.mem_cons.1 ht with rfl | ht
    · exact bare_name op
    · exact hoperands t ht
  have hmarks : runGrammar.marks (op.name :: (operands ++ os.flatMap RunOption.written)) =
      .ok (asArguments (op.name :: operands) ++ os.flatMap RunOption.marked) :=
    marks_append (marks_of_bare hall) (separator_not_mem hall)
      (RunOption.marks_flatMap_written hbare)
  obtain ⟨htake, hdrop⟩ := takeWhile_asArguments (p := isOperand) (fun _ => rfl)
    (fun m hm => (RunOption.not_argument_of_head hm).2) operands
  have hcons : asArguments (op.name :: operands) ++ os.flatMap RunOption.marked =
      (op.name, .argument) :: (asArguments operands ++ os.flatMap RunOption.marked) := rfl
  have hserve : State.serve ⟨⟨[], []⟩, runGrammar.operands, false⟩
      ((op.name, .argument) :: asArguments operands) = _ := serve_operands op hoperands
  rw [Grammar.parse, hmarks, ok_bind, hcons, State.run, htake, hdrop, hserve]
  · simp
  · simp

theorem parse_run (args : List Text) :
    parse ("run" :: args) = (do
      let p ← runGrammar.parse args
      return .run (p.has verbose.long) (runArguments p)) := by
  have hmark : outerGrammar.mark "run" = .ok .argument := rfl
  have hseparator : Text.ofString "run" ≠ separator := by decide
  rw [parse, parseFrom, if_neg hseparator, hmark, ok_bind]
  simp only [fromName, named]
  cases runGrammar.parse args <;> rfl

section

variable (given : List (Text × List Text)) (groups : List (List Text))

theorem values?_concat (e : Text × List Text) (long : Text) :
    Parsed.values? ⟨given ++ [e], groups⟩ long =
      if e.1 = long then some e.2 else Parsed.values? ⟨given, groups⟩ long := by
  rw [Parsed.values?, List.reverse_concat, List.find?_cons]
  by_cases h : e.1 = long
  · simp [h]
  · simp [h, Parsed.values?]

theorem has_concat (e : Text × List Text) (long : Text) :
    Parsed.has ⟨given ++ [e], groups⟩ long =
      (decide (e.1 = long) || Parsed.has ⟨given, groups⟩ long) := by
  simp [Parsed.has, Bool.or_comm]

theorem runArguments_concat (o : RunOption) :
    runArguments ⟨given ++ [o.given], groups⟩ = o.apply (runArguments ⟨given, groups⟩) := by
  simp only [runArguments, optionsName?, value?, values?_concat, has_concat]
  cases o with
  | attached name =>
    by_cases hname : name = separator
    · subst hname
      rfl
    · have herase : [name].erase separator = [name] :=
        List.erase_of_not_mem fun h => hname (List.mem_singleton.1 h).symm
      simp only [RunOption.given, RunOption.apply, herase, if_neg hname]
      rfl
  | expect _ | noProof | options _ | concurrent => rfl

end

theorem runArguments_map_given (op : Operation) (operands : List Text) (os : List RunOption) :
    runArguments ⟨os.map RunOption.given, [[op.name], operands]⟩ = .ofOptions op operands os := by
  induction os using List.reverseRecOn with
  | nil => rfl
  | append_singleton os o ih =>
    rw [List.map_append, List.map_singleton, runArguments_concat, ih, RunArguments.ofOptions,
      RunArguments.ofOptions, List.foldl_append]
    rfl

/-- A verbose run is asked for by none of these options. -/
theorem not_verbose (os : List RunOption) (groups : List (List Text)) :
    Parsed.has ⟨os.map RunOption.given, groups⟩ verbose.long = false := by
  rw [Parsed.has, List.any_eq_false]
  intro e he
  obtain ⟨o, -, rfl⟩ := List.mem_map.1 he
  have hlong : ∀ t ∈ ["--expect", "--no-prove", "--opts", "--concurrent"],
      Text.ofString t ≠ verbose.long := by decide
  cases o <;> exact decide_eq_true_iff.not.2 (hlong _ (by simp))

theorem parse_runLine (op : Operation) (hoperands : ∀ t ∈ operands, t.Bare)
    (hbare : ∀ o ∈ os, o.Bare) (hne : operands ≠ []) (hfits : ∀ o ∈ os, o.Fits) :
    parse (runLine op operands os) = .ok (.run false (.ofOptions op operands os)) := by
  rw [runLine, parse_run, run_runLine op hoperands hbare, if_neg hne,
    RunOption.run_flatMap_marked hbare hfits, ok_bind, List.nil_append]
  exact congrArg Except.ok (congrArg₂ Command.run (not_verbose os [[op.name], operands])
    (runArguments_map_given op operands os))

theorem parse_runLine_eq_misfit (op : Operation) (hoperands : ∀ t ∈ operands, t.Bare)
    (hbare : ∀ o ∈ os, o.Bare) (h : operands = [] ∨ ∃ o ∈ os, ¬o.Fits) :
    parse (runLine op operands os) = .error .misfit := by
  rw [runLine, parse_run, run_runLine op hoperands hbare]
  by_cases hfits : ∀ o ∈ os, o.Fits
  · have hempty : operands = [] := h.resolve_right fun ⟨o, ho, hunfit⟩ => hunfit (hfits o ho)
    rw [if_pos hempty, RunOption.run_flatMap_marked hbare hfits]
    rfl
  · rw [RunOption.run_flatMap_marked_of_not_fits hbare (by simpa using hfits)]
    rfl

end Command

end CircuitReceipts
