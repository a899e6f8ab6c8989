import CircuitReceipts.Proofs.Codec.Hex
import CircuitReceipts.Proofs.CommandLine.Run

/-!
# The result on the first line

A run on natural numbers in hexadecimal prints the reference on them. The numbers are read back as
they were written, so a run under usable options is the pipeline on these numbers; and as the
printed form of a value has no line feed, the first line of the output ends where the result does.
Numbers in hexadecimal may have any length, but those of a failure are told in base ten, which a
host may not be able to.
-/

namespace CircuitReceipts

namespace CommandLine

/-- The output up to the first line feed. -/
def firstLine (out : Text) : Text :=
  out.takeWhile fun s => s ≠ .char '\n'

theorem firstLine_lines {l : Text} (h : .char '\n' ∉ l) (ls : List Text) :
    firstLine (lines (l :: ls)) = l := by
  have hall : ∀ s ∈ l, decide (s ≠ .char '\n') = true := by
    intro s hs
    exact decide_eq_true fun hnewline => h (hnewline ▸ hs)
  rw [firstLine, lines, List.flatMap_cons, List.append_assoc, List.takeWhile_append_of_pos hall]
  simp

theorem shown_int (n : Int) : shown (.int n) = hexText n := rfl

theorem shown_pair (m n : Int) : shown (.tuple [.int m, .int n]) =
    .char '(' :: ((hexText m).quoted ++
      (Text.ofString ", " ++ ((hexText n).quoted ++ [.char ')']))) := by
  have hform : (Value.tuple [.int m, .int n]).hexForm =
      .ok (.tuple [.text (hexText m), .text (hexText n)]) := rfl
  rw [shown, hform]
  simp [Value.display, Value.written, Value.writtenEach, Value.writtenTuple, Text.join]

variable {op : Operation} {ns : List Nat}

theorem newline_not_mem_shown (hlen : ns.length = op.outputShape.size) :
    .char '\n' ∉ shown (op.outputShape.fill ns) := by
  have hscalar (h : ns.length = 1) : .char '\n' ∉ shown (Shape.scalar.fill ns) := by
    obtain ⟨n, rfl⟩ := List.length_eq_one_iff.1 h
    rw [Shape.fill_scalar, shown_int]
    exact newline_not_mem_hexText n
  have hpair (h : ns.length = 2) : .char '\n' ∉ shown (Operation.pair.fill ns) := by
    obtain ⟨m, n, rfl⟩ := List.length_eq_two.1 h
    have hshown : shown (Operation.pair.fill [m, n]) = _ := shown_pair m n
    rw [hshown]
    simp [newline_not_mem_quoted, Text.ofString]
  cases op with
  | modadd | modsub | modmul | modinv => exact hscalar hlen
  | extfieldadd | extfieldsub => exact hpair hlen

theorem newline_not_mem_name (op : Operation) : .char '\n' ∉ op.name := by
  cases op <;> decide

def hexTexts (ns : List Nat) : List Text :=
  ns.map fun (n : Nat) => hexText n

theorem bare_of_mem_hexTexts {x : Text} (hx : x ∈ hexTexts ns) : x.Bare := by
  obtain ⟨n, -, rfl⟩ := List.mem_map.1 hx
  rw [Text.Bare, head?_hexText]
  decide

theorem value_hexTexts {s : Shape} (hlen : ns.length = s.size) :
    value s (hexTexts ns) = .ok (s.fill ns) := by
  refine value_eq_ok.2 ⟨ns.map Int.ofNat, ?_, (List.length_map _).trans hlen, rfl⟩
  rw [hexTexts, List.mapM_map]
  exact mapM_eq_ok_map fun n _ => ofHexText_hexText n

/-- An expected result of as many integers as a shape has places is alike to given numbers in that
shape exactly if it lists these numbers. -/
theorem exists_expected {s : Shape} (hproper : s.proper = true) (hlen : ns.length = s.size)
    {expected : Option (List Text)} (h : ∀ texts, expected = some texts →
      ∃ zs, texts.mapM ofHexText = .ok zs ∧ zs.length = s.size) :
    ∃ v, expected.mapM (value s) = .ok v ∧
      ((∀ w, v = some w → (s.fill ns).alike w = true) ↔
        ∀ texts, expected = some texts → texts.mapM ofHexText = .ok (ns.map Int.ofNat)) := by
  cases expected with
  | none => exact ⟨none, rfl, by simp⟩
  | some texts =>
    obtain ⟨zs, hzs, hsize⟩ := h texts rfl
    have hvalue : value s texts = .ok (s.arrange zs) := value_eq_ok.2 ⟨zs, hzs, hsize, rfl⟩
    have halike : (s.fill ns).alike (s.arrange zs) = decide (ns.map Int.ofNat = zs) := by
      rw [Shape.fill_eq_arrange]
      exact Shape.alike_arrange s _ zs hproper ((List.length_map _).trans hlen) hsize
    refine ⟨some (s.arrange zs), ?_, ?_⟩
    · rw [Option.mapM_some, hvalue]
      rfl
    · simp only [Option.some.injEq, forall_eq', halike, decide_eq_true_eq, hzs, Except.ok.injEq]
      exact eq_comm

/-- The options of a prover that have a name of their own are valid. -/
theorem exists_proverOptions (host : Host) (t : FileTree) {a : RunArguments}
    (h : a.noProof = true ∨ a.options = some (Text.ofString "fast") ∨
      a.options = some (Text.ofString "default")) :
    ∃ prover, proverOptions host t a = .ok prover ∧ ∀ o, prover = some o → o.Valid := by
  have hvalid {o : ProverOptions} (ho : o.Valid) (o' : ProverOptions) (h : some o = some o') :
      o'.Valid :=
    Option.some.inj h ▸ ho
  rw [proverOptions]
  cases hproof : a.noProof with
  | true => exact ⟨none, rfl, by simp⟩
  | false =>
    rcases h with h | h | h
    · cases hproof.symm.trans h
    · rw [h]
      exact ⟨some .fast, rfl, hvalid ProverOptions.valid_fast⟩
    · rw [h]
      exact ⟨some .standard, rfl, hvalid ProverOptions.valid_standard⟩

/-- A run of an operation on the hexadecimal texts of natural numbers, without a prover or under
options with a name of their own, and with an expected result of the right count if one is given,
has an output of status zero or one, unless the host cannot tell how it fails. The status is zero
exactly if the operation is defined on the numbers, the standard limits leave room for it, and the
expected result lists the numbers of its outcome. Then the first line of the output is the name of
the operation with the reference on the numbers. Only the memory limits the numbers: the limbs of
each have to be counted in one word. -/
theorem prints_reference (host : Host) (t : FileTree) (op : Operation) {ns : List Nat}
    (hlen : ns.length = op.inputShape.size) (hns : ∀ n ∈ ns, Writable n) {os : List RunOption}
    (hbare : ∀ o ∈ os, o.Bare) (hfits : ∀ o ∈ os, o.Fits) {a : RunArguments}
    (ha : RunArguments.ofOptions op (hexTexts ns) os = a)
    (hprover : a.noProof = true ∨ a.options = some (Text.ofString "fast") ∨
      a.options = some (Text.ofString "default"))
    (hexpected : ∀ texts, a.expected = some texts →
      ∃ zs, texts.mapM ofHexText = .ok zs ∧ zs.length = op.outputShape.size) :
    ∃ expected, a.expected.mapM (value op.outputShape) = .ok expected ∧
      ((¬op.Untold host ns expected ∧
          ∃ out, main host t (runLine op (hexTexts ns) os) = .ok out ∧
            (out.status = 0 ∨ out.status = 1) ∧
            (out.status = 0 ↔ op.Admissible ns ∧ Limits.standard.RoomFor op ns ∧
              ∀ texts, a.expected = some texts →
                texts.mapM ofHexText = .ok ((op.outcome ns).map Int.ofNat)) ∧
            (out.status = 0 → ∃ v, op.expected (op.inputShape.fill ns) = .ok v ∧
              firstLine out.out = op.name ++ ": " ++ shown v)) ∨
        op.Untold host ns expected ∧ main host t (runLine op (hexTexts ns) os) =
          .error (.failure (.misuse .tooManyDigits))) := by
  subst ha
  have hne : hexTexts ns ≠ [] := by
    have hsize : op.inputShape.size ≠ 0 := by cases op <;> decide
    rw [hexTexts, Ne, List.map_eq_nil_iff, ← List.length_eq_zero_iff, hlen]
    exact hsize
  have hshape := op.inputShape.shape_fill ns op.proper_inputShape hlen
  have hflatten := op.inputShape.flatten_fill ns op.proper_inputShape hlen
  have houtcome := Operation.length_outcome hlen
  obtain ⟨v, hv, halike⟩ := exists_expected op.proper_outputShape houtcome hexpected
  obtain ⟨prover, hprover, hvalid⟩ := exists_proverOptions host t hprover
  have hrows : op.program.size < 0x100000000 := by cases op <;> decide +kernel
  refine ⟨v, hv, ?_⟩
  rw [main_runLine host t op (fun x => bare_of_mem_hexTexts) hbare hne hfits, value_hexTexts hlen,
    ok_bind, hv, ok_bind, hprover, ok_bind]
  rcases ended_cases host t v hshape hflatten hns fun o ho => (hvalid o ho).checked with
    ⟨hpasses, ⟨out, ls, hout, hstatus, htext⟩ | ⟨o, m, ho, hunusable, -⟩⟩ |
    ⟨hfails, htold, out, hout, hstatus⟩ | huntold
  · have hreference := Operation.expected_eq_ok hshape hflatten hpasses.admissible
    have hline : .char '\n' ∉
        op.name ++ ": " ++ shown (op.outputShape.fill (op.outcome ns)) := by
      rw [List.mem_append, List.mem_append, not_or, not_or]
      exact ⟨⟨newline_not_mem_name op, by decide⟩, newline_not_mem_shown houtcome⟩
    refine .inl ⟨fun huntold => huntold.not_passes hpasses, out, hout, .inl hstatus,
      iff_of_true hstatus ?_, fun _ => ⟨_, hreference, ?_⟩⟩
    · exact ⟨hpasses.admissible, hpasses.room, halike.1 hpasses.alike⟩
    · rw [htext]
      exact firstLine_lines hline ls
  · exact absurd ((hvalid o ho).usable hrows) hunusable
  · refine .inl ⟨htold, out, hout, .inr hstatus, iff_of_false (by omega) ?_, fun h => by omega⟩
    rintro ⟨hadmissible, hroom, hlists⟩
    exact hfails ⟨hadmissible, hroom, halike.2 hlists⟩
  · exact .inr huntold

/-- The difference of two pairs modulo seven, proved by a worker under the standard options; the
expected result is written without a radix mark in part. -/
theorem prints_reference_extfieldsub :
    ∃ out, main .standard .empty ["run", "extfieldsub", "0x01", "0x02", "0x03", "0x04", "0x07",
        "--expect", "0x05", "5", "--opts", "default", "--concurrent"] = .ok out ∧
      out.status = 0 ∧ firstLine out.out = "extfieldsub: ('0x05', '0x05')" := by
  have hlt : ∀ n ∈ [1, 2, 3, 4, 7], n < 0x100000000 := by decide
  have hbare : ∀ o ∈ [RunOption.expect ["0x05", "5"], .options "default", .concurrent], o.Bare := by
    decide
  have hfits : ∀ o ∈ [RunOption.expect ["0x05", "5"], .options "default", .concurrent], o.Fits := by
    decide
  have hexpected : [Text.ofString "0x05", Text.ofString "5"].mapM ofHexText = .ok [5, 5] := by
    decide +kernel
  have hroom : Limits.standard.RoomFor .extfieldsub [1, 2, 3, 4, 7] :=
    ⟨by decide +kernel, by decide +kernel, by decide +kernel⟩
  have hline : runLine .extfieldsub (hexTexts [1, 2, 3, 4, 7])
      [.expect ["0x05", "5"], .options "default", .concurrent] =
        (["run", "extfieldsub", "0x01", "0x02", "0x03", "0x04", "0x07", "--expect", "0x05", "5",
          "--opts", "default", "--concurrent"] : List Text) := by decide +kernel
  have hadmissible : Operation.Admissible .extfieldsub [1, 2, 3, 4, 7] :=
    ⟨by decide, fun h => Operation.noConfusion h⟩
  obtain ⟨expected, hread, ⟨-, out, hout, -, hstatus, hfirst⟩ | ⟨huntold, -⟩⟩ :=
    prints_reference .standard .empty .extfieldsub rfl (fun n hn => writable_of_lt (hlt n hn))
      hbare hfits rfl (.inr (.inr rfl))
      fun texts htexts => Option.some.inj htexts ▸ ⟨[5, 5], hexpected, rfl⟩
  · have hzero : out.status = 0 := hstatus.2 ⟨hadmissible, hroom,
      fun texts htexts => Option.some.inj htexts ▸ hexpected⟩
    obtain ⟨v, hv, hprinted⟩ := hfirst hzero
    refine ⟨out, hline ▸ hout, hzero, hprinted.trans ?_⟩
    cases hv
    decide +kernel
  · -- the expected result is that of the operation
    have hvalue : value Operation.extfieldsub.outputShape ["0x05", "5"] =
        .ok (Operation.extfieldsub.outputShape.arrange [5, 5]) :=
      value_eq_ok.2 ⟨_, hexpected, rfl, rfl⟩
    obtain rfl : some (Operation.extfieldsub.outputShape.arrange [5, 5]) = expected :=
      Except.ok.inj ((congrArg (some <$> ·) hvalue).symm.trans hread)
    exact absurd ⟨hadmissible, hroom, fun v hv => Option.some.inj hv ▸ by decide +kernel⟩
      huntold.not_passes

theorem main_modinv (host : Host) (t : FileTree) (m n : Nat) :
    main host t (runLine .modinv (hexTexts [m, n]) [.noProof]) =
      ended host t .modinv none (.tuple [.int m, .int n]) none := by
  have hne : hexTexts [m, n] ≠ [] := List.cons_ne_nil _ _
  rw [main_runLine host t .modinv (fun x => bare_of_mem_hexTexts) (by decide) hne (by decide),
    value_hexTexts rfl]
  rfl

/-- A run need not have a status: two powers of two have room under the standard limits and have no
inverse, and the standard host cannot write them to say so. -/
theorem inverse_escapes :
    Limits.standard.RoomFor .modinv [2 ^ 14285, 2 ^ 14286] ∧
      main .standard .empty (runLine .modinv (hexTexts [2 ^ 14285, 2 ^ 14286]) [.noProof]) =
        .error (.failure (.misuse .tooManyDigits)) := by
  refine ⟨⟨by decide, by decide +kernel, by decide⟩, ?_⟩
  rw [main_modinv, ended, Pipeline.result_powersOfTwo]
  exact failed_of_not_reported .empty [] rfl

end CommandLine

end CircuitReceipts
