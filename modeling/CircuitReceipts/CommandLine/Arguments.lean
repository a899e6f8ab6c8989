import CircuitReceipts.Text.Class

/-!
# Command-line arguments

How a list of arguments is read under a grammar of options and operands. An argument that begins
with a hyphen is an option, unless it looks like a negative number or holds a blank; a long option
may be shortened as long as it stays unambiguous and may carry its value after an equals sign, and
short options, which take no values, may be run together, also after an equals sign. Two hyphens end
the options. Operands are taken in groups: a run of them serves as many operand rules, in order, as
it has arguments for. Of the values of an option, and of each group of operands, the first that is
two hyphens is dropped.
-/

namespace CircuitReceipts

namespace Arguments

/-- What an option asks for. -/
inductive OptionKind where
  /-- Nothing. -/
  | switch
  /-- Nothing but an explanation of the grammar, which ends the reading. -/
  | help
  /-- One value. -/
  | single
  /-- One value or more. -/
  | several
deriving DecidableEq, Inhabited

def OptionKind.takesValue : OptionKind → Bool
  | switch | help => false
  | single | several => true

/-- An option: its long name, the letter of its short name if it has one, and what it asks for. -/
structure OptionRule where
  long : Text
  short : Option Char
  kind : OptionKind
deriving DecidableEq, Inhabited

/-- A group of operands: one or any positive number, and the values it may have if not all. -/
structure OperandRule where
  many : Bool
  choices : Option (List Text)
deriving DecidableEq, Inhabited

/-- The options and the operands of a command. -/
structure Grammar where
  options : List OptionRule
  operands : List OperandRule
deriving Inhabited

/-- Why reading stopped without a result: an explanation was asked for, or the arguments do not fit
the grammar. -/
inductive Stop where
  | help
  | misfit
deriving DecidableEq, Inhabited

/-- What has been read: the options given, by long name and with their values, and the groups of
operands. -/
structure Parsed where
  given : List (Text × List Text)
  groups : List (List Text)
deriving DecidableEq, Inhabited

def Parsed.has (p : Parsed) (long : Text) : Bool :=
  p.given.any (·.1 = long)

/-- The values of an option, as last given. -/
def Parsed.values? (p : Parsed) (long : Text) : Option (List Text) :=
  (p.given.reverse.find? (·.1 = long)).map (·.2)

def Parsed.group (p : Parsed) (i : Nat) : List Text :=
  p.groups.getD i []

/-- What an option argument carries besides the option itself. -/
inductive Attached where
  | nothing
  | value (t : Text)
  /-- Letters run together with a short option. -/
  | letters (t : Text)
deriving DecidableEq, Inhabited

/-- What an argument is. -/
inductive Mark where
  | argument
  /-- The two hyphens that end the options. -/
  | separator
  | known (rule : OptionRule) (attached : Attached)
  | unknown
deriving DecidableEq, Inhabited

/-- Whether a text is digits, or has a point with digits after it and perhaps before it. A line feed
at the end does not count. -/
def isUnsignedNumber (t : Text) : Bool :=
  let body := if t.getLast? = some (.char '\n') then t.dropLast else t
  let isDigit (s : Symbol) : Bool := s.decimalDigit?.isSome
  match body.dropWhile isDigit with
  | [] => !body.isEmpty
  | .char '.' :: fraction => !fraction.isEmpty && fraction.all isDigit
  | _ => false

def separator : Text := "--"

/-- The text before the first equals sign and the text after it. -/
def atEquals? : Text → Option (Text × Text)
  | [] => none
  | .char '=' :: rest => some ([], rest)
  | s :: rest => (atEquals? rest).map fun (before, after) => (s :: before, after)

namespace Grammar

def named? (g : Grammar) (name : Text) : Option OptionRule :=
  g.options.find? fun o =>
    o.long = name ||
      match o.short, name with
      | some c, [.char '-', .char d] => c = d
      | _, _ => false

def lettered? (g : Grammar) (s : Symbol) : Option OptionRule :=
  g.named? [.char '-', s]

/-- The options whose long names begin with a text. -/
def abbreviated (g : Grammar) (t : Text) : List OptionRule :=
  g.options.filter fun o => t.isPrefixOf o.long

/-- The options of the grammar that an argument may be. -/
def candidates (g : Grammar) (arg : Text) : List (OptionRule × Attached) :=
  match g.named? arg, arg with
  | some o, _ => [(o, .nothing)]
  | none, .char '-' :: .char '-' :: _ =>
    let (name, attached) : Text × Attached :=
      match atEquals? arg with
      | some (before, after) => (before, .value after)
      | none => (arg, .nothing)
    match g.named? name with
    | some o => [(o, attached)]
    | none => (g.abbreviated name).map fun o => (o, attached)
  | none, .char '-' :: s :: .char '=' :: letters =>
    (g.lettered? s).toList.map fun o => (o, .letters letters)
  | none, .char '-' :: s :: letters => (g.lettered? s).toList.map fun o => (o, .letters letters)
  | none, _ => []

/-- What an argument before the end of the options is. One that may be several options is refused,
whatever stands before it. -/
def mark (g : Grammar) (arg : Text) : Except Stop Mark :=
  match arg with
  | .char '-' :: s :: rest =>
    match g.candidates arg with
    | [(o, attached)] => .ok (.known o attached)
    | [] =>
      .ok (if isUnsignedNumber (s :: rest) || arg.contains (.char ' ') then .argument else .unknown)
    | _ => .error .misfit
  | _ => .ok .argument

/-- The arguments with what each of them is. -/
def marks (g : Grammar) : List Text → Except Stop (List (Text × Mark))
  | [] => .ok []
  | arg :: rest =>
    if arg = separator then .ok ((arg, .separator) :: rest.map (·, .argument))
    else do
      let m ← g.mark arg
      return (arg, m) :: (← g.marks rest)

/-- The options that letters run together stand for. -/
def letters? (g : Grammar) (t : Text) : Option (List OptionRule) :=
  t.mapM g.lettered?

end Grammar

/-- Whether an argument may be the value of an option. -/
def isArgument (m : Text × Mark) : Bool :=
  m.2 = .argument

/-- Whether an argument belongs to a run of operands. -/
def isOperand (m : Text × Mark) : Bool :=
  m.2 = .argument || m.2 = .separator

/-- The start of a run of operands with a number of arguments, and what is left of the run. A
separator goes with the argument before it, and one before them all with the first. -/
def cut : Nat → List (Text × Mark) → List (Text × Mark) × List (Text × Mark)
  | _, [] => ([], [])
  | n, m :: ms =>
    if isArgument m then
      match n with
      | 0 => ([], m :: ms)
      | n + 1 => let (start, left) := cut n ms; (m :: start, left)
    else let (start, left) := cut n ms; (m :: start, left)

/-- A run of operands dealt out to as many operand rules as it has arguments for: the groups, what
is left of the run, and the rules left. A rule for many takes all arguments but one for each later
rule that is served. -/
def deal : List OperandRule → List (Text × Mark) →
    List (List Text) × List (Text × Mark) × List OperandRule
  | [], operands => ([], operands, [])
  | r :: rules, operands =>
    let available := operands.countP isArgument
    if available = 0 then ([], operands, r :: rules)
    else
      let later := min rules.length (available - 1)
      let (start, rest) := cut (if r.many then available - later else 1) operands
      let (groups, left, pending) := deal rules rest
      ((start.map (·.1)).erase separator :: groups, left, pending)

/-- Whether the groups are among the choices of their rules. -/
def allowed (rules : List OperandRule) (groups : List (List Text)) : Bool :=
  (rules.zip groups).all fun (r, group) =>
    match r.choices with
    | some choices => group.all choices.contains
    | none => true

/-- The state of reading: what has been read, the operand rules still to be served, and whether
anything was met that fits nowhere. -/
structure State where
  parsed : Parsed
  pending : List OperandRule
  misfits : Bool
deriving Inhabited

/-- The state after an option is given with values. -/
def State.give (st : State) (o : OptionRule) (values : List Text) : State :=
  { st with
    parsed := { st.parsed with given := st.parsed.given ++ [(o.long, values.erase separator)] } }

/-- The state after a run of options without values. -/
def State.giveEach (st : State) : List OptionRule → Except Stop State
  | [] => .ok st
  | o :: rest => if o.kind = .help then .error .help else (st.give o []).giveEach rest

def State.serve (st : State) (operands : List (Text × Mark)) : Except Stop State :=
  let (groups, left, pending) := deal st.pending operands
  if !allowed st.pending groups then .error .misfit
  else
    .ok ⟨{ st.parsed with groups := st.parsed.groups ++ groups }, pending,
      st.misfits || !left.isEmpty⟩

/-- The state after an option, with the arguments that follow it, and the arguments it leaves. -/
def State.option (g : Grammar) (st : State) (o : OptionRule) (attached : Attached)
    (rest : List (Text × Mark)) :
    Except Stop (State × { left : List (Text × Mark) // left.length ≤ rest.length }) := do
  match attached with
  | .value t =>
    if o.kind.takesValue then return (st.give o [t], ⟨rest, Nat.le_refl _⟩) else throw .misfit
  | .letters [] => throw .misfit
  | .letters t =>
    match g.letters? t with
    | some os => return (← st.giveEach (o :: os), ⟨rest, Nat.le_refl _⟩)
    | none => throw .misfit
  | .nothing =>
    match o.kind with
    | .switch => return (st.give o [], ⟨rest, Nat.le_refl _⟩)
    | .help => throw .help
    | .single =>
      match h : rest with
      | (value, .argument) :: left => return (st.give o [value], ⟨left, by simp [h]⟩)
      | _ => throw .misfit
    | .several =>
      let values := rest.takeWhile isArgument
      if values.isEmpty then throw .misfit
      else
        return (st.give o (values.map (·.1)),
          ⟨rest.dropWhile isArgument, (List.dropWhile_sublist _).length_le⟩)

def State.run (g : Grammar) (st : State) (ms : List (Text × Mark)) : Except Stop State :=
  match ms with
  | [] => .ok st
  | (_, .known o attached) :: rest =>
    match st.option g o attached rest with
    | .error e => .error e
    | .ok (st, ⟨left, _⟩) => State.run g st left
  | (_, .unknown) :: rest => State.run g { st with misfits := true } rest
  | m :: rest =>
    match st.serve (m :: rest.takeWhile isOperand) with
    | .error e => .error e
    | .ok st => State.run g st (rest.dropWhile isOperand)
termination_by ms.length
decreasing_by
  · simp only [List.length_cons]
    omega
  · simp
  · have := (List.dropWhile_sublist isOperand (l := rest)).length_le
    simp only [List.length_cons]
    omega

def Grammar.parse (g : Grammar) (args : List Text) : Except Stop Parsed := do
  let st ← State.run g ⟨⟨[], []⟩, g.operands, false⟩ (← g.marks args)
  if st.misfits || !st.pending.isEmpty then throw .misfit
  return st.parsed

end Arguments

end CircuitReceipts
