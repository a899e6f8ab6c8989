import CircuitReceipts.Text

/-!
# Paths

A path is a root, which may be empty, and the names below it. Empty names and single dots in the
written form stand for nothing and are dropped; double dots are kept, because what they lead to
depends on the files.
-/

namespace CircuitReceipts

namespace Text

/-- The texts between the occurrences of a symbol. -/
def splitOn (separator : Symbol) : Text → List Text
  | [] => [[]]
  | s :: rest =>
    if s = separator then [] :: splitOn separator rest
    else
      match splitOn separator rest with
      | [] => [[s]]
      | part :: parts => (s :: part) :: parts

/-- A text without the separator is its only part. -/
theorem splitOn_of_not_mem {separator : Symbol} {t : Text} (h : separator ∉ t) :
    t.splitOn separator = [t] := by
  induction t with
  | nil => rfl
  | cons s t ih =>
    rw [List.mem_cons, not_or] at h
    rw [splitOn, if_neg (Ne.symm h.1), ih h.2]

end Text

/-- A path in a file tree. -/
structure Path where
  root : Text
  names : List Text
deriving DecidableEq, Inhabited

namespace Path

/-- The root that a written path begins with: two slashes are a root of their own, any other number
of slashes is one. -/
def rootOf : Text → Text
  | .char '/' :: .char '/' :: .char '/' :: _ => "/"
  | .char '/' :: .char '/' :: _ => "//"
  | .char '/' :: _ => "/"
  | _ => []

/-- Whether a name stands for the directory it is looked up in. -/
def isSame (name : Text) : Bool :=
  name.isEmpty || name = Text.ofString "."

/-- Whether a name stands for the directory above. -/
def isAbove (name : Text) : Bool :=
  name = Text.ofString ".."

def ofText (t : Text) : Path :=
  ⟨rootOf t, (t.splitOn (.char '/')).filter (!isSame ·)⟩

def written (p : Path) : Text :=
  if p.root.isEmpty && p.names.isEmpty then "." else p.root ++ Text.join "/" p.names

/-- A path taken from the directory that another one names, unless it has a root of its own. -/
def join (p q : Path) : Path :=
  if q.root.isEmpty then ⟨p.root, p.names ++ q.names⟩ else q

/-- The path of the directory that a path is in. -/
def parent (p : Path) : Path :=
  { p with names := p.names.dropLast }

end Path

end CircuitReceipts
