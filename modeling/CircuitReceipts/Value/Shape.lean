import CircuitReceipts.Value

/-!
# Shapes

The shape of a value says where its integers stand: one integer, or a tuple of shapes. Other things
may be written where a shape is expected; they are kept, so that a message can show them, but are
not proper shapes.
-/

namespace CircuitReceipts

/-- A shape descriptor. -/
inductive Shape where
  /-- One integer. -/
  | scalar
  | tuple (parts : List Shape)
  | list (parts : List Shape)
  | text (t : Text)
  | none
  | number (n : Int)
deriving Inhabited

namespace Shape

mutual

def same : Shape → Shape → Bool
  | scalar, scalar => true
  | tuple ps, tuple qs => sameEach ps qs
  | list ps, list qs => sameEach ps qs
  | text s, text t => s == t
  | none, none => true
  | number m, number n => m == n
  | _, _ => false

def sameEach : List Shape → List Shape → Bool
  | [], [] => true
  | p :: ps, q :: qs => same p q && sameEach ps qs
  | _, _ => false

end

mutual

theorem eq_of_same : ∀ {s t : Shape}, same s t = true → s = t
  | scalar, t, h => by cases t <;> simp_all [same]
  | tuple ps, t, h => by
    cases t <;> simp only [same, Bool.false_eq_true] at h
    rw [eq_of_sameEach h]
  | list ps, t, h => by
    cases t <;> simp only [same, Bool.false_eq_true] at h
    rw [eq_of_sameEach h]
  | text a, t, h => by cases t <;> simp_all [same]
  | none, t, h => by cases t <;> simp_all [same]
  | number a, t, h => by cases t <;> simp_all [same]

theorem eq_of_sameEach : ∀ {ps qs : List Shape}, sameEach ps qs = true → ps = qs
  | [], qs, h => by cases qs <;> simp_all [sameEach]
  | p :: ps, [], h => by simp [sameEach] at h
  | p :: ps, q :: qs, h => by
    simp only [sameEach, Bool.and_eq_true] at h
    rw [eq_of_same h.1, eq_of_sameEach h.2]

end

mutual

@[simp] theorem same_self : ∀ s : Shape, same s s = true
  | scalar => rfl
  | tuple ps => by rw [same]; exact sameEach_self ps
  | list ps => by rw [same]; exact sameEach_self ps
  | text t => by simp [same]
  | none => rfl
  | number n => by simp [same]

@[simp] theorem sameEach_self : ∀ ps : List Shape, sameEach ps ps = true
  | [] => rfl
  | p :: ps => by simp [sameEach, same_self p, sameEach_self ps]

end

theorem same_iff {s t : Shape} : same s t = true ↔ s = t :=
  ⟨eq_of_same, fun h => h ▸ same_self s⟩

instance : DecidableEq Shape := fun _ _ => decidable_of_iff _ same_iff

mutual

/-- The written form of a shape in messages. -/
def written : Shape → Text
  | scalar => "<class 'int'>"
  | tuple parts => Value.writtenTuple (writtenEach parts)
  | list parts => Value.writtenList (writtenEach parts)
  | text t => t.quoted
  | none => "None"
  | number n => Numeral.decimal n

def writtenEach : List Shape → List Text
  | [] => []
  | s :: ss => written s :: writtenEach ss

end

mutual

/-- The number of integers in a value of the shape; what is no tuple counts as one. -/
def size : Shape → Nat
  | tuple parts => sizeEach parts
  | _ => 1

/-- The number of integers in values of several shapes. -/
def sizeEach : List Shape → Nat
  | [] => 0
  | s :: ss => size s + sizeEach ss

end

mutual

/-- The value of the shape with the integers at the front of a list, and the rest of the list; the
list has enough of them. What is no tuple takes one integer. -/
def take : Shape → List Int → Value × List Int
  | tuple parts, ns =>
    let (vs, rest) := takeEach parts ns
    (.tuple vs, rest)
  | _, ns => (.int (ns.headD 0), ns.tail)

def takeEach : List Shape → List Int → List Value × List Int
  | [], ns => ([], ns)
  | s :: ss, ns =>
    let (v, rest) := take s ns
    let (vs, rest) := takeEach ss rest
    (v :: vs, rest)

end

/-- Why integers could not be arranged in a shape. -/
structure CountMismatch where
  expected : Nat
  got : Nat
deriving DecidableEq

/-- The text of the refusal of too few or too many integers. -/
def CountMismatch.message (e : CountMismatch) : Text :=
  s!"expected {e.expected} values, got {e.got}"

/-- The integers arranged in the shape, depth first. -/
def group (s : Shape) (ns : List Int) : Except CountMismatch Value :=
  if ns.length = s.size then .ok (s.take ns).1 else .error ⟨s.size, ns.length⟩

mutual

/-- Whether the descriptor is built of integers and tuples only. -/
def proper : Shape → Bool
  | scalar => true
  | tuple parts => properEach parts
  | _ => false

def properEach : List Shape → Bool
  | [] => true
  | s :: ss => proper s && properEach ss

end

end Shape

namespace Value

mutual

/-- The shape of a value: tuples and lists are tuples, all else counts as one integer. -/
def shape : Value → Shape
  | tuple items => .tuple (shapeEach items)
  | list items => .tuple (shapeEach items)
  | _ => .scalar

def shapeEach : List Value → List Shape
  | [] => []
  | v :: vs => shape v :: shapeEach vs

end

mutual

@[simp] theorem proper_shape : ∀ v : Value, v.shape.proper = true
  | int _ => rfl
  | bool _ => rfl
  | float _ => rfl
  | none => rfl
  | text _ => rfl
  | tuple items => by rw [shape, Shape.proper]; exact properEach_shapeEach items
  | list items => by rw [shape, Shape.proper]; exact properEach_shapeEach items

theorem properEach_shapeEach : ∀ vs : List Value, Shape.properEach (shapeEach vs) = true
  | [] => rfl
  | v :: vs => by simp [shapeEach, Shape.properEach, proper_shape v, properEach_shapeEach vs]

end

end Value

end CircuitReceipts
