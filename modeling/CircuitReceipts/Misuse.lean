/-!
# Misuses

The failures that carry no text of this library: a value is used in a way that its kind or its size
does not allow.
-/

namespace CircuitReceipts

/-- How a value was misused. -/
inductive Misuse where
  /-- A value of a kind that the operation does not take. -/
  | wrongKind
  /-- A value of the right kind that stands for nothing the operation takes. -/
  | badValue
  /-- A number too large, or negative, for the room it is to be put in. -/
  | tooLarge
  /-- A result too large to be held. -/
  | noRoom
  /-- A position outside a sequence. -/
  | outOfRange
  /-- A remainder modulo zero. -/
  | divisionByZero
  /-- A document that is no object where members are asked for. -/
  | notAnObject
  /-- A name that is not in a fixed list. -/
  | unknownName
  /-- A text that is no JSON document. -/
  | badDocument
  /-- A document with more containers inside each other than can be followed. -/
  | tooDeep
  /-- Bytes that are no text. -/
  | badEncoding
  /-- A number with more digits in base ten than the host writes or reads. -/
  | tooManyDigits
deriving DecidableEq, Inhabited

end CircuitReceipts
