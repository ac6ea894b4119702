/-! # Lines and columns

Lines are counted from one and columns from zero. Every character moves one column on, and a newline
moves to the start of the next line. -/

namespace ExprReader

/-- A place in a source text as its line and its column in characters. -/
structure Position where
  line : Nat := 1
  column : Nat := 0
deriving DecidableEq, Repr, Inhabited

/-- Offsets, lines and columns are 64-bit words: a count from outside may not reach this bound. -/
def wordBound : Nat := Nat.pow 2 64

namespace Position

/-- The place after one character. -/
def next (position : Position) (c : Char) : Position :=
  if c = '\n' then ⟨position.line + 1, 0⟩ else ⟨position.line, position.column + 1⟩

/-- The place after a text. -/
def after (position : Position) (text : List Char) : Position :=
  text.foldl next position

@[simp] theorem after_nil (position : Position) : position.after [] = position := rfl

@[simp] theorem after_cons (position : Position) (c : Char) (text : List Char) :
    position.after (c :: text) = (position.next c).after text := rfl

@[simp] theorem after_append (position : Position) (front back : List Char) :
    position.after (front ++ back) = (position.after front).after back := by
  simp [after]

/-- Whether line and column both fit a word. -/
def fits (position : Position) : Bool :=
  decide (position.line < wordBound) && decide (position.column < wordBound)

/-- The place after a text, as long as every place on the way fits. -/
def after? (position : Position) : List Char → Option Position
  | [] => some position
  | c :: text => if (position.next c).fits then (position.next c).after? text else none

/-- A place that can be counted is the place after the text. -/
theorem eq_after_of_after? {position place : Position} {text : List Char} (h : position.after? text = some place) :
    place = position.after text := by
  induction text generalizing position with
  | nil => exact (Option.some.inj h).symm
  | cons c text ih =>
    rw [after?] at h
    split at h
    · exact ih h
    · simp at h

end Position

end ExprReader
