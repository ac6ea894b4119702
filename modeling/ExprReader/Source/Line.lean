import ExprReader.Text.Bytes

/-! # Lines of a source

A byte offset is shown on the line that contains it. A line keeps its newline, and the end of the source
belongs to the last line. -/

namespace ExprReader

/-- The lines of a text, each with the newline that ends it. -/
def splitLines : List Char → List (List Char)
  | [] => []
  | c :: text =>
    if c = '\n' then [c] :: splitLines text
    else
      match splitLines text with
      | [] => [[c]]
      | line :: lines => (c :: line) :: lines

/-- An offset on its line: the number of the line, its text, and the bytes of it before the offset. -/
structure LinePoint where
  number : Nat
  text : String
  offset : Nat
deriving DecidableEq, Repr

/-- Walks over lines, of which the first has the given number, to the one with an offset. The last line
takes every offset that is left. -/
def locate (number offset : Nat) : List (List Char) → LinePoint
  | [] => ⟨number, "", 0⟩
  | [line] => ⟨number, String.ofList line, offset⟩
  | line :: lines =>
    if offset < byteLength line then ⟨number, String.ofList line, offset⟩
    else locate (number + 1) (offset - byteLength line) lines

/-- The line of a byte offset into a source. There is none for an offset beyond the end. -/
def lineAt? (source : String) (offset : Nat) : Option LinePoint :=
  if byteLength source.toList < offset then none
  else some (locate 1 offset (splitLines source.toList))

/-- The lines joined together are the text. -/
theorem flatten_splitLines (text : List Char) : (splitLines text).flatten = text := by
  induction text with
  | nil => rfl
  | cons c text ih =>
    rw [splitLines]
    split
    · simp [ih]
    · split <;> simp_all

end ExprReader
