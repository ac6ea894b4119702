import ExprReader.Diagnostic.Basic
import ExprReader.Source.Line
import ExprReader.Text.Blank

/-! # Excerpts

A diagnostic is rendered as a headline, the name of the file and an excerpt: the line on which it
starts, without its indentation, and below it a row of dashes that leads to a caret under the place.
There is no rendering where that row would be too wide.

```text
Error: ')' expected (is a '(' left open?)
-> main
   |
 1 | (1 + 2
   | ------^
```
-/

namespace ExprReader

/-- A character that indents a line. -/
def isIndent (c : Char) : Bool :=
  c == ' ' || c == '\t'

/-- Widths are 16-bit words: dashes and caret together may not reach this bound. -/
def widthBound : Nat := Nat.pow 2 16

/-- A text without the blanks at its end. -/
def trimEnd (text : List Char) : List Char :=
  (text.reverse.dropWhile isBlank).reverse

namespace LinePoint

/-- The characters of the line before the point. Inside a character, where no such count exists, the
bytes are counted in their place. -/
def column (point : LinePoint) : Nat :=
  match splitBytes? point.text.toList point.offset with
  | some (before, _) => before.length
  | none => point.offset

/-- The indentation of the line. -/
def indentation (point : LinePoint) : List Char :=
  point.text.toList.takeWhile isIndent

/-- The line as an excerpt shows it, without indentation and without the blanks at its end. -/
def excerpt (point : LinePoint) : String :=
  String.ofList (trimEnd (point.text.toList.dropWhile isIndent))

/-- The border of an excerpt on rows that bear no line number. -/
def border (point : LinePoint) : String :=
  String.ofList (List.replicate ((toString point.number).length + 2) ' ') ++ "|"

/-- The rows of an excerpt: an empty one, the line with its number, and the caret under the point, as long
as the dashes that lead to it fit. -/
def render? (point : LinePoint) : Option String :=
  let dashes := point.column - point.indentation.length
  if dashes + 1 < widthBound then
    some (point.border ++ "\n" ++
      " " ++ toString point.number ++ " | " ++ point.excerpt ++ "\n" ++
      point.border ++ " " ++ String.ofList (List.replicate dashes '-') ++ "^\n")
  else none

end LinePoint

namespace Diagnostic

/-- The first row of a rendered diagnostic: its message and, in parentheses, its tip. -/
def headline (diagnostic : Diagnostic) : String :=
  match diagnostic.tip? with
  | none => "Error: " ++ diagnostic.message ++ "\n"
  | some tip => "Error: " ++ diagnostic.message ++ " (" ++ tip ++ ")\n"

/-- A diagnostic with the excerpt of the source where it starts. A place beyond the end has no excerpt. -/
def render? (diagnostic : Diagnostic) (source file : String) : Option String :=
  let opening := diagnostic.headline ++ "-> " ++ file ++ "\n"
  match lineAt? source diagnostic.span.start with
  | some point => point.render?.map fun rows => opening ++ rows
  | none => some opening

end Diagnostic

end ExprReader
