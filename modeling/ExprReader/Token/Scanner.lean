import ExprReader.Diagnostic.Basic
import ExprReader.Text.Blank
import ExprReader.Token.Buffer
import ExprReader.Token.Pattern

/-! # The scanner

A scanner stands between two characters of a source text. Each step skips blanks and cuts one token off
the rest; at the end of the text it gives the end of the input, again and again. A character that no
pattern fits becomes an invalid token of its own and is reported. -/

namespace ExprReader

/-- A scanner: the text that is left, the place in the source where it starts, what was reported so far,
and whether the end of the input was given. -/
structure Scanner where
  rest : List Char
  offset : Nat := 0
  position : Position := {}
  diagnostics : Array Diagnostic := #[]
  finished : Bool := false

namespace Scanner

/-- A scanner at the start of a source text. -/
def ofSource (source : String) : Scanner :=
  { rest := source.toList }

/-- Whether no text is left. -/
def atEnd (scanner : Scanner) : Bool :=
  scanner.rest.isEmpty

/-- The scanner after the next `count` characters. -/
def skip (scanner : Scanner) (count : Nat) : Scanner :=
  let passed := scanner.rest.take count
  { scanner with
    rest := scanner.rest.drop count
    offset := scanner.offset + byteLength passed
    position := scanner.position.after passed }

/-- The scanner after the blanks in front of it. -/
def skipBlanks (scanner : Scanner) : Scanner :=
  scanner.skip (scanner.rest.takeWhile isBlank).length

/-- Cuts off a token of the next `count` characters. -/
def cut (scanner : Scanner) (kind : TokenKind) (count : Nat) : Token × Scanner :=
  (⟨kind, String.ofList (scanner.rest.take count), scanner.offset, scanner.position⟩, scanner.skip count)

/-- Cuts off a token of the next `bytes` bytes, which have to end on a border between two characters of
the text that is left. -/
def cutBytes? (scanner : Scanner) (kind : TokenKind) (bytes : Nat) : Option (Token × Scanner) :=
  (splitBytes? scanner.rest bytes).map fun parts => scanner.cut kind parts.1.length

/-- The end of the input, placed where the scanner stands. -/
def ending (scanner : Scanner) : Token :=
  ⟨.eof, "", scanner.offset, scanner.position⟩

/-- Adds a diagnostic. -/
def report (scanner : Scanner) (kind : DiagnosticKind) (span : Span) : Scanner :=
  { scanner with diagnostics := scanner.diagnostics.push ⟨kind, span⟩ }

/-- Cuts the next token off a text that does not start with a blank. -/
def lexeme (scanner : Scanner) : Token × Scanner :=
  match Pattern.first? scanner.rest with
  | some (kind, count) => scanner.cut kind count
  | none =>
    let (token, after) := scanner.cut .invalid 1
    (token, after.report .unknownCharacter token.span)

/-- The next token after any blanks, or the end of the input when no text is left. -/
def step (scanner : Scanner) : Token × Scanner :=
  let start := scanner.skipBlanks
  if start.atEnd then (start.ending, { start with finished := true }) else start.lexeme

/-- The next token until the end of the input was given, and none afterwards. -/
def next (scanner : Scanner) : Option Token × Scanner :=
  if scanner.finished then (none, scanner)
  else
    let (token, after) := scanner.step
    (some token, after)

/-! ### Progress -/

theorem skip_rest_length (scanner : Scanner) (count : Nat) :
    (scanner.skip count).rest.length = scanner.rest.length - count := by
  simp [skip]

theorem skipBlanks_rest_length_le (scanner : Scanner) : scanner.skipBlanks.rest.length ≤ scanner.rest.length := by
  simp [skipBlanks, skip_rest_length]

/-- Every token cut off the text makes it shorter. -/
theorem lexeme_rest_length_lt {scanner : Scanner} (h : scanner.rest ≠ []) :
    scanner.lexeme.2.rest.length < scanner.rest.length := by
  have hpos : 0 < scanner.rest.length := List.length_pos_iff.mpr h
  unfold lexeme
  split
  · rename_i kind count fits
    have := Pattern.first?_pos fits
    simp only [cut, skip_rest_length]
    omega
  · simp only [cut, report, skip_rest_length]
    omega

/-- A step that does not give the end of the input leaves a shorter text. -/
theorem step_rest_length_lt {scanner : Scanner} (h : scanner.step.2.finished = false) :
    scanner.step.2.rest.length < scanner.rest.length := by
  unfold step at h ⊢
  dsimp only at h ⊢
  split at h
  · simp at h
  · rename_i some_left
    rw [if_neg some_left]
    exact Nat.lt_of_lt_of_le (lexeme_rest_length_lt (by simpa [atEnd] using some_left))
      scanner.skipBlanks_rest_length_le

/-! ### Whole texts -/

/-- All tokens before the end of the input, and the scanner that has given the end. -/
def tokens (scanner : Scanner) : List Token × Scanner :=
  let first := scanner.step
  if first.2.finished then ([], first.2)
  else
    let (others, last) := first.2.tokens
    (first.1 :: others, last)
termination_by scanner.rest.length
decreasing_by rename_i h; exact step_rest_length_lt (by simpa using h)

/-- The tokens that are still to come, the end of the input included. -/
def drain (scanner : Scanner) : List Token × Scanner :=
  if scanner.finished then ([], scanner)
  else
    let (found, last) := scanner.tokens
    (found ++ [last.ending], last)

end Scanner

/-- The tokens of a source text and a diagnostic for each of its characters that no token starts with. -/
def scan (source : String) : TokenBuffer × Array Diagnostic :=
  let (found, last) := (Scanner.ofSource source).tokens
  (⟨found.toArray, last.ending, rfl⟩, last.diagnostics)

end ExprReader
