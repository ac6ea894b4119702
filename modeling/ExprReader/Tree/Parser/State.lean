import ExprReader.Diagnostic.Basic
import ExprReader.Token.Buffer
import ExprReader.Tree.Parser.Rules

/-! # What a parser reads and where it stands

A parser walks over a token buffer by a set of rules; neither changes while it reads. What changes is
its state: a cursor, which is the index of the next token, and the diagnostics so far, which only grow.
A cursor beyond the buffer stands on the end of the input. -/

namespace ExprReader

/-- The tokens to read and the rules to read them by. -/
structure Context where
  buffer : TokenBuffer
  rules : Rules

/-- Where a parser stands and what it has reported. -/
structure State where
  cursor : Nat := 0
  diagnostics : Array Diagnostic := #[]

namespace State

/-- Steps over one token. -/
def advance (s : State) : State :=
  { s with cursor := s.cursor + 1 }

/-- Steps back over one token. The first token stays the first. -/
def rewind (s : State) : State :=
  { s with cursor := s.cursor - 1 }

/-- Adds a diagnostic. -/
def report (s : State) (kind : DiagnosticKind) (span : Span) : State :=
  { s with diagnostics := s.diagnostics.push ⟨kind, span⟩ }

@[simp] theorem advance_cursor (s : State) : s.advance.cursor = s.cursor + 1 := rfl

@[simp] theorem advance_diagnostics (s : State) : s.advance.diagnostics = s.diagnostics := rfl

@[simp] theorem report_cursor (s : State) (kind : DiagnosticKind) (span : Span) :
    (s.report kind span).cursor = s.cursor := rfl

@[simp] theorem report_diagnostics (s : State) (kind : DiagnosticKind) (span : Span) :
    (s.report kind span).diagnostics = s.diagnostics.push ⟨kind, span⟩ := rfl

end State

namespace Context

/-- The next token to read. -/
def current (ctx : Context) (s : State) : Token :=
  ctx.buffer.get s.cursor

/-- The kind of the next token. -/
def kind (ctx : Context) (s : State) : TokenKind :=
  (ctx.current s).kind

/-- The token read last, or the first token before any was read. -/
def previous (ctx : Context) (s : State) : Token :=
  ctx.buffer.get (s.cursor - 1)

/-- The number of tokens before the end that are still to be read. -/
def remaining (ctx : Context) (s : State) : Nat :=
  ctx.buffer.size - s.cursor

/-- Reports about the next token. -/
def reportAt (ctx : Context) (kind : DiagnosticKind) (s : State) : State :=
  s.report kind (ctx.current s).span

/-- Reports that something is missing right after the token read last. -/
def reportAfter (ctx : Context) (kind : DiagnosticKind) (s : State) : State :=
  s.report kind (Span.empty (ctx.previous s).stop)

/-- Reads a token of a kind. If the next one is of another kind, it stays, and the one that is missing is
reported. -/
def expect (ctx : Context) (kind : TokenKind) (missing : DiagnosticKind) (s : State) : Option Token × State :=
  if ctx.kind s = kind then (some (ctx.current s), s.advance) else (none, ctx.reportAfter missing s)

@[simp] theorem reportAt_cursor (ctx : Context) (kind : DiagnosticKind) (s : State) :
    (ctx.reportAt kind s).cursor = s.cursor := rfl

@[simp] theorem reportAfter_cursor (ctx : Context) (kind : DiagnosticKind) (s : State) :
    (ctx.reportAfter kind s).cursor = s.cursor := rfl

theorem expect_le (ctx : Context) (kind : TokenKind) (missing : DiagnosticKind) (s : State) :
    s.cursor ≤ (ctx.expect kind missing s).2.cursor := by
  unfold expect
  split <;> simp

/-- Fewer tokens remain once the cursor has moved on from a token that is not the end of the input. -/
theorem remaining_lt {ctx : Context} {s t : State} (h : ctx.kind s ≠ .eof) (moved : s.cursor < t.cursor) :
    ctx.remaining t < ctx.remaining s := by
  have := TokenBuffer.lt_size_of_kind_ne_eof h
  simp only [remaining]
  omega

end Context

end ExprReader
