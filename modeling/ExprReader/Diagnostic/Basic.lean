import ExprReader.Source.Span

/-! # Diagnostics

A diagnostic says what was expected and where. Every diagnostic is an error. -/

namespace ExprReader

/-- What a diagnostic is about. -/
inductive DiagnosticKind where
  | unknownCharacter
  | expressionExpected
  | closeParenthesisExpected
  | closeBraceExpected
  | endExpected
  | parameterListExpected
  | nameExpected
  | functionBodyExpected
  | commaExpected
  | parameterExpected
  | typeExpected
deriving DecidableEq, Repr, Inhabited

namespace DiagnosticKind

/-- The message of a diagnostic. -/
def message : DiagnosticKind → String
  | unknownCharacter => "Expression expected"
  | expressionExpected => "Expression expected"
  | closeParenthesisExpected => "')' expected"
  | closeBraceExpected => "'\x7d' expected"
  | endExpected => "EOF expected"
  | parameterListExpected => "( expected"
  | nameExpected => "Identifier expected"
  | functionBodyExpected => "\x7b expected"
  | commaExpected => ", expected"
  | parameterExpected => "Parameter declaration expected"
  | typeExpected => "Type expected"

/-- A hint at the cause, where there is one to give. -/
def tip? : DiagnosticKind → Option String
  | unknownCharacter => some "this character is not part of the language"
  | closeParenthesisExpected => some "is a '(' left open?"
  | closeBraceExpected => some "is a '\x7b' left open?"
  | endExpected => some "this closing delimiter has no matching opener"
  | parameterListExpected => some "functions are declared as `function name(a, b) \x7b ... \x7d`"
  | commaExpected => some "parameters are separated by commas"
  | expressionExpected | nameExpected | functionBodyExpected | parameterExpected | typeExpected => none

end DiagnosticKind

/-- A diagnostic: what was expected, and the span where it was. -/
structure Diagnostic where
  kind : DiagnosticKind
  span : Span
deriving DecidableEq, Repr, Inhabited

namespace Diagnostic

/-- The message of a diagnostic, without its place. -/
def message (diagnostic : Diagnostic) : String :=
  diagnostic.kind.message

/-- The hint of a diagnostic. -/
def tip? (diagnostic : Diagnostic) : Option String :=
  diagnostic.kind.tip?

/-- A diagnostic is shown as its message and its span. -/
def display (diagnostic : Diagnostic) : String :=
  diagnostic.message ++ " at " ++ toString diagnostic.span

instance : ToString Diagnostic := ⟨display⟩

end Diagnostic

end ExprReader
