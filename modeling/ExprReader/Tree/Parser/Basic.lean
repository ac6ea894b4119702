import ExprReader.Token.Scanner
import ExprReader.Tree.Parser.Level

/-! # The parser

Reading never fails. A source text gives a list of expressions and the diagnostics found on the way,
those of the scanner first. A `Parser` can also be driven by hand: moved over its tokens, given other
rules, put deeper, and asked for one construct at a time. -/

namespace ExprReader

/-- All expressions up to the end of the input. A closing delimiter that closes nothing is reported and
stands as an invalid expression. -/
def Level.program {ctx : Context} (level : Level ctx) (s : State) : List Expr × State :=
  if ctx.kind s = .eof then ([], s)
  else if ctx.kind s = .closeParen ∨ ctx.kind s = .closeCurly then
    let (expressions, last) := level.program (ctx.reportAt .endExpected s).advance
    (.invalidToken (ctx.current s) :: expressions, last)
  else
    let step := level.expr .lowest s
    match step.1 with
    | some e =>
      let (expressions, last) := level.program step.2
      (e :: expressions, last)
    | none => ([], step.2)
termination_by ctx.remaining s
decreasing_by
  · rename_i notEnd _
    exact Context.remaining_lt notEnd (by simp)
  · rename_i notEnd _
    exact Context.remaining_lt notEnd (level.expr_lt _ _ notEnd)

/-- The expressions of a source and everything that was reported while it was scanned and read. -/
structure Parsed where
  expressions : List Expr
  diagnostics : Array Diagnostic
deriving DecidableEq

/-- Whether anything was reported. -/
def Parsed.hasErrors (result : Parsed) : Bool :=
  !result.diagnostics.isEmpty

/-- A parser: what it reads, where it stands, and how deep it is nested. -/
structure Parser where
  context : Context
  state : State := {}
  depth : Nat := 0
  depth_le : depth ≤ maxNesting := by decide

namespace Parser

/-- A parser at the first token of a buffer, by the rules of the language, with what the scanner reported. -/
def ofBuffer (buffer : TokenBuffer) (diagnostics : Array Diagnostic) : Parser :=
  { context := ⟨buffer, .standard⟩, state := { diagnostics } }

/-- A parser over a list of tokens, which is closed by an end of the input if it has none. -/
def ofTokens? (tokens : List Token) (diagnostics : Array Diagnostic) : Option Parser :=
  (TokenBuffer.ofList? tokens).map fun buffer => ofBuffer buffer diagnostics

/-- A parser over the tokens of a source text. -/
def ofSource (source : String) : Parser :=
  let (buffer, diagnostics) := scan source
  ofBuffer buffer diagnostics

/-! ### Moving -/

/-- The next token to read. -/
def current (p : Parser) : Token :=
  p.context.current p.state

/-- The token read last. -/
def previous (p : Parser) : Token :=
  p.context.previous p.state

/-- Whether the next token is the end of the input. -/
def atEnd (p : Parser) : Bool :=
  p.current.isEof

/-- Reads one token. -/
def advance (p : Parser) : Token × Parser :=
  (p.current, { p with state := p.state.advance })

/-- Gives the token read last back. -/
def rewind (p : Parser) : Parser :=
  { p with state := p.state.rewind }

/-- Goes one level deeper, unless the deepest level is reached. -/
def descend? (p : Parser) : Option Parser :=
  if h : p.depth < maxNesting then some { p with depth := p.depth + 1, depth_le := h } else none

/-- Comes back from a level. The outermost level stays the outermost. -/
def ascend (p : Parser) : Parser :=
  { p with depth := p.depth - 1, depth_le := Nat.le_trans (Nat.sub_le ..) p.depth_le }

/-- Adds a diagnostic. -/
def report (p : Parser) (kind : DiagnosticKind) (span : Span) : Parser :=
  { p with state := p.state.report kind span }

/-- Reports that something is missing right after the token read last. -/
def reportAfter (p : Parser) (kind : DiagnosticKind) : Parser :=
  { p with state := p.context.reportAfter kind p.state }

/-- Lets tokens of a kind begin a construct. -/
def withConstruct (p : Parser) (kind : TokenKind) (construct : Construct) : Parser :=
  { p with context.rules := p.context.rules.withConstruct kind construct }

/-- Lets tokens of a kind name a type. -/
def withTypeName (p : Parser) (kind : TokenKind) : Parser :=
  { p with context.rules := p.context.rules.withTypeName kind }

/-! ### Reading -/

/-- The level of the parser, with as many levels below it as it may still be nested. -/
def level (p : Parser) : Level p.context :=
  Level.ofRoom p.context (maxNesting - p.depth)

/-- Runs a reader from the state of the parser. -/
def run {α : Type} (p : Parser) (reader : State → α × State) : α × Parser :=
  let (result, state) := reader p.state
  (result, { p with state })

/-- Reads an expression whose operators all bind at least as the strength `least` allows. -/
def expr (p : Parser) (least : Precedence) : Option Expr × Parser :=
  p.run (p.level.expr least)

/-- Reads a construct after the token that begins it. -/
def construct (p : Parser) (construct : Construct) (token : Token) : Expr × Parser :=
  p.run (p.level.construct construct token)

/-- Reads a block after its opening brace. -/
def block (p : Parser) (opening : Token) : Block Expr × Parser :=
  p.run (p.level.block opening)

/-- Reads a list of parameters after its opening parenthesis. -/
def parameterList (p : Parser) (opening : Token) : ParameterList × Parser :=
  p.run (p.context.parameterList opening)

/-- Reads a parameter after an optional comma. -/
def parameter (p : Parser) (comma : Option Token) : Option Parameter × Parser :=
  p.run (p.context.parameter comma)

/-- Reads the type after a colon. -/
def typeName (p : Parser) : Option Token × Parser :=
  p.run p.context.typeName

/-- Reads all that is left. -/
def parse (p : Parser) : Parsed :=
  let (expressions, last) := p.level.program p.state
  ⟨expressions, last.diagnostics⟩

end Parser

/-- Scans and reads a source text. -/
def parse (source : String) : Parsed :=
  (Parser.ofSource source).parse

end ExprReader
