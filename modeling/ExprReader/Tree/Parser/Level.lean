import ExprReader.Token.Operator
import ExprReader.Tree.Parser.Header

/-! # Reading expressions, level by level

Constructs nest only so deep. A parser at one level of nesting hands what a construct contains to the
parser one level deeper, and on the deepest level nothing can be opened any more: `Level.above` makes a
level out of the one below it, if there is one, and `Level.ofRoom` stacks them up.

An expression is a primary followed by operators and their operands, as long as the operators bind more
strongly than the expression may contain. Every level moves the cursor forward, and an expression is
never empty before the end of the input; the loops end because of that. -/

namespace ExprReader

/-- How deep primaries and right operands may nest. -/
def maxNesting : Nat := 512

/-- A parser at one level of nesting. `expr` reads an expression whose operators all bind at least as a
given strength allows, and `primary` the construct that begins with a token just read. -/
structure Level (ctx : Context) where
  expr : Precedence → State → Option Expr × State
  primary : Token → State → Expr × State
  expr_le : ∀ least s, s.cursor ≤ (expr least s).2.cursor
  expr_lt : ∀ least s, ctx.kind s ≠ .eof → s.cursor < (expr least s).2.cursor
  primary_le : ∀ token s, s.cursor ≤ (primary token s).2.cursor

/-- A token that begins no construct here. The scanner has already reported the invalid ones. -/
def unexpected (token : Token) (s : State) : Expr × State :=
  (.invalidToken token, if token.kind = .invalid then s else s.report .expressionExpected token.span)

theorem unexpected_cursor (token : Token) (s : State) : (unexpected token s).2.cursor = s.cursor := by
  unfold unexpected
  split <;> simp

namespace Level

variable {ctx : Context} (inner : Level ctx)

/-! ### Constructs -/

/-- An operator before its operand, which is a single primary. -/
def unary (operator : Token) (s : State) : Expr × State :=
  if ctx.rules.startsExpression (ctx.kind s) ∨ ctx.kind s = .invalid then
    let (operand, last) := inner.primary (ctx.current s) s.advance
    (.unary operator (some operand), last)
  else (.unary operator none, ctx.reportAt .expressionExpected s)

/-- What stands between two parentheses. -/
def enclosed (s : State) : Option Expr × State :=
  if ctx.kind s = .closeParen then (none, ctx.reportAt .expressionExpected s)
  else inner.expr .lowest s

/-- An expression in parentheses. Without the closing one it is invalid, and the token in its place is
left to what surrounds it. -/
def parenthesis (opening : Token) (s : State) : Expr × State :=
  let (content, last) := inner.enclosed s
  if ctx.kind last = .closeParen then (.parenthesis opening content (some (ctx.current last)), last.advance)
  else (.invalidExpr (.parenthesis opening content none), ctx.reportAt .closeParenthesisExpected last)

/-- Expressions up to a closing brace, and that brace unless the input ends before it. -/
def untilBrace (s : State) : List Expr × Option Token × State :=
  if ctx.kind s = .closeCurly then ([], some (ctx.current s), s.advance)
  else if ctx.kind s = .eof then ([], none, ctx.reportAt .closeBraceExpected s)
  else
    let step := inner.expr .lowest s
    let (expressions, closing, last) := untilBrace step.2
    (step.1.toList ++ expressions, closing, last)
termination_by ctx.remaining s
decreasing_by
  rename_i notEnd
  exact Context.remaining_lt notEnd (inner.expr_lt _ _ notEnd)

/-- Expressions in braces, after the opening one. -/
def block (opening : Token) (s : State) : Block Expr × State :=
  let (expressions, closing, last) := inner.untilBrace s
  (⟨opening, expressions, closing⟩, last)

/-- The body of a function. -/
def functionBody (s : State) : Option (Block Expr) × State :=
  if ctx.kind s = .openCurly then
    let (body, last) := inner.block (ctx.current s) s.advance
    (some body, last)
  else (none, ctx.reportAfter .functionBodyExpected s)

/-- A function after its keyword. Each part that is missing is reported, and the next is still tried. -/
def function (keyword : Token) (s : State) : Expr × State :=
  let (name, s₁) := ctx.functionName s
  let (parameters, s₂) := ctx.functionParameters s₁
  let (body, s₃) := inner.functionBody s₂
  (.function keyword name parameters body, s₃)

/-- A given construct, after the token that begins it. -/
def construct : Construct → Token → State → Expr × State
  | .literal, token, s => (.literal token, s)
  | .identifier, token, s => (.identifier token, s)
  | .unary, token, s => inner.unary token s
  | .parenthesis, token, s => inner.parenthesis token s
  | .block, token, s =>
    let (body, last) := inner.block token s
    (.block body, last)
  | .function, token, s => inner.function token s
  | .primary, token, s => inner.primary token s

/-- The construct that the rules give for the token just read. -/
def byRules (token : Token) (s : State) : Expr × State :=
  match ctx.rules.construct? token.kind with
  | some found => inner.construct found token s
  | none => unexpected token s

/-! ### Progress of constructs -/

theorem unary_le (operator : Token) (s : State) : s.cursor ≤ (inner.unary operator s).2.cursor := by
  unfold unary
  split
  · have := inner.primary_le (ctx.current s) s.advance
    simp only [State.advance_cursor] at this
    exact Nat.le_trans (Nat.le_succ _) this
  · exact Nat.le_refl _

theorem enclosed_le (s : State) : s.cursor ≤ (inner.enclosed s).2.cursor := by
  unfold enclosed
  split
  · exact Nat.le_refl _
  · exact inner.expr_le _ _

theorem parenthesis_le (opening : Token) (s : State) : s.cursor ≤ (inner.parenthesis opening s).2.cursor := by
  have := inner.enclosed_le s
  unfold parenthesis
  dsimp only
  split
  · simp only [State.advance_cursor]
    omega
  · simpa using this

theorem untilBrace_le (s : State) : s.cursor ≤ (inner.untilBrace s).2.2.cursor := by
  fun_induction inner.untilBrace s with
  | case1 => simp
  | case2 => simp
  | case3 s _ _ step expressions closing last found ih =>
    rw [found] at ih
    exact Nat.le_trans (inner.expr_le _ _) ih

theorem block_le (opening : Token) (s : State) : s.cursor ≤ (inner.block opening s).2.cursor :=
  inner.untilBrace_le s

theorem functionBody_le (s : State) : s.cursor ≤ (inner.functionBody s).2.cursor := by
  unfold functionBody
  split
  · exact Nat.le_trans (Nat.le_succ _) (inner.block_le (ctx.current s) s.advance)
  · simp

theorem function_le (keyword : Token) (s : State) : s.cursor ≤ (inner.function keyword s).2.cursor :=
  Nat.le_trans (ctx.functionName_le s) (Nat.le_trans (ctx.functionParameters_le _) (inner.functionBody_le _))

theorem construct_le (found : Construct) (token : Token) (s : State) :
    s.cursor ≤ (inner.construct found token s).2.cursor := by
  cases found with
  | literal => exact Nat.le_refl _
  | identifier => exact Nat.le_refl _
  | unary => exact inner.unary_le token s
  | parenthesis => exact inner.parenthesis_le token s
  | block => exact inner.block_le token s
  | function => exact inner.function_le token s
  | primary => exact inner.primary_le token s

theorem byRules_le (token : Token) (s : State) : s.cursor ≤ (inner.byRules token s).2.cursor := by
  unfold byRules
  split
  · exact inner.construct_le _ token s
  · exact Nat.le_of_eq (unexpected_cursor token s).symm

/-! ### Operators -/

variable (deeper : Option (Level ctx))

/-- The construct that begins with a token just read, one level deeper. Where no level is left, the token
is unexpected. -/
def primaryBelow (token : Token) (s : State) : Expr × State :=
  match deeper with
  | some inner => inner.byRules token s
  | none => unexpected token s

/-- The right operand of an operator, one level deeper. The end of the input stands for an operand that
is missing. -/
def operandBelow (strength : Precedence) (s : State) : Expr × State :=
  if ctx.kind s = .eof then (.invalidToken (ctx.current s), ctx.reportAt .expressionExpected s)
  else
    match deeper with
    | none => unexpected (ctx.current s) s.advance
    | some inner =>
      match inner.expr strength s with
      | (some operand, last) => (operand, last)
      | (none, last) => (.invalidToken (ctx.current last), last)

theorem primaryBelow_le (token : Token) (s : State) : s.cursor ≤ (primaryBelow deeper token s).2.cursor := by
  cases deeper with
  | none => exact Nat.le_of_eq (unexpected_cursor token s).symm
  | some inner => exact inner.byRules_le token s

theorem operandBelow_le (strength : Precedence) (s : State) :
    s.cursor ≤ (operandBelow deeper strength s).2.cursor := by
  unfold operandBelow
  split
  · simp
  · cases deeper with
    | none => simp [unexpected_cursor]
    | some inner =>
      have := inner.expr_le strength s
      dsimp only
      split <;> simp_all

/-- Extends an expression by the operators that follow it, as long as they may continue an expression of
the strength `least`. -/
def extend (least : Precedence) (left : Expr) (s : State) : Expr × State :=
  if (ctx.kind s).continues least then
    let step := operandBelow deeper (ctx.kind s).precedence s.advance
    extend least (.binary left (ctx.current s) step.1) step.2
  else (left, s)
termination_by ctx.remaining s
decreasing_by
  rename_i goesOn
  exact Context.remaining_lt (TokenKind.ne_eof_of_continues goesOn)
    (Nat.lt_of_lt_of_le (by simp) (operandBelow_le deeper _ _))

/-- An expression of the strength `least`. There is none at the end of the input, and an invalid primary
is not extended. -/
def exprAbove (least : Precedence) (s : State) : Option Expr × State :=
  if ctx.kind s = .eof then (none, s)
  else
    let (left, next) := primaryBelow deeper (ctx.current s) s.advance
    if left.isInvalid then (some left, next)
    else
      let (whole, last) := extend deeper least left next
      (some whole, last)

theorem extend_le (least : Precedence) (left : Expr) (s : State) :
    s.cursor ≤ (extend deeper least left s).2.cursor := by
  fun_induction extend deeper least left s with
  | case1 left s _ step ih =>
    have moved : s.advance.cursor ≤ step.2.cursor := operandBelow_le deeper (ctx.kind s).precedence s.advance
    simp only [State.advance_cursor] at moved
    omega
  | case2 => exact Nat.le_refl _

theorem exprAbove_lt (least : Precedence) (s : State) (h : ctx.kind s ≠ .eof) :
    s.cursor < (exprAbove deeper least s).2.cursor := by
  have := primaryBelow_le deeper (ctx.current s) s.advance
  unfold exprAbove
  rw [if_neg h]
  dsimp only
  split
  · exact Nat.lt_of_lt_of_le (by simp) this
  · exact Nat.lt_of_lt_of_le (Nat.lt_of_lt_of_le (by simp) this) (extend_le deeper _ _ _)

theorem exprAbove_le (least : Precedence) (s : State) : s.cursor ≤ (exprAbove deeper least s).2.cursor := by
  by_cases h : ctx.kind s = .eof
  · simp [exprAbove, h]
  · exact Nat.le_of_lt (exprAbove_lt deeper least s h)

/-- The level above another one, or the deepest level if there is none below. -/
def above : Level ctx where
  expr := exprAbove deeper
  primary := primaryBelow deeper
  expr_le := exprAbove_le deeper
  expr_lt := exprAbove_lt deeper
  primary_le := primaryBelow_le deeper

/-- The level with a given number of levels below it. -/
def ofRoom (ctx : Context) : Nat → Level ctx
  | 0 => above none
  | room + 1 => above (some (ofRoom ctx room))

end Level

end ExprReader
