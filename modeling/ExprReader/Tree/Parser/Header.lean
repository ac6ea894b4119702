import ExprReader.Tree.Basic
import ExprReader.Tree.Parser.State

/-! # Reading the header of a function

The name and the parameters of a function. A list of parameters ends at a closing parenthesis, at an
opening brace or at the end of the input, whatever stands before. Tokens that cannot begin a parameter
are passed over, and each is reported. -/

namespace ExprReader

/-- Whether a token of a kind ends a list of parameters. -/
def TokenKind.endsParameters : TokenKind → Bool
  | closeParen | openCurly | eof => true
  | _ => false

namespace Context

variable (ctx : Context)

/-- Passes over tokens up to a name or the end of the list. -/
def skipToName (s : State) : State :=
  if ctx.kind s = .identifier then s
  else if (ctx.kind s).endsParameters then s
  else skipToName (ctx.reportAt .parameterExpected s).advance
termination_by ctx.remaining s
decreasing_by
  rename_i goesOn
  exact remaining_lt (fun h => goesOn (by rw [h]; rfl)) (by simp)

/-- The type after a colon. A missing one is reported and nothing is read. -/
def typeName (s : State) : Option Token × State :=
  if ctx.rules.namesType (ctx.kind s) then (some (ctx.current s), s.advance)
  else (none, ctx.reportAfter .typeExpected s)

/-- A parameter after an optional comma. There is none when the list ends before a name, which is
reported unless tokens were passed over on the way. -/
def parameter (comma : Option Token) (s : State) : Option Parameter × State :=
  let found := ctx.skipToName s
  if ctx.kind found = .identifier then
    let named := found.advance
    if ctx.kind named = .colon then
      let (typeName, last) := ctx.typeName named.advance
      (some ⟨comma, ctx.current found, some (ctx.current named), typeName⟩, last)
    else (some ⟨comma, ctx.current found, none, none⟩, named)
  else if found.cursor = s.cursor then (none, ctx.reportAfter .parameterExpected found)
  else (none, found)

/-- A parameter and the comma before it. -/
def nextParameter (s : State) : Option Parameter × State :=
  let (comma, next) := ctx.expect .comma .commaExpected s
  ctx.parameter comma next

/-! ### Progress -/

theorem skipToName_le (s : State) : s.cursor ≤ (ctx.skipToName s).cursor := by
  fun_induction ctx.skipToName s with
  | case1 | case2 => exact Nat.le_refl _
  | case3 s _ _ ih => exact Nat.le_trans (by simp) ih

theorem typeName_le (s : State) : s.cursor ≤ (ctx.typeName s).2.cursor := by
  unfold typeName
  split <;> simp

theorem parameter_le (comma : Option Token) (s : State) : s.cursor ≤ (ctx.parameter comma s).2.cursor := by
  have h := ctx.skipToName_le s
  unfold parameter
  dsimp only
  split
  · split
    · have := ctx.typeName_le (ctx.skipToName s).advance.advance
      simp only [State.advance_cursor] at this ⊢
      omega
    · simp only [State.advance_cursor]
      omega
  · split <;> simpa using h

/-- Before the end of the list at least one token is read. -/
theorem parameter_lt (comma : Option Token) {s : State} (h : (ctx.kind s).endsParameters = false) :
    s.cursor < (ctx.parameter comma s).2.cursor := by
  by_cases hname : ctx.kind s = .identifier
  · have found : ctx.skipToName s = s := by rw [skipToName, if_pos hname]
    unfold parameter
    dsimp only
    rw [found, if_pos hname]
    split
    · have := ctx.typeName_le s.advance.advance
      simp only [State.advance_cursor] at this ⊢
      omega
    · simp
  · have found : s.cursor < (ctx.skipToName s).cursor := by
      rw [skipToName, if_neg hname, if_neg (by simp [h])]
      exact Nat.lt_of_lt_of_le (by simp) (ctx.skipToName_le _)
    unfold parameter
    dsimp only
    split
    · split
      · have := ctx.typeName_le (ctx.skipToName s).advance.advance
        simp only [State.advance_cursor] at this ⊢
        omega
      · simp only [State.advance_cursor]
        omega
    · split <;> simpa using found

/-- Before the end of the list at least one token is read, be it only the comma. -/
theorem nextParameter_lt {s : State} (h : (ctx.kind s).endsParameters = false) :
    s.cursor < (ctx.nextParameter s).2.cursor := by
  by_cases hcomma : ctx.kind s = .comma
  · have read : ctx.expect .comma .commaExpected s = (some (ctx.current s), s.advance) := by simp [expect, hcomma]
    rw [nextParameter, read]
    exact Nat.lt_of_lt_of_le (Nat.lt_succ_self _) (ctx.parameter_le (some (ctx.current s)) s.advance)
  · have stays : ctx.expect .comma .commaExpected s = (none, ctx.reportAfter .commaExpected s) := by
      simp [expect, hcomma]
    have goesOn : (ctx.kind (ctx.reportAfter .commaExpected s)).endsParameters = false := h
    rw [nextParameter, stays]
    exact ctx.parameter_lt none goesOn

/-! ### Lists -/

/-- Parameters, each after its comma, up to the end of the list. -/
def otherParameters (s : State) : List Parameter × State :=
  if (ctx.kind s).endsParameters then ([], s)
  else
    let first := ctx.nextParameter s
    let (others, last) := otherParameters first.2
    (first.1.toList ++ others, last)
termination_by ctx.remaining s
decreasing_by
  rename_i goesOn
  exact remaining_lt (fun h => goesOn (by rw [h]; rfl)) (ctx.nextParameter_lt (by simpa using goesOn))

/-- The first parameter of a list that is not empty. -/
def firstParameter (s : State) : Option Parameter × State :=
  if (ctx.kind s).endsParameters then (none, s) else ctx.parameter none s

/-- A list of parameters after its opening parenthesis. -/
def parameterList (opening : Token) (s : State) : ParameterList × State :=
  let (first, s₁) := ctx.firstParameter s
  let (others, s₂) := ctx.otherParameters s₁
  let (closing, s₃) := ctx.expect .closeParen .closeParenthesisExpected s₂
  (⟨opening, first.toList ++ others, closing⟩, s₃)

/-- The name of a function. -/
def functionName (s : State) : Option Token × State :=
  ctx.expect .identifier .nameExpected s

/-- The parameters of a function. -/
def functionParameters (s : State) : Option ParameterList × State :=
  if ctx.kind s = .openParen then
    let (parameters, last) := ctx.parameterList (ctx.current s) s.advance
    (some parameters, last)
  else (none, ctx.reportAfter .parameterListExpected s)

theorem otherParameters_le (s : State) : s.cursor ≤ (ctx.otherParameters s).2.cursor := by
  fun_induction ctx.otherParameters s with
  | case1 => exact Nat.le_refl _
  | case2 s goesOn first others last rest ih =>
    rw [rest] at ih
    exact Nat.le_trans (Nat.le_of_lt (ctx.nextParameter_lt (by simpa using goesOn))) ih

theorem firstParameter_le (s : State) : s.cursor ≤ (ctx.firstParameter s).2.cursor := by
  unfold firstParameter
  split
  · exact Nat.le_refl _
  · exact ctx.parameter_le none s

theorem parameterList_le (opening : Token) (s : State) : s.cursor ≤ (ctx.parameterList opening s).2.cursor :=
  Nat.le_trans (ctx.firstParameter_le s) (Nat.le_trans (ctx.otherParameters_le _) (ctx.expect_le _ _ _))

theorem functionName_le (s : State) : s.cursor ≤ (ctx.functionName s).2.cursor :=
  ctx.expect_le _ _ s

theorem functionParameters_le (s : State) : s.cursor ≤ (ctx.functionParameters s).2.cursor := by
  unfold functionParameters
  split
  · exact Nat.le_trans (Nat.le_succ _) (ctx.parameterList_le (ctx.current s) s.advance)
  · simp

end Context

end ExprReader
