import ExprReader.Proofs.Accounting

/-! # One report for each deviation

A tree deviates from the language where a part of it is missing and where it holds a token that belongs to no
construct. Of all kinds of reports but two, which are about the commas and the names of parameters, exactly as many
were made as the trees deviate in that way: no deviation is passed over in silence, and none is reported twice. -/

namespace ExprReader

/-! ### Deviations -/

/-- The one report that is due if something is wrong. -/
def dueIf (wrong : Bool) (kind : DiagnosticKind) : List DiagnosticKind :=
  if wrong then [kind] else []

@[simp] theorem dueIf_true (kind : DiagnosticKind) : dueIf true kind = [kind] := rfl

@[simp] theorem dueIf_false (kind : DiagnosticKind) : dueIf false kind = [] := rfl

/-- Whether a colon announces a type that is missing. -/
def Parameter.lacksType (p : Parameter) : Bool :=
  p.colon.isSome && p.typeName.isNone

/-- The reports that are due for a list of parameters. -/
def ParameterList.deviations (l : ParameterList) : List DiagnosticKind :=
  (l.parameters.flatMap fun p => dueIf p.lacksType .typeExpected) ++ dueIf l.closing.isNone .closeParenthesisExpected

/-- The report that is due for braces. -/
def Block.deviations (b : Block Expr) : List DiagnosticKind :=
  dueIf b.closing.isNone .closeBraceExpected

namespace Expr

/-- The list of parameters of a function. -/
@[simp] def parameterLists : Expr → List ParameterList
  | function _ _ parameters _ => parameters.toList
  | _ => []

/-- The braces of a block or around the body of a function. -/
@[simp] def braces : Expr → List (Block Expr)
  | block body => [body]
  | function _ _ _ body => body.toList
  | _ => []

/-- Whether it is a function without a name. -/
@[simp] def lacksName : Expr → Bool
  | function _ name _ _ => name.isNone
  | _ => false

/-- Whether it is a function without a list of parameters. -/
@[simp] def lacksParameters : Expr → Bool
  | function _ _ parameters _ => parameters.isNone
  | _ => false

/-- Whether it is a function without a body. -/
@[simp] def lacksBody : Expr → Bool
  | function _ _ _ body => body.isNone
  | _ => false

/-- Whether it is an operator without an operand. -/
@[simp] def lacksOperand : Expr → Bool
  | unary _ operand => operand.isNone
  | _ => false

/-- Whether it is a parenthesis that is closed around nothing. -/
@[simp] def lacksInner : Expr → Bool
  | parenthesis _ inner closing => closing.isSome && inner.isNone
  | _ => false

/-- Whether it is a parenthesis that is not closed. -/
@[simp] def lacksClosing : Expr → Bool
  | parenthesis _ _ closing => closing.isNone
  | _ => false

/-- Whether it is a token of the language that belongs to no construct. -/
@[simp] def isUnexpected : Expr → Bool
  | invalidToken token => token.kind ≠ .invalid
  | _ => false

/-- Whether it is a closing delimiter that belongs to no construct. -/
def isStray : Expr → Bool
  | invalidToken token => token.kind = .closeParen ∨ token.kind = .closeCurly
  | _ => false

/-- The reports that are due for an expression, apart from those for the expressions inside it. -/
def deviations (e : Expr) : List DiagnosticKind :=
  dueIf e.lacksName .nameExpected ++ dueIf e.lacksParameters .parameterListExpected ++
    dueIf e.lacksBody .functionBodyExpected ++ dueIf e.lacksOperand .expressionExpected ++
    dueIf e.lacksInner .expressionExpected ++ dueIf e.isUnexpected .expressionExpected ++
    dueIf e.lacksClosing .closeParenthesisExpected ++ e.parameterLists.flatMap ParameterList.deviations ++
    e.braces.flatMap Block.deviations

/-- How often a kind of report is due for some expressions and all inside them. -/
def due (kind : DiagnosticKind) (es : List Expr) : Nat :=
  ((partsAll es).flatMap deviations).count kind

section
variable {kind : DiagnosticKind}

@[simp] theorem due_nil : due kind [] = 0 := rfl

theorem due_cons (e : Expr) (es : List Expr) : due kind (e :: es) = due kind [e] + due kind es := by
  simp [due, partsAll]

theorem due_append (ds es : List Expr) : due kind (ds ++ es) = due kind ds + due kind es := by
  induction ds with
  | nil => simp
  | cons d ds ih => rw [List.cons_append, due_cons, ih, due_cons d ds, Nat.add_assoc]

theorem due_singleton (e : Expr) : due kind [e] = e.deviations.count kind + due kind e.children := by
  simp [due, partsAll, parts_eq_cons]

@[simp] theorem due_literal (token : Token) : due kind [literal token] = 0 := rfl

@[simp] theorem due_identifier (token : Token) : due kind [identifier token] = 0 := rfl

@[simp] theorem due_unary (operator : Token) (operand : Option Expr) : due kind [unary operator operand] =
    (dueIf operand.isNone .expressionExpected).count kind + due kind operand.toList := by
  simp [due_singleton, deviations, children]

@[simp] theorem due_binary (left : Expr) (operator : Token) (right : Expr) :
    due kind [binary left operator right] = due kind [left] + due kind [right] := by
  rw [due_singleton, children, due_cons]
  simp [deviations]

@[simp] theorem due_parenthesis (opening : Token) (inner : Option Expr) (closing : Option Token) :
    due kind [parenthesis opening inner closing] =
      (dueIf (closing.isSome && inner.isNone) .expressionExpected).count kind +
        (dueIf closing.isNone .closeParenthesisExpected).count kind + due kind inner.toList := by
  simp [due_singleton, deviations, children]

@[simp] theorem due_block (body : Block Expr) :
    due kind [block body] = body.deviations.count kind + due kind body.expressions := by
  simp [due_singleton, deviations, children]

@[simp] theorem due_function (keyword : Token) (name : Option Token) (parameters : Option ParameterList)
    (body : Option (Block Expr)) : due kind [function keyword name parameters body] =
      (dueIf name.isNone .nameExpected).count kind + (dueIf parameters.isNone .parameterListExpected).count kind +
        (parameters.toList.flatMap ParameterList.deviations).count kind +
        (dueIf body.isNone .functionBodyExpected).count kind + due kind (body.toList.map block) := by
  rw [due_singleton, deviations]
  simp only [List.count_append, lacksName, lacksParameters, lacksBody, lacksOperand, lacksInner, isUnexpected,
    lacksClosing, parameterLists, braces, dueIf_false, List.count_nil, children]
  cases body with
  | none => simp [Nat.add_right_comm]
  | some body => simp [Nat.add_assoc]

@[simp] theorem due_invalidToken (token : Token) :
    due kind [invalidToken token] = (dueIf (token.kind ≠ .invalid) .expressionExpected).count kind := by
  simp [due_singleton, deviations, children]

@[simp] theorem due_invalidExpr (inner : Expr) : due kind [invalidExpr inner] = due kind [inner] := by
  rw [due_singleton, children]
  simp [deviations]

end

end Expr

/-! ### Reports of a kind -/

/-- How many of some reports are of a kind. -/
def reportCount (kind : DiagnosticKind) (reports : Array Diagnostic) : Nat :=
  (reports.toList.map Diagnostic.kind).count kind

section
variable {kind : DiagnosticKind}

@[simp] theorem reportCount_push (reports : Array Diagnostic) (found : DiagnosticKind) (span : Span) :
    reportCount kind (reports.push ⟨found, span⟩) = reportCount kind reports + [found].count kind := by
  simp [reportCount]

@[simp] theorem reportCount_reportAt (ctx : Context) (s : State) (found : DiagnosticKind) :
    reportCount kind (ctx.reportAt found s).diagnostics = reportCount kind s.diagnostics + [found].count kind :=
  reportCount_push ..

@[simp] theorem reportCount_reportAfter (ctx : Context) (s : State) (found : DiagnosticKind) :
    reportCount kind (ctx.reportAfter found s).diagnostics = reportCount kind s.diagnostics + [found].count kind :=
  reportCount_push ..

@[simp] theorem reportCount_unexpected (token : Token) (s : State) :
    reportCount kind (unexpected token s).2.diagnostics =
      reportCount kind s.diagnostics + Expr.due kind [.invalidToken token] := by
  rw [unexpected, Expr.due_invalidToken]
  by_cases hk : token.kind = .invalid
  · simp [hk]
  · simp [hk]

/-- Whether a kind of report is due for nothing but what can be seen in a tree. The tokens that a list of parameters
drops cannot. -/
def DiagnosticKind.isAccounted : DiagnosticKind → Bool
  | commaExpected | parameterExpected => false
  | _ => true

theorem count_eq_zero_of_isAccounted {found : DiagnosticKind} (hk : kind.isAccounted = true)
    (hfound : found.isAccounted = false) : [found].count kind = 0 := by
  refine List.count_eq_zero.mpr fun hm => ?_
  obtain rfl := List.mem_singleton.mp hm
  cases hk.symm.trans hfound

/-! ### The header of a function -/

variable {ctx : Context} {s t : State}

theorem functionName_reported {name : Option Token} (h : ctx.functionName s = (name, t)) :
    reportCount kind t.diagnostics =
      reportCount kind s.diagnostics + (dueIf name.isNone .nameExpected).count kind := by
  rcases functionName_cases h with ⟨-, rfl, rfl⟩ | ⟨-, rfl, rfl⟩
  · simp
  · simp

variable (hk : kind.isAccounted = true)
include hk

theorem skipToName_reported (s : State) :
    reportCount kind (ctx.skipToName s).diagnostics = reportCount kind s.diagnostics := by
  fun_induction ctx.skipToName s with
  | case1 s _ => rfl
  | case2 s _ _ => rfl
  | case3 s _ _ ih =>
    rw [ih, State.advance_diagnostics, reportCount_reportAt, count_eq_zero_of_isAccounted hk rfl, Nat.add_zero]

theorem ReadsParameter.reported {comma : Option Token} {p : Option Parameter} (h : ReadsParameter ctx comma s p t) :
    reportCount kind t.diagnostics = reportCount kind s.diagnostics +
      (p.toList.flatMap fun p => dueIf p.lacksType .typeExpected).count kind := by
  have hfound : reportCount kind (ctx.skipToName s).diagnostics = _ := skipToName_reported hk s
  cases h with
  | plain _ _ => simp [hfound, Parameter.lacksType]
  | typed _ _ _ => simp [hfound, Parameter.lacksType]
  | untyped _ _ _ => simp [hfound, Parameter.lacksType]
  | missing _ _ =>
    rw [reportCount_reportAfter, hfound, count_eq_zero_of_isAccounted hk rfl]
    rfl
  | skipped _ _ => simp [hfound]

theorem ReadsOthers.reported {ps : List Parameter} (h : ReadsOthers ctx s ps t) :
    reportCount kind t.diagnostics = reportCount kind s.diagnostics +
      (ps.flatMap fun p => dueIf p.lacksType .typeExpected).count kind := by
  induction h with
  | finish _ => simp
  | comma _ hp _ ih =>
    rw [ih, hp.reported hk, List.flatMap_append, List.count_append, State.advance_diagnostics, Nat.add_assoc]
  | noComma _ _ hp _ ih =>
    rw [ih, hp.reported hk, List.flatMap_append, List.count_append, reportCount_reportAfter,
      count_eq_zero_of_isAccounted hk rfl, Nat.add_zero, Nat.add_assoc]

theorem ReadsParameters.reported {ps : List Parameter} (h : ReadsParameters ctx s ps t) :
    reportCount kind t.diagnostics = reportCount kind s.diagnostics +
      (ps.flatMap fun p => dueIf p.lacksType .typeExpected).count kind := by
  cases h with
  | empty _ => simp
  | filled _ hp ho => rw [ho.reported hk, hp.reported hk, List.flatMap_append, List.count_append, Nat.add_assoc]

theorem ReadsList.reported {opening : Token} {l : ParameterList} (h : ReadsList ctx opening s l t) :
    reportCount kind t.diagnostics = reportCount kind s.diagnostics + l.deviations.count kind := by
  cases h with
  | closed hp _ => simp [hp.reported hk, ParameterList.deviations]
  | unclosed hp _ => simp [hp.reported hk, ParameterList.deviations, Nat.add_assoc]

theorem functionParameters_reported {l : Option ParameterList} (h : ctx.functionParameters s = (l, t)) :
    reportCount kind t.diagnostics = reportCount kind s.diagnostics +
      (dueIf l.isNone .parameterListExpected).count kind +
      (l.toList.flatMap ParameterList.deviations).count kind := by
  rcases functionParameters_cases h with ⟨-, list, rfl, hlist⟩ | ⟨-, rfl, rfl⟩
  · simp [hlist.reported hk]
  · simp

end

/-! ### Expressions and programs -/

open Expr

/-- The expressions from which a task starts. -/
def Task.done : Task → List Expr
  | extend _ left => [left]
  | block _ done => done
  | _ => []

section
variable {kind : DiagnosticKind} (hk : kind.isAccounted = true) {ctx : Context} {room : Nat} {s t : State}

include hk in
/-- On the way through a task what is due for its result was reported, but for what was due before. -/
theorem Reads.reported {task : Task} {e : Expr} (h : Reads ctx room task s e t) :
    reportCount kind t.diagnostics + due kind task.done = reportCount kind s.diagnostics + due kind [e] := by
  induction h with
  | exprInvalid _ _ _ ih => exact ih
  | exprExtended _ _ _ _ ih ih' =>
    simp only [Task.done, due_nil, State.advance_diagnostics] at ih ih' ⊢
    omega
  | primaryDeepest => simp [Task.done]
  | primaryUnknown _ => simp [Task.done]
  | primaryKnown _ _ ih => exact ih
  | extendStop _ => rfl
  | extendOperator _ _ _ ih ih' =>
    simp only [Task.done, due_nil, due_binary, State.advance_diagnostics] at ih ih' ⊢
    omega
  | @operandEnd _ _ s hend =>
    have hvalid : (ctx.current s).kind = .eof := hend
    simp [Task.done, hvalid]
  | operandDeepest _ => simp [Task.done]
  | operandExpr _ _ ih => exact ih
  | literal => simp [Task.done]
  | identifier => simp [Task.done]
  | unary _ _ ih => simpa [Task.done] using ih
  | unaryMissing _ => simp [Task.done]
  | parenthesisEmpty _ => simp [Task.done]
  | parenthesisEnd _ => simp [Task.done]
  | parenthesisClosed _ _ _ ih => simpa [Task.done] using ih
  | parenthesisOpen _ _ _ ih =>
    have hwhole := congrArg (· + [DiagnosticKind.closeParenthesisExpected].count kind) ih
    simpa [Task.done, Nat.add_assoc, Nat.add_comm, Nat.add_left_comm] using hwhole
  | block _ ih => exact ih
  | function hn hp _ _ ih =>
    have hname : reportCount kind _ = _ := functionName_reported hn
    have hlist := functionParameters_reported hk hp
    simp only [Task.done, due_nil, State.advance_diagnostics] at ih
    simp only [Task.done, due_nil, due_function, Option.isNone_some, dueIf_false, List.count_nil, Option.toList_some,
      List.map_cons, List.map_nil]
    omega
  | functionOpen hn hp _ =>
    have hname : reportCount kind _ = _ := functionName_reported hn
    have hlist := functionParameters_reported hk hp
    simp only [Task.done, due_nil, due_function, reportCount_reportAfter, Option.isNone_none, dueIf_true,
      Option.toList_none, List.map_nil]
    omega
  | again _ ih => exact ih
  | blockClosed _ => simp [Task.done, Block.deviations]
  | blockEnd _ => simp [Task.done, Block.deviations, Nat.add_assoc]
  | blockNext _ _ _ _ ih ih' =>
    simp only [Task.done, due_nil, due_append] at ih ih' ⊢
    omega

/-- The first token of an expression is the one that comes next. -/
theorem Reads.leaves_head {least : Precedence} {e : Expr} (h : Reads ctx room (.expr least) s e t)
    (hr : ctx.rules.EndsAtEof) : e.leaves.head? = some (ctx.current s) := by
  cases h with
  | exprInvalid _ hp _ =>
    obtain ⟨tokens, hleaves, -⟩ := hp.gathers hr
    rw [hleaves]
    rfl
  | exprExtended _ hp _ he =>
    obtain ⟨tokens, hleaves, -⟩ := hp.gathers hr
    obtain ⟨others, hleaves', -⟩ := he.gathers hr
    rw [hleaves', Task.given, hleaves]
    rfl

theorem Reads.isStray_eq_false {least : Precedence} {e : Expr} (h : Reads ctx room (.expr least) s e t)
    (hr : ctx.rules.EndsAtEof) (hopen : ¬(ctx.kind s = .closeParen ∨ ctx.kind s = .closeCurly)) :
    e.isStray = false := by
  cases e with
  | invalidToken token =>
    have hhead := h.leaves_head hr
    simp only [leaves_invalidToken, List.head?_cons, Option.some.injEq] at hhead
    subst hhead
    exact decide_eq_false hopen
  | _ => rfl

include hk in
/-- What is due for the trees was reported, but for the closing delimiters between them: these were reported as
such and not as tokens in the place of an expression. -/
theorem ReadsProgram.reported {es : List Expr} (h : ReadsProgram ctx room s es t) (hr : ctx.rules.EndsAtEof) :
    reportCount kind t.diagnostics + [DiagnosticKind.expressionExpected].count kind * es.countP isStray =
      reportCount kind s.diagnostics + due kind es + [DiagnosticKind.endExpected].count kind * es.countP isStray := by
  induction h with
  | finish _ => simp
  | @stray s es t hstray _ ih =>
    have hkind : (ctx.current s).kind = .closeParen ∨ (ctx.current s).kind = .closeCurly := hstray
    have hvalid : (ctx.current s).kind ≠ .invalid := by
      rcases hkind with hkind | hkind <;> simp [hkind]
    rw [List.countP_cons_of_pos (by simpa [isStray] using hkind), due_cons, due_invalidToken,
      decide_eq_true hvalid, dueIf_true, Nat.mul_succ, Nat.mul_succ]
    simp only [State.advance_diagnostics, reportCount_reportAt] at ih
    omega
  | next _ hopen he _ ih =>
    have hfirst := he.reported hk
    rw [List.countP_cons_of_neg (by simp [he.isStray_eq_false hr hopen]), due_cons]
    simp only [Task.done, due_nil] at hfirst
    omega

end

/-! ### Counting deviations -/

section
variable {α : Type} {kind : DiagnosticKind}

theorem count_flatMap_append (f g : α → List DiagnosticKind) (l : List α) :
    (l.flatMap fun x => f x ++ g x).count kind = (l.flatMap f).count kind + (l.flatMap g).count kind := by
  induction l with
  | nil => rfl
  | cons x l ih =>
    simp only [List.flatMap_cons, List.count_append, ih]
    omega

theorem count_flatMap_dueIf (wrong : α → Bool) (found : DiagnosticKind) (l : List α) :
    (l.flatMap fun x => dueIf (wrong x) found).count kind = [found].count kind * l.countP wrong := by
  induction l with
  | nil => rfl
  | cons x l ih =>
    rw [List.flatMap_cons, List.count_append, ih, List.countP_cons]
    cases wrong x with
    | false => simp
    | true => simp [Nat.mul_succ, Nat.add_comm]

end

theorem ParameterList.count_deviations (kind : DiagnosticKind) (ls : List ParameterList) :
    (ls.flatMap deviations).count kind =
      [DiagnosticKind.typeExpected].count kind * (ls.flatMap parameters).countP Parameter.lacksType +
        [DiagnosticKind.closeParenthesisExpected].count kind * ls.countP (·.closing.isNone) := by
  have hsplit : (ls.flatMap deviations).count kind = _ := count_flatMap_append _ _ ls
  rw [hsplit, count_flatMap_dueIf, ← List.flatMap_assoc, count_flatMap_dueIf]

namespace Parsed

/-- All expressions of the trees. -/
def parts (result : Parsed) : List Expr :=
  Expr.partsAll result.expressions

/-- All lists of parameters in the trees. -/
def parameterLists (result : Parsed) : List ParameterList :=
  result.parts.flatMap Expr.parameterLists

/-- All blocks in the trees, bodies of functions included. -/
def blocks (result : Parsed) : List (Block Expr) :=
  result.parts.flatMap Expr.braces

/-- How many reports are of a kind. -/
def count (result : Parsed) (kind : DiagnosticKind) : Nat :=
  reportCount kind result.diagnostics

/-- How often each kind of report is due for the trees. -/
theorem due_eq (result : Parsed) (kind : DiagnosticKind) : Expr.due kind result.expressions =
    [DiagnosticKind.nameExpected].count kind * result.parts.countP Expr.lacksName +
    [DiagnosticKind.parameterListExpected].count kind * result.parts.countP Expr.lacksParameters +
    [DiagnosticKind.functionBodyExpected].count kind * result.parts.countP Expr.lacksBody +
    [DiagnosticKind.expressionExpected].count kind * result.parts.countP Expr.lacksOperand +
    [DiagnosticKind.expressionExpected].count kind * result.parts.countP Expr.lacksInner +
    [DiagnosticKind.expressionExpected].count kind * result.parts.countP Expr.isUnexpected +
    [DiagnosticKind.closeParenthesisExpected].count kind * result.parts.countP Expr.lacksClosing +
    ([DiagnosticKind.typeExpected].count kind *
        (result.parameterLists.flatMap ParameterList.parameters).countP Parameter.lacksType +
      [DiagnosticKind.closeParenthesisExpected].count kind * result.parameterLists.countP (·.closing.isNone)) +
    [DiagnosticKind.closeBraceExpected].count kind * result.blocks.countP (·.closing.isNone) := by
  have hlists := ParameterList.count_deviations kind result.parameterLists
  have hblocks : (result.blocks.flatMap Block.deviations).count kind = _ :=
    count_flatMap_dueIf (fun b : Block Expr => b.closing.isNone) .closeBraceExpected _
  have hsplit : Expr.due kind result.expressions = _ := count_flatMap_append _ _ result.parts
  rw [parameterLists, List.flatMap_assoc] at hlists
  rw [blocks, List.flatMap_assoc] at hblocks
  simp only [count_flatMap_append, count_flatMap_dueIf, hlists, hblocks] at hsplit
  exact hsplit

end Parsed

/-! ### Sources -/

/-- The scanner reports nothing but unknown characters. -/
theorem reportCount_scan (kind : DiagnosticKind) (source : String) : reportCount kind (scan source).2 =
    [DiagnosticKind.unknownCharacter].count kind * (scan source).1.tokens.toList.countP (·.kind = .invalid) := by
  have hkinds : (scan source).2.toList.map Diagnostic.kind =
      (scan source).1.tokens.toList.flatMap fun token => dueIf (token.kind = .invalid) .unknownCharacter := by
    rw [scan_reports, Scanner.reportsFor]
    induction (scan source).1.tokens.toList with
    | nil => rfl
    | cons token tokens ih =>
      by_cases hk : token.kind = .invalid
      · simpa [hk] using ih
      · simpa [hk] using ih
  rw [reportCount, hkinds, count_flatMap_dueIf]

/-- What was reported about a source is what is due for its trees and its characters. -/
theorem parse_reported {kind : DiagnosticKind} (hk : kind.isAccounted = true) (source : String) :
    (parse source).count kind +
        [DiagnosticKind.expressionExpected].count kind * (parse source).expressions.countP Expr.isStray =
      [DiagnosticKind.unknownCharacter].count kind * (scan source).1.tokens.toList.countP (·.kind = .invalid) +
        Expr.due kind (parse source).expressions +
        [DiagnosticKind.endExpected].count kind * (parse source).expressions.countP Expr.isStray := by
  obtain ⟨t, hrun, hd, -⟩ := parse_passes source
  rw [Parsed.count, hd, ← reportCount_scan]
  exact hrun.reported hk Rules.standard_endsAtEof

/-- Every deviation in the trees of a source was reported exactly once, by its own kind. -/
theorem deviations_reported (source : String) :
    (parse source).count .nameExpected = (parse source).parts.countP Expr.lacksName ∧
    (parse source).count .parameterListExpected = (parse source).parts.countP Expr.lacksParameters ∧
    (parse source).count .functionBodyExpected = (parse source).parts.countP Expr.lacksBody ∧
    (parse source).count .typeExpected =
      ((parse source).parameterLists.flatMap ParameterList.parameters).countP Parameter.lacksType ∧
    (parse source).count .closeBraceExpected = (parse source).blocks.countP (·.closing.isNone) ∧
    (parse source).count .closeParenthesisExpected =
      (parse source).parts.countP Expr.lacksClosing + (parse source).parameterLists.countP (·.closing.isNone) ∧
    (parse source).count .endExpected = (parse source).expressions.countP Expr.isStray ∧
    (parse source).count .unknownCharacter = (scan source).1.tokens.toList.countP (·.kind = .invalid) ∧
    (parse source).count .expressionExpected + (parse source).count .endExpected =
      (parse source).parts.countP Expr.lacksOperand + (parse source).parts.countP Expr.lacksInner +
        (parse source).parts.countP Expr.isUnexpected := by
  have hcount (kind : DiagnosticKind) (hk : kind.isAccounted = true) :=
    (parse source).due_eq kind ▸ parse_reported hk source
  have hend : (parse source).count .endExpected = (parse source).expressions.countP Expr.isStray := by
    simpa using hcount .endExpected rfl
  refine ⟨?_, ?_, ?_, ?_, ?_, ?_, hend, ?_, ?_⟩
  · simpa using hcount .nameExpected rfl
  · simpa using hcount .parameterListExpected rfl
  · simpa using hcount .functionBodyExpected rfl
  · simpa using hcount .typeExpected rfl
  · simpa using hcount .closeBraceExpected rfl
  · simpa using hcount .closeParenthesisExpected rfl
  · simpa using hcount .unknownCharacter rfl
  · rw [hend]
    simpa using hcount .expressionExpected rfl

end ExprReader
