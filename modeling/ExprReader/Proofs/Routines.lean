import ExprReader.Proofs.Moves
import ExprReader.Proofs.Programs

/-! # The routines come to an end

Every routine comes to an end from every parser, with what the functions of the reader give. The derivations of
the reader are followed rule by rule: what is read one level deeper is read between a step deeper and the step
back, and the operator that does not go on with an expression is read and given back. -/

namespace ExprReader

namespace Ends
variable {p q : Parser} {token : Token} {e : Expr}

theorem refuse : Ends (Program.refuse token) p (.invalidToken token)
    { p with state := (unexpected token p.state).2 } := by
  unfold Program.refuse unexpected
  split
  · exact .pure
  · exact .report .pure

theorem expect {kind : TokenKind} {missing : DiagnosticKind} :
    Ends (Program.expect kind missing) p (p.context.expect kind missing p.state).1
      { p with state := (p.context.expect kind missing p.state).2 } := by
  unfold Program.expect Context.expect
  split
  · exact .current (.ite_pos ‹_› (.advance .pure))
  · exact .current (.ite_neg ‹_› (.reportAfter .pure))

theorem byRules {found : Construct} (hfound : p.context.rules.construct? token.kind = some found)
    (h : Ends (Routine.construct found token).body p e q) : Ends (Program.byRules token) p e q := by
  refine .rules ?_
  rw [hfound]
  exact .call h

theorem byRules_none (hnone : p.context.rules.construct? token.kind = none) :
    Ends (Program.byRules token) p (.invalidToken token) { p with state := (unexpected token p.state).2 } := by
  refine .rules ?_
  rw [hnone]
  exact .refuse

end Ends

/-! ### The header of a function -/

section
variable {ctx : Context} {s t : State} {depth : Nat} {hdepth : depth ≤ maxNesting}

theorem ends_typeName : Ends Routine.typeName.body ⟨ctx, s, depth, hdepth⟩ (ctx.typeName s).1
    ⟨ctx, (ctx.typeName s).2, depth, hdepth⟩ := by
  unfold Context.typeName
  split
  · exact .rules (.current (.ite_pos ‹_› (.advance .pure)))
  · exact .rules (.current (.ite_neg ‹_› (.reportAfter .pure)))

/-- A parameter where tokens may have been passed over already. Then one that is missing has been reported. -/
def Context.parameterFrom (ctx : Context) (comma : Option Token) (skipped : Bool) (s : State) :
    Option Parameter × State :=
  let found := ctx.skipToName s
  if ctx.kind found = .identifier then ctx.parameter comma found
  else if skipped = true ∨ found.cursor ≠ s.cursor then (none, found)
  else (none, ctx.reportAfter .parameterExpected found)

theorem Context.parameterFrom_false (ctx : Context) (comma : Option Token) :
    ctx.parameterFrom comma false = ctx.parameter comma := by
  funext s
  unfold parameterFrom parameter
  by_cases hname : ctx.kind (ctx.skipToName s) = .identifier
  · simp only [hname, if_true, skipToName_of_name hname]
  · simp only [hname, if_false, Bool.false_eq_true, false_or, ne_eq, ite_not]

theorem Context.parameterFrom_of_skip (comma : Option Token) (skipped : Bool) (hname : ctx.kind s ≠ .identifier)
    (hgoes : ¬(ctx.kind s).endsParameters = true) :
    ctx.parameterFrom comma skipped s = ctx.parameterFrom comma true (ctx.reportAt .parameterExpected s).advance := by
  have hskip : ctx.skipToName s = ctx.skipToName (ctx.reportAt .parameterExpected s).advance := by
    rw [skipToName, if_neg hname, if_neg hgoes]
  have hmoved : s.cursor < (ctx.skipToName s).cursor := by
    rw [hskip]
    exact ctx.skipToName_le (ctx.reportAt .parameterExpected s).advance
  unfold parameterFrom
  simp only [← hskip, Nat.ne_of_gt hmoved, ne_eq, not_false_eq_true, or_true, true_or, if_true]

theorem ends_parameter (comma : Option Token) (skipped : Bool) :
    Ends (Routine.parameter comma skipped).body ⟨ctx, s, depth, hdepth⟩ (ctx.parameterFrom comma skipped s).1
      ⟨ctx, (ctx.parameterFrom comma skipped s).2, depth, hdepth⟩ := by
  -- One call of the routine for each token that is passed over; the last one finds a name or the end.
  fun_induction ctx.skipToName s generalizing skipped with
  | case1 s hname =>
    have hskip := skipToName_of_name hname
    simp only [Context.parameterFrom, hskip, hname, if_true, Context.parameter]
    split
    · exact .current (.ite_pos hname (.advance (.current (.ite_pos ‹_› (.advance (.bind (.call ends_typeName) .pure))))))
    · exact .current (.ite_pos hname (.advance (.current (.ite_neg ‹_› .pure))))
  | case2 s hname hend =>
    have hskip : ctx.skipToName s = s := by rw [Context.skipToName, if_neg hname, if_pos hend]
    simp only [Context.parameterFrom, hskip, hname, if_false, ne_eq, not_true_eq_false, or_false]
    refine .current (.ite_neg hname (.ite_pos hend ?_))
    split
    · exact .pure
    · exact .reportAfter .pure
  | case3 s hname hgoes ih =>
    rw [Context.parameterFrom_of_skip comma skipped hname hgoes]
    exact .current (.ite_neg hname (.ite_neg hgoes (.advance (.report (.call (ih true))))))

/-- The rest of a list of parameters and its closing parenthesis. -/
def Context.parametersFrom (ctx : Context) (opening : Token) (gathered : List Parameter) (s : State) :
    ParameterList × State :=
  let (others, last) := ctx.otherParameters s
  let (closing, last) := ctx.expect .closeParen .closeParenthesisExpected last
  (⟨opening, gathered ++ others, closing⟩, last)

theorem ends_parameters (opening : Token) (gathered : List Parameter) :
    Ends (Routine.parameters opening gathered).body ⟨ctx, s, depth, hdepth⟩
      (ctx.parametersFrom opening gathered s).1 ⟨ctx, (ctx.parametersFrom opening gathered s).2, depth, hdepth⟩ := by
  fun_induction ctx.otherParameters s generalizing gathered with
  | case1 s hend =>
    rw [Context.parametersFrom, Context.otherParameters, if_pos hend]
    simp only [List.append_nil]
    exact .current (.ite_pos hend (.bind .expect .pure))
  | case2 s hgoes first others last hrest ih =>
    have hfrom : ctx.parametersFrom opening gathered s =
        ctx.parametersFrom opening (gathered ++ first.1.toList) first.2 := by
      rw [Context.parametersFrom, Context.otherParameters, if_neg hgoes]
      simp only [Context.parametersFrom, first, List.append_assoc]
    rw [hfrom]
    refine .current (.ite_neg hgoes (.bind .expect (.bind (.call (ends_parameter _ false)) ?_)))
    rw [Context.parameterFrom_false]
    exact .call (ih _)

theorem ends_parameterList (opening : Token) :
    Ends (Routine.parameterList opening).body ⟨ctx, s, depth, hdepth⟩ (ctx.parameterList opening s).1
      ⟨ctx, (ctx.parameterList opening s).2, depth, hdepth⟩ := by
  unfold Context.parameterList Context.firstParameter
  by_cases hend : (ctx.kind s).endsParameters = true
  · simp only [hend, if_true]
    exact .current (.ite_pos hend (.call (ends_parameters opening [])))
  · simp only [hend]
    refine .current (.ite_neg hend (.bind (.call (ends_parameter none false)) ?_))
    rw [Context.parameterFrom_false]
    exact .call (ends_parameters opening _)

theorem ends_functionName {name : Option Token} (h : ctx.functionName s = (name, t)) :
    Ends (Program.expect .identifier .nameExpected) ⟨ctx, s, depth, hdepth⟩ name ⟨ctx, t, depth, hdepth⟩ := by
  rcases functionName_cases h with ⟨hk, rfl, rfl⟩ | ⟨hk, rfl, rfl⟩
  · exact .current (.ite_pos hk (.advance .pure))
  · exact .current (.ite_neg hk (.reportAfter .pure))

theorem ends_functionParameters {l : Option ParameterList} (h : ctx.functionParameters s = (l, t)) :
    Ends Program.functionParameters ⟨ctx, s, depth, hdepth⟩ l ⟨ctx, t, depth, hdepth⟩ := by
  rcases functionParameters_cases h with ⟨hk, list, rfl, hlist⟩ | ⟨hk, rfl, rfl⟩
  · have hends : Ends _ ⟨ctx, s.advance, depth, hdepth⟩ _ _ := ends_parameterList (ctx.current s)
    rw [readsList_iff.mp hlist] at hends
    exact .current (.ite_pos hk (.advance (.bind (.call hends) .pure)))
  · exact .current (.ite_neg hk (.reportAfter .pure))

end

/-! ### Expressions and programs -/

/-- The routine for a task comes to an end with what is read. -/
def Task.Ends (p : Parser) : Task → Expr → State → Prop
  | expr least, e, t => ExprReader.Ends (Routine.expr least).body p (some e) { p with state := t }
  | primary token, e, t => ExprReader.Ends (Routine.construct .primary token).body p e { p with state := t }
  | construct found token, e, t => ExprReader.Ends (Routine.construct found token).body p e { p with state := t }
  | extend least left, e, t => ExprReader.Ends (Routine.operators least left).body p e { p with state := t }
  | operand strength, e, t => ExprReader.Ends (Routine.operand strength).body p e { p with state := t }
  | block opening gathered, e, t => ∃ body, e = .block body ∧
      ExprReader.Ends (Routine.block opening gathered).body p body { p with state := t }

section
variable {ctx : Context} {room : Nat} {s t : State}

theorem ends_expr_end {least : Precedence} {depth : Nat} {hdepth : depth ≤ maxNesting} (hk : ctx.kind s = .eof) :
    Ends (Routine.expr least).body ⟨ctx, s, depth, hdepth⟩ none ⟨ctx, s, depth, hdepth⟩ :=
  .current (.ite_pos hk .pure)

theorem Reads.ends {task : Task} {e : Expr} (h : Reads ctx room task s e t) (depth : Nat)
    (hdepth : depth ≤ maxNesting) (hroom : maxNesting - depth = room) : task.Ends ⟨ctx, s, depth, hdepth⟩ e t := by
  -- The rules say how much room is left and the parser how deep it is, so each step deeper takes one of the room.
  induction h generalizing depth with
  | exprInvalid hk _ hi ih =>
    exact .current (.ite_neg hk (.advance (.bind (.call (ih depth hdepth hroom)) (.ite_pos hi .pure))))
  | exprExtended hk _ hi _ ih ih' =>
    exact .current (.ite_neg hk (.advance (.bind (.call (ih depth hdepth hroom))
      (.ite_neg (ne_true_of_eq_false hi) (.bind (.call (ih' depth hdepth hroom)) .pure)))))
  | primaryDeepest => exact .not_descend (by simp only; omega) .refuse
  | primaryUnknown hc => exact .descend (by simp only; omega) rfl (.byRules_none hc) rfl .pure
  | primaryKnown hc _ ih =>
    exact .descend (by simp only; omega) rfl (.byRules hc (ih (depth + 1) (by omega) (by omega))) rfl .pure
  | extendStop hk => exact .advance_rewind (if_neg (ne_true_of_eq_false hk)) .pure
  | extendOperator hk _ _ ih ih' =>
    exact .advance (.ite_pos hk (.bind (.call (ih depth hdepth hroom)) (.call (ih' depth hdepth hroom))))
  | operandEnd hk => exact .current (.ite_pos hk (.report .pure))
  | operandDeepest hk =>
    exact .current (.ite_neg hk (.not_descend (by simp only; omega) (.advance .refuse)))
  | operandExpr hk _ ih =>
    exact .current (.ite_neg hk (.descend (by simp only; omega) rfl
      (.call (ih (depth + 1) (by omega) (by omega))) rfl .pure))
  | literal => exact .pure
  | identifier => exact .pure
  | unary hk _ ih =>
    exact .current (.rules (.ite_pos hk (.advance (.bind (.call (ih depth hdepth hroom)) .pure))))
  | unaryMissing hk => exact .current (.rules (.ite_neg hk (.report .pure)))
  | parenthesisEmpty hk =>
    exact .bind (.current (.ite_pos hk (.report .pure))) (.current (.ite_pos hk (.advance .pure)))
  | parenthesisEnd hk =>
    exact .bind (.current (.ite_neg (hk.trans_ne (by decide)) (.call (ends_expr_end hk))))
      (.current (.ite_neg (hk.trans_ne (by decide)) (.report .pure)))
  | parenthesisClosed hk _ hk' ih =>
    exact .bind (.current (.ite_neg hk (.call (ih depth hdepth hroom)))) (.current (.ite_pos hk' (.advance .pure)))
  | parenthesisOpen hk _ hk' ih =>
    exact .bind (.current (.ite_neg hk (.call (ih depth hdepth hroom)))) (.current (.ite_neg hk' (.report .pure)))
  | block _ ih =>
    obtain ⟨body, rfl, hbody⟩ := ih depth hdepth hroom
    exact .bind (.call hbody) .pure
  | function hn hp hk _ ih =>
    obtain ⟨body, hblock, hbody⟩ := ih depth hdepth hroom
    cases hblock
    exact .bind (ends_functionName hn) (.bind (ends_functionParameters hp)
      (.bind (.current (.ite_pos hk (.advance (.bind (.call hbody) .pure)))) .pure))
  | functionOpen hn hp hk =>
    exact .bind (ends_functionName hn) (.bind (ends_functionParameters hp)
      (.bind (.current (.ite_neg hk (.reportAfter .pure))) .pure))
  | again _ ih => exact ih depth hdepth hroom
  | blockClosed hk => exact ⟨_, rfl, .current (.ite_pos hk (.advance .pure))⟩
  | blockEnd hk => exact ⟨_, rfl, .current (.ite_neg (hk.trans_ne (by decide)) (.ite_pos hk (.report .pure)))⟩
  | blockNext hk hk' _ _ ih ih' =>
    obtain ⟨body, rfl, hbody⟩ := ih' depth hdepth hroom
    exact ⟨body, rfl, .current (.ite_neg hk (.ite_neg hk'
      (.bind (.call (ih depth hdepth hroom)) (.call hbody))))⟩

theorem ReadsProgram.ends {es : List Expr} (h : ReadsProgram ctx room s es t) {depth : Nat}
    (hdepth : depth ≤ maxNesting) (hroom : maxNesting - depth = room) (gathered : List Expr) :
    Ends (Routine.program gathered).body ⟨ctx, s, depth, hdepth⟩ (gathered ++ es) ⟨ctx, t, depth, hdepth⟩ := by
  induction h generalizing gathered with
  | finish hk =>
    rw [List.append_nil]
    exact .current (.ite_pos hk .pure)
  | @stray s _ _ hk _ ih =>
    have hend : ctx.kind s ≠ .eof := by rcases hk with hk | hk <;> exact hk.trans_ne (by decide)
    rw [List.append_cons]
    exact .current (.ite_neg hend (.ite_pos hk (.advance (.report (.call (ih _))))))
  | next hk hk' he _ ih =>
    rw [List.append_cons]
    exact .current (.ite_neg hk (.ite_neg hk' (.bind (.call (he.ends depth hdepth hroom)) (.call (ih _)))))

end

/-! ### What the routines give -/

/-- What the functions of the reader give for a routine. -/
def Routine.answer (p : Parser) : (routine : Routine) → routine.Result × Parser
  | expr least => p.expr least
  | operators least left => p.run (Level.extend (Level.beneath p.context (maxNesting - p.depth)) least left)
  | operand strength => p.run (Level.operandBelow (Level.beneath p.context (maxNesting - p.depth)) strength)
  | construct found token => p.construct found token
  | block opening gathered =>
    ({ (p.block opening).1 with expressions := gathered ++ (p.block opening).1.expressions }, (p.block opening).2)
  | parameterList opening => p.parameterList opening
  | parameters opening gathered => p.run (p.context.parametersFrom opening gathered)
  | parameter comma skipped => p.run (p.context.parameterFrom comma skipped)
  | typeName => p.typeName
  | program gathered => p.run fun s => (gathered ++ (p.level.program s).1, (p.level.program s).2)

/-- Every routine comes to an end from every parser, with what the functions of the reader give. -/
theorem Routine.ends (p : Parser) (routine : Routine) :
    Ends routine.body p (routine.answer p).1 (routine.answer p).2 := by
  obtain ⟨ctx, s, depth, hdepth⟩ := p
  have hreads (task : Task) {e : Expr} {t : State} (h : task.Returns ctx (maxNesting - depth) s e t) :=
    (reads_iff.mpr h).ends depth hdepth rfl
  cases routine with
  | expr least =>
    show Ends _ _ ((Level.ofRoom ctx (maxNesting - depth)).expr least s).1
      ⟨ctx, ((Level.ofRoom ctx (maxNesting - depth)).expr least s).2, depth, hdepth⟩
    by_cases hk : ctx.kind s = .eof
    · rw [Level.ofRoom_expr_of_eof _ least hk]
      exact ends_expr_end hk
    · obtain ⟨e, t, he⟩ := (derived ctx (maxNesting - depth)).expr_some least s hk
      rw [he]
      exact hreads (.expr least) he
  | operators least left => exact hreads (.extend least left) rfl
  | operand strength => exact hreads (.operand strength) rfl
  | construct found token => exact hreads (.construct found token) rfl
  | block opening gathered =>
    obtain ⟨body, hbody, hends⟩ := hreads (.block opening gathered) ⟨rfl, rfl⟩
    cases hbody
    exact hends
  | parameterList opening => exact ends_parameterList opening
  | parameters opening gathered => exact ends_parameters opening gathered
  | parameter comma skipped => exact ends_parameter comma skipped
  | typeName => exact ends_typeName
  | program gathered => exact (readsProgram_iff.mpr rfl).ends hdepth rfl gathered

/-! ### Runs of the routines -/

/-- A machine that is about to call a routine. -/
def Machine.calling (routine : Routine) (p : Parser) : Machine routine.Result :=
  ⟨.call routine, p⟩

/-- Called on a parser, a routine is done after finitely many steps, with a result and in a parser. -/
def Routine.Returns (routine : Routine) (p : Parser) (outcome : routine.Result × Parser) : Prop :=
  ∃ steps, (Machine.calling routine p).run steps = ⟨.done outcome.1, outcome.2⟩

/-- A routine returns, and no step on the way leaves what the parser had. -/
theorem Routine.returns (routine : Routine) (p : Parser) : routine.Returns p (routine.answer p) ∧
    ∀ steps, p.Onward ((Machine.calling routine p).run steps).parser :=
  (Ends.call (routine.ends p) p (.refl p)).exists_run

/-- Whatever the tokens, the rules, the cursor and the depth are, every reader is done after finitely many steps, and
an expression is never read without moving on from a token that is not the end of the input. -/
theorem reading_terminates (p : Parser) :
    (∀ least, (Routine.expr least).Returns p (p.expr least)) ∧
    (∀ found token, (Routine.construct found token).Returns p (p.construct found token)) ∧
    (∀ opening, (Routine.block opening []).Returns p (p.block opening)) ∧
    (∀ opening, (Routine.parameterList opening).Returns p (p.parameterList opening)) ∧
    (∀ comma, (Routine.parameter comma false).Returns p (p.parameter comma)) ∧
    (∃ q, (Routine.program []).Returns p (p.parse.expressions, q) ∧ q.state.diagnostics = p.parse.diagnostics) ∧
    ∀ least, p.current.kind ≠ .eof → p.state.cursor < (p.expr least).2.state.cursor := by
  have hreturns (routine : Routine) := (routine.returns p).1
  refine ⟨fun least => hreturns (.expr least), fun found token => hreturns (.construct found token),
    fun opening => hreturns (.block opening []), fun opening => hreturns (.parameterList opening),
    fun comma => ?_, ⟨_, hreturns (.program []), rfl⟩, fun least hk => p.level.expr_lt least p.state hk⟩
  have hparameter := hreturns (.parameter comma false)
  rw [Routine.answer, Context.parameterFrom_false] at hparameter
  exact hparameter

end ExprReader
