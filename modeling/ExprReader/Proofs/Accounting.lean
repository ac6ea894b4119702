import ExprReader.Proofs.Clean
import ExprReader.Proofs.Layout

/-! # What becomes of every token

The tokens of the trees are the tokens of the source in their order, each at most once. Only a list of
parameters drops tokens, and it reports every one: by the span of the token itself, or, for a comma that no
parameter follows, right behind the comma or at the token after it. One more token can stand at the very end,
the end of the input in the place of a right operand. -/

namespace ExprReader

/-! ### Kept and lost tokens -/

/-- Whether reports account for a token that is in no tree, given the token after it. -/
def Token.LossReported (reports : Array Diagnostic) (token : Token) (next : Option Token) : Prop :=
  ⟨.parameterExpected, token.span⟩ ∈ reports ∨
    token.kind = .comma ∧ (⟨.parameterExpected, Span.empty token.stop⟩ ∈ reports ∨
      ∃ other ∈ next, ⟨.parameterExpected, other.span⟩ ∈ reports)

theorem Token.LossReported.mono {reports reports' : Array Diagnostic} {token : Token} {next next' : Option Token}
    (h : token.LossReported reports next) (hreports : ∀ d ∈ reports, d ∈ reports')
    (hnext : ∀ other ∈ next, other ∈ next') : token.LossReported reports' next' := by
  rcases h with hself | ⟨hk, hempty | ⟨other, hother, hafter⟩⟩
  · exact Or.inl (hreports _ hself)
  · exact Or.inr ⟨hk, Or.inl (hreports _ hempty)⟩
  · exact Or.inr ⟨hk, Or.inr ⟨other, hnext other hother, hreports _ hafter⟩⟩

/-- Some of the tokens are kept in their order, and reports account for the others. -/
inductive Sifted (reports : Array Diagnostic) : List Token → List Token → Prop where
  | nil : Sifted reports [] []
  | keep {token tokens kept} : Sifted reports tokens kept → Sifted reports (token :: tokens) (token :: kept)
  | lose {token tokens kept} : token.LossReported reports tokens.head? → Sifted reports tokens kept →
      Sifted reports (token :: tokens) kept

namespace Sifted
variable {reports reports' : Array Diagnostic} {tokens kept tokens' kept' : List Token}

theorem mono (h : Sifted reports tokens kept) (hreports : ∀ d ∈ reports, d ∈ reports') :
    Sifted reports' tokens kept := by
  induction h with
  | nil => exact .nil
  | keep _ ih => exact .keep ih
  | lose hlost _ ih => exact .lose (hlost.mono hreports fun _ h => h) ih

theorem append (h : Sifted reports tokens kept) (h' : Sifted reports tokens' kept') :
    Sifted reports (tokens ++ tokens') (kept ++ kept') := by
  induction h with
  | nil => exact h'
  | keep _ ih => exact .keep ih
  | lose hlost _ ih =>
    refine .lose (hlost.mono (fun _ h => h) fun other hother => ?_) ih
    exact List.head?_append.trans (by rw [hother]; rfl)

theorem sublist (h : Sifted reports tokens kept) : kept.Sublist tokens := by
  induction h with
  | nil => exact .slnil
  | keep _ ih => exact ih.cons_cons _
  | lose _ _ ih => exact ih.cons _

theorem reported_of_not_mem (h : Sifted reports tokens kept) {i : Nat} {token : Token}
    (hi : tokens[i]? = some token) (hlost : token ∉ kept) : token.LossReported reports tokens[i + 1]? := by
  induction h generalizing i with
  | nil => cases hi
  | keep _ ih =>
    cases i with
    | zero =>
      cases hi
      exact absurd (List.mem_cons_self ..) hlost
    | succ i => exact ih hi fun hm => hlost (List.mem_cons_of_mem _ hm)
  | lose hreported _ ih =>
    cases i with
    | zero =>
      cases hi
      rwa [List.head?_eq_getElem?] at hreported
    | succ i => exact ih hi hlost

end Sifted

/-! ### Runs that gather tokens -/

/-- On the way from `s` to `t` the tokens are gathered, up to those that were reported as lost. At the end of
the input it may stand last itself, but only if the way is not empty. -/
structure Gathers (ctx : Context) (s t : State) (tokens : List Token) : Prop extends Moves ctx s t where
  sifted : ∃ (kept : List Token) (placeholder : Option Token), tokens = kept ++ placeholder.toList ∧
    Sifted t.diagnostics (ctx.passed s t) kept ∧
    ∀ ending ∈ placeholder, ending = ctx.current t ∧ ctx.kind t = .eof ∧ s.cursor < t.cursor

namespace Moves
variable {ctx : Context} {s t : State}

theorem mem_reports (h : Moves ctx s t) : ∀ d ∈ s.diagnostics, d ∈ t.diagnostics := by
  intro d hd
  rw [← Array.mem_toList_iff] at hd ⊢
  exact h.reports.subset hd

/-- Nothing moves on from the end of the input. -/
theorem cursor_eq_of_eof (h : Moves ctx s t) (hr : ctx.rules.EndsAtEof) (hk : ctx.kind s = .eof) :
    t.cursor = s.cursor := by
  rcases Nat.lt_or_eq_of_le h.cursor with hlt | heq
  · exact absurd hk (h.before hr _ (Nat.le_refl _) hlt)
  · exact heq.symm

/-- A way on which no token is passed. -/
theorem gathers_nil (h : Moves ctx s t) (hcursor : t.cursor = s.cursor) : Gathers ctx s t [] := by
  refine ⟨h, [], none, rfl, ?_, by simp⟩
  rw [Context.passed_eq_nil hcursor]
  exact .nil

end Moves

namespace Gathers
variable {ctx : Context} {s t u : State} {tokens others : List Token}

theorem advance (hk : ctx.rules.EndsAtEof → ctx.kind s ≠ .eof) : Gathers ctx s s.advance [ctx.current s] := by
  refine ⟨.advance hk, [ctx.current s], none, rfl, ?_, by simp⟩
  rw [Context.passed_advance]
  exact .keep .nil

theorem advance_of_kind {kind : TokenKind} (h : ctx.kind s = kind) (hk : kind ≠ .eof) :
    Gathers ctx s s.advance [ctx.current s] :=
  advance fun _ => by rw [h]; exact hk

theorem report (kind : DiagnosticKind) (span : Span) : Gathers ctx s (s.report kind span) [] :=
  (Moves.report kind span).gathers_nil rfl

theorem reportAt (kind : DiagnosticKind) : Gathers ctx s (ctx.reportAt kind s) [] :=
  report _ _

theorem unexpected (token : Token) : Gathers ctx s (ExprReader.unexpected token s).2 [] :=
  (Moves.unexpected token).gathers_nil (unexpected_cursor token s)

/-- The end of the input stands for the operand of an operator. -/
theorem placeholder (hk : ctx.kind s ≠ .eof) (h : Moves ctx s.advance t) (hcursor : t.cursor = s.advance.cursor)
    (hend : ctx.kind t = .eof) : Gathers ctx s t [ctx.current s, ctx.current t] := by
  refine ⟨(Moves.advance fun _ => hk).trans h, [ctx.current s], some (ctx.current t), rfl, ?_, ?_⟩
  · rw [Context.passed_eq_cons (Nat.le_of_eq hcursor.symm), Context.passed_eq_nil hcursor]
    exact .keep .nil
  · rintro _ ⟨⟩
    exact ⟨rfl, hend, by rw [hcursor]; exact Nat.lt_succ_self _⟩

variable (hr : ctx.rules.EndsAtEof)
include hr

theorem trans (h : Gathers ctx s t tokens) (h' : Gathers ctx t u others) : Gathers ctx s u (tokens ++ others) := by
  refine ⟨h.toMoves.trans h'.toMoves, ?_⟩
  obtain ⟨kept, placeholder, rfl, hsifted, hend⟩ := h.sifted
  obtain ⟨kept', placeholder', rfl, hsifted', hend'⟩ := h'.sifted
  have hsifted'' := (hsifted.mono h'.mem_reports).append hsifted'
  rw [← Context.passed_trans h.cursor h'.cursor] at hsifted''
  cases placeholder with
  | none =>
    refine ⟨kept ++ kept', placeholder', by simp, hsifted'', fun ending hm => ?_⟩
    obtain ⟨hcurrent, hk, hlt⟩ := hend' ending hm
    exact ⟨hcurrent, hk, Nat.lt_of_le_of_lt h.cursor hlt⟩
  | some ending =>
    -- The first part has come to the end of the input, so the second part is empty.
    obtain ⟨hcurrent, hk, hlt⟩ := hend ending rfl
    have hcursor := h'.cursor_eq_of_eof hr hk
    have hnone : placeholder' = none := by
      cases placeholder' with
      | none => rfl
      | some other => exact absurd (hend' other rfl).2.2 (by omega)
    rw [Context.passed_eq_nil hcursor] at hsifted'
    cases hsifted'
    refine ⟨kept, some ending, by simp [hnone], by simpa using hsifted'', ?_⟩
    rintro _ ⟨⟩
    rw [Context.kind, Context.current, hcursor]
    exact ⟨hcurrent, hk, hlt⟩

theorem cons (hk : ctx.kind s ≠ .eof) (h : Gathers ctx s.advance t tokens) :
    Gathers ctx s t (ctx.current s :: tokens) :=
  (advance fun _ => hk).trans hr h

theorem reported (h : Gathers ctx s t tokens) (kind : DiagnosticKind) (span : Span) :
    Gathers ctx s (t.report kind span) tokens := by
  simpa using h.trans hr (report kind span)

end Gathers

/-! ### The header of a function -/

section Header
variable {ctx : Context} {s t : State}

/-- A token that no tree takes. -/
theorem Gathers.lose {tokens : List Token} (hk : ctx.kind s ≠ .eof) (h : Gathers ctx s.advance t tokens)
    (hlost : (ctx.current s).LossReported t.diagnostics (ctx.passed s.advance t).head?) :
    Gathers ctx s t tokens := by
  obtain ⟨kept, placeholder, htokens, hsifted, hend⟩ := h.sifted
  refine ⟨(Moves.advance fun _ => hk).trans h.toMoves, kept, placeholder, htokens, ?_, fun ending hm => ?_⟩
  · rw [Context.passed_eq_cons h.cursor]
    exact .lose hlost hsifted
  · obtain ⟨hcurrent, hkind, hlt⟩ := hend ending hm
    exact ⟨hcurrent, hkind, Nat.lt_of_succ_lt hlt⟩

theorem skipToName_first_reported (h : (ctx.skipToName s).cursor ≠ s.cursor) :
    ⟨.parameterExpected, (ctx.current s).span⟩ ∈ (ctx.skipToName s).diagnostics := by
  fun_cases ctx.skipToName s with
  | case1 hname => exact absurd (by rw [Context.skipToName, if_pos hname]) h
  | case2 hname hends => exact absurd (by rw [Context.skipToName, if_neg hname, if_pos hends]) h
  | case3 hname hends => exact (Moves.skipToName ctx _).mem_reports _ (by simp [Context.reportAt])

theorem functionName_gathers {name : Option Token} (h : ctx.functionName s = (name, t)) :
    Gathers ctx s t name.toList := by
  rcases functionName_cases h with ⟨hk, rfl, rfl⟩ | ⟨-, rfl, rfl⟩
  · exact .advance_of_kind hk (by simp)
  · exact .report _ _

variable (hr : ctx.rules.EndsAtEof)
include hr

theorem skipToName_gathers (s : State) : Gathers ctx s (ctx.skipToName s) [] := by
  fun_induction ctx.skipToName s with
  | case1 s _ => exact (Moves.refl ctx s).gathers_nil rfl
  | case2 s _ _ => exact (Moves.refl ctx s).gathers_nil rfl
  | case3 s _ hends ih =>
    have hk : ctx.kind s ≠ .eof := TokenKind.ne_eof_of_not_endsParameters (by simpa using hends)
    have hrest : Gathers ctx s.advance _ [] := (Gathers.report .parameterExpected (ctx.current s).span).trans hr ih
    exact hrest.lose hk (Or.inl (ih.mem_reports _ (by simp [Context.reportAt])))

theorem ReadsParameter.gathers {comma : Option Token} {p : Parameter} (h : ReadsParameter ctx comma s (some p) t) :
    ∃ tokens, p.leaves = comma.toList ++ tokens ∧ Gathers ctx s t tokens := by
  have hfound := skipToName_gathers hr s
  cases h with
  | plain hname _ =>
    exact ⟨_, rfl, hfound.trans hr (.advance_of_kind hname (by simp))⟩
  | typed hname hcolon htype =>
    have htypeName : Gathers ctx (ctx.skipToName s).advance.advance _ _ := .advance fun hr => hr.names htype
    exact ⟨_, rfl, hfound.trans hr ((htypeName.cons hr (by simp [hcolon])).cons hr (by simp [hname]))⟩
  | untyped hname hcolon _ =>
    have hcolon' : Gathers ctx (ctx.skipToName s).advance _ _ := .advance_of_kind hcolon (by simp)
    exact ⟨_, rfl, (hfound.trans hr (hcolon'.cons hr (by simp [hname]))).reported hr _ _⟩

/-- Where there is no parameter, the token before or the next token is reported. -/
theorem ReadsParameter.gathers_none {comma : Option Token} (h : ReadsParameter ctx comma s none t) :
    Gathers ctx s t [] ∧ (⟨.parameterExpected, Span.empty (ctx.previous s).stop⟩ ∈ t.diagnostics ∨
      ∃ other ∈ (ctx.passed s t).head?, ⟨.parameterExpected, other.span⟩ ∈ t.diagnostics) := by
  have hfound := skipToName_gathers hr s
  cases h with
  | missing _ hsame =>
    refine ⟨hfound.reported hr _ _, Or.inl ?_⟩
    rw [skipToName_of_cursor hsame]
    simp [Context.reportAfter]
  | skipped _ hmoved =>
    have hlt := Nat.lt_of_le_of_ne hfound.cursor (Ne.symm hmoved)
    refine ⟨hfound, Or.inr ⟨ctx.current s, ?_, skipToName_first_reported hmoved⟩⟩
    rw [Context.passed_eq_cons hlt]
    rfl

theorem ReadsParameter.gathers_of_no_comma {p : Option Parameter} (h : ReadsParameter ctx none s p t) :
    Gathers ctx s t (p.toList.flatMap Parameter.leaves) := by
  cases p with
  | none => exact (h.gathers_none hr).1
  | some p =>
    obtain ⟨tokens, hleaves, hgathers⟩ := h.gathers hr
    simpa [hleaves] using hgathers

theorem ReadsOthers.gathers {ps : List Parameter} (h : ReadsOthers ctx s ps t) :
    Gathers ctx s t (ps.flatMap Parameter.leaves) := by
  induction h with
  | finish _ => exact (Moves.refl ctx _).gathers_nil rfl
  | @comma s p t ps u hk hp _ ih =>
    have hk' : ctx.kind s ≠ .eof := by simp [hk]
    rw [List.flatMap_append]
    refine Gathers.trans hr ?_ ih
    cases p with
    | none =>
      -- The comma goes with the parameter that is missing after it.
      obtain ⟨hgathers, hreported⟩ := hp.gathers_none hr
      exact hgathers.lose hk' (Or.inr ⟨hk, hreported⟩)
    | some p =>
      obtain ⟨tokens, hleaves, hgathers⟩ := hp.gathers hr
      simpa [hleaves] using hgathers.cons hr hk'
  | @noComma s _ _ _ _ _ _ hp _ ih =>
    have hmissing : Gathers ctx s (ctx.reportAfter .commaExpected s) [] := .report _ _
    rw [List.flatMap_append]
    exact (hmissing.trans hr (hp.gathers_of_no_comma hr)).trans hr ih

theorem ReadsParameters.gathers {ps : List Parameter} (h : ReadsParameters ctx s ps t) :
    Gathers ctx s t (ps.flatMap Parameter.leaves) := by
  cases h with
  | empty _ => exact (Moves.refl ctx s).gathers_nil rfl
  | filled _ hp ho =>
    rw [List.flatMap_append]
    exact (hp.gathers_of_no_comma hr).trans hr (ho.gathers hr)

theorem ReadsList.gathers {opening : Token} {l : ParameterList} (h : ReadsList ctx opening s l t) :
    ∃ tokens, l.leaves = opening :: tokens ∧ Gathers ctx s t tokens := by
  cases h with
  | closed hp hk => exact ⟨_, rfl, (hp.gathers hr).trans hr (.advance_of_kind hk (by simp))⟩
  | unclosed hp _ => exact ⟨_, rfl, (hp.gathers hr).trans hr (.report _ _)⟩

theorem functionParameters_gathers {l : Option ParameterList} (h : ctx.functionParameters s = (l, t)) :
    Gathers ctx s t (l.toList.flatMap ParameterList.leaves) := by
  rcases functionParameters_cases h with ⟨hk, list, rfl, hlist⟩ | ⟨-, rfl, rfl⟩
  · obtain ⟨tokens, hleaves, hgathers⟩ := hlist.gathers hr
    simpa [hleaves] using hgathers.cons hr (by simp [hk])
  · exact .report _ _

end Header

/-! ### Expressions and programs -/

open Expr

/-- What a task gathers on its way beyond what it started from. An operand that is missing at the end of the
input is the end itself, which is no progress. -/
def Task.Gathers (ctx : Context) (s : State) (e : Expr) (t : State) : Task → Prop
  | operand _ => ExprReader.Gathers ctx s t e.leaves ∨
      (ctx.kind t = .eof ∧ t.cursor = s.cursor ∧ e = .invalidToken (ctx.current t))
  | task => ∃ tokens, e.leaves = task.given ++ tokens ∧ ExprReader.Gathers ctx s t tokens

section
variable {ctx : Context} {room : Nat} {s t : State} (hr : ctx.rules.EndsAtEof)
include hr

theorem Reads.gathers {task : Task} {e : Expr} (h : Reads ctx room task s e t) : task.Gathers ctx s e t := by
  induction h with
  | exprInvalid hk _ _ ih =>
    obtain ⟨tokens, hleaves, hgathers⟩ := ih
    exact ⟨_, hleaves, hgathers.cons hr hk⟩
  | exprExtended hk _ _ _ ih ih' =>
    obtain ⟨tokens, hleaves, hgathers⟩ := ih
    obtain ⟨others, hleaves', hgathers'⟩ := ih'
    refine ⟨_, ?_, (hgathers.trans hr hgathers').cons hr hk⟩
    simp [Task.given, hleaves', hleaves]
  | primaryDeepest => exact ⟨[], by simp [Task.given], .unexpected _⟩
  | primaryUnknown _ => exact ⟨[], by simp [Task.given], .unexpected _⟩
  | primaryKnown _ _ ih => exact ih
  | extendStop _ => exact ⟨[], by simp [Task.given], (Moves.refl ctx _).gathers_nil rfl⟩
  | extendOperator hk hread _ ih ih' =>
    have hk' := TokenKind.ne_eof_of_continues hk
    obtain ⟨others, hleaves', hgathers'⟩ := ih'
    rcases ih with hgathers | ⟨hend, hcursor, rfl⟩
    · refine ⟨_, ?_, (hgathers.cons hr hk').trans hr hgathers'⟩
      simp [Task.given, hleaves']
    · refine ⟨_, ?_, (Gathers.placeholder hk' hread.moves hcursor hend).trans hr hgathers'⟩
      simp [Task.given, hleaves']
  | operandEnd hk => exact Or.inr ⟨hk, rfl, rfl⟩
  | @operandDeepest _ s hk =>
    have hgathers := (Gathers.advance fun _ => hk).trans hr (.unexpected (ctx.current s))
    exact Or.inl (by simpa using hgathers)
  | operandExpr _ _ ih =>
    obtain ⟨tokens, hleaves, hgathers⟩ := ih
    exact Or.inl (hleaves ▸ hgathers)
  | literal => exact ⟨[], by simp [Task.given], (Moves.refl ctx _).gathers_nil rfl⟩
  | identifier => exact ⟨[], by simp [Task.given], (Moves.refl ctx _).gathers_nil rfl⟩
  | unary hk _ ih =>
    obtain ⟨tokens, hleaves, hgathers⟩ := ih
    have hk' : ctx.kind _ ≠ .eof := hk.elim hr.starts (by simp +contextual)
    exact ⟨_, by simp [Task.given, hleaves], hgathers.cons hr hk'⟩
  | unaryMissing _ => exact ⟨[], by simp [Task.given], .report _ _⟩
  | parenthesisEmpty hk =>
    have hclosing := (Gathers.reportAt .expressionExpected).trans hr (.advance_of_kind hk (by simp))
    exact ⟨_, by simp [Task.given], hclosing⟩
  | parenthesisEnd _ => exact ⟨[], by simp [Task.given], .report _ _⟩
  | parenthesisClosed _ _ hk ih =>
    obtain ⟨tokens, hleaves, hgathers⟩ := ih
    refine ⟨_, ?_, hgathers.trans hr (.advance_of_kind hk (by simp))⟩
    simp [Task.given, hleaves]
  | parenthesisOpen _ _ _ ih =>
    obtain ⟨tokens, hleaves, hgathers⟩ := ih
    exact ⟨_, by simp [Task.given, hleaves], hgathers.reported hr _ _⟩
  | block _ ih => exact ih
  | function hn hp hk _ ih =>
    obtain ⟨tokens, hleaves, hgathers⟩ := ih
    have hbody := hgathers.cons hr (by simp [hk])
    refine ⟨_, ?_, (functionName_gathers hn).trans hr ((functionParameters_gathers hr hp).trans hr hbody)⟩
    simp only [leaves_function, hleaves, Task.given, Option.toList_some, List.flatMap_singleton, List.flatMap_nil,
      List.append_assoc, List.cons_append, List.nil_append]
  | functionOpen hn hp _ =>
    refine ⟨_, ?_, ((functionName_gathers hn).trans hr (functionParameters_gathers hr hp)).reported hr _ _⟩
    simp [Task.given]
  | again _ ih => exact ih
  | blockClosed hk => exact ⟨_, by simp [Task.given], .advance_of_kind hk (by simp)⟩
  | blockEnd _ => exact ⟨[], by simp [Task.given], .report _ _⟩
  | blockNext _ _ _ _ ih ih' =>
    obtain ⟨tokens, hleaves, hgathers⟩ := ih
    obtain ⟨others, hleaves', hgathers'⟩ := ih'
    refine ⟨_, ?_, hgathers.trans hr hgathers'⟩
    simp [Task.given, hleaves', hleaves]

theorem ReadsProgram.gathers {es : List Expr} (h : ReadsProgram ctx room s es t) :
    Gathers ctx s t (es.flatMap leaves) := by
  induction h with
  | finish _ => exact (Moves.refl ctx _).gathers_nil rfl
  | @stray s _ _ hk _ ih =>
    have hk' : ctx.kind s ≠ .eof := by rcases hk with hk | hk <;> simp [hk]
    simpa using ((Gathers.reportAt .endExpected).trans hr (.advance fun _ => hk')).trans hr ih
  | next _ _ he _ ih =>
    obtain ⟨tokens, hleaves, hgathers⟩ := he.gathers hr
    rw [List.flatMap_cons, hleaves]
    exact hgathers.trans hr ih

end

/-! ### The end of the input in a tree -/

namespace Expr

/-- The end of the input stands in a tree only as a right operand. -/
def EndsRight (e : Expr) : Prop :=
  ∀ token ∈ e.leaves, token.kind = .eof → ∃ left operator, .binary left operator (.invalidToken token) ∈ e.parts

theorem endsRight_of_ne_eof {e : Expr} (h : ∀ token ∈ e.leaves, token.kind ≠ .eof) : e.EndsRight :=
  fun token hm hk => absurd hk (h token hm)

theorem EndsRight.of_part {d e : Expr} {token : Token} (h : d.EndsRight) (hm : token ∈ d.leaves)
    (hk : token.kind = .eof) (hparts : ∀ part ∈ d.parts, part ∈ e.parts) :
    ∃ left operator, .binary left operator (.invalidToken token) ∈ e.parts := by
  obtain ⟨left, operator, hpart⟩ := h token hm hk
  exact ⟨left, operator, hparts _ hpart⟩

theorem endsRight_unary {operator : Token} {operand : Expr} (hop : operator.kind ≠ .eof) (h : operand.EndsRight) :
    (unary operator (some operand)).EndsRight := by
  intro token hm hk
  rw [leaves_unary, List.mem_cons] at hm
  rcases hm with rfl | hm
  · exact absurd hk hop
  · exact h.of_part (by simpa using hm) hk fun part hpart => by simp [parts, hpart]

theorem endsRight_binary {left right : Expr} {operator : Token} (hop : operator.kind ≠ .eof) (hl : left.EndsRight)
    (hr : right.EndsRight ∨ ∃ token, right = .invalidToken token) : (binary left operator right).EndsRight := by
  intro token hm hk
  rw [leaves_binary, List.mem_append, List.mem_cons] at hm
  rcases hm with hm | rfl | hm
  · exact hl.of_part hm hk fun part hpart => by simp [parts, hpart]
  · exact absurd hk hop
  · rcases hr with hr | ⟨ending, rfl⟩
    · exact hr.of_part hm hk fun part hpart => by simp [parts, hpart]
    · rw [leaves_invalidToken, List.mem_singleton] at hm
      exact ⟨left, operator, by rw [hm]; exact mem_parts_self _⟩

theorem endsRight_parenthesis {opening : Token} {inner : Option Expr} {closing : Option Token}
    (hopen : opening.kind ≠ .eof) (hclose : ∀ c ∈ closing, c.kind ≠ .eof) (h : ∀ e ∈ inner, e.EndsRight) :
    (parenthesis opening inner closing).EndsRight := by
  intro token hm hk
  rw [leaves_parenthesis, List.mem_cons, List.mem_append] at hm
  rcases hm with rfl | hm | hm
  · exact absurd hk hopen
  · obtain ⟨e, he, hleaf⟩ := List.mem_flatMap.mp hm
    obtain rfl := Option.mem_toList.mp he
    exact (h e rfl).of_part hleaf hk fun part hpart => by simp [parts, hpart]
  · exact absurd hk (hclose token (Option.mem_toList.mp hm))

theorem endsRight_block {body : Block Expr} (hopen : body.opening.kind ≠ .eof)
    (hclose : ∀ c ∈ body.closing, c.kind ≠ .eof) (h : ∀ e ∈ body.expressions, e.EndsRight) :
    (block body).EndsRight := by
  intro token hm hk
  rw [leaves_block, List.mem_cons, List.mem_append] at hm
  rcases hm with rfl | hm | hm
  · exact absurd hk hopen
  · obtain ⟨e, he, hm⟩ := List.mem_flatMap.mp hm
    exact (h e he).of_part hm hk fun part hpart => List.mem_cons_of_mem _ (mem_partsAll.mpr ⟨e, he, hpart⟩)
  · exact absurd hk (hclose token (Option.mem_toList.mp hm))

theorem endsRight_function {keyword : Token} {name : Option Token} {parameters : Option ParameterList}
    {body : Option (Block Expr)} (hkeyword : keyword.kind ≠ .eof) (hname : ∀ n ∈ name, n.kind ≠ .eof)
    (hlist : ∀ l ∈ parameters, ∀ token ∈ l.leaves, token.kind ≠ .eof) (h : ∀ b ∈ body, (block b).EndsRight) :
    (function keyword name parameters body).EndsRight := by
  intro token hm hk
  rw [leaves_function, List.mem_cons, List.mem_append, List.mem_append] at hm
  rcases hm with rfl | (hm | hm) | hm
  · exact absurd hk hkeyword
  · exact absurd hk (hname token (Option.mem_toList.mp hm))
  · obtain ⟨l, hl, hm⟩ := List.mem_flatMap.mp hm
    exact absurd hk (hlist l (Option.mem_toList.mp hl) token hm)
  · obtain ⟨b, hb, hleaf⟩ := List.mem_flatMap.mp hm
    obtain rfl := Option.mem_toList.mp hb
    obtain ⟨left, operator, hpart⟩ := h b rfl token hleaf hk
    refine ⟨left, operator, ?_⟩
    simpa [parts] using hpart

theorem endsRight_invalidExpr {inner : Expr} (h : inner.EndsRight) : (invalidExpr inner).EndsRight := by
  intro token hm hk
  rw [leaves_invalidExpr] at hm
  exact h.of_part hm hk fun part hpart => by simp [parts, hpart]

end Expr

/-- The result of a task has the end of the input only as a right operand, given that what it started from has.
A missing operand is the end of the input itself, whose place the operator decides. -/
def Task.EndsRight : Task → Expr → Prop
  | expr _, e => e.EndsRight
  | primary token, e | construct _ token, e => token.kind ≠ .eof → e.EndsRight
  | extend _ left, e => left.EndsRight → e.EndsRight
  | operand _, e => e.EndsRight ∨ ∃ token, e = .invalidToken token
  | block opening done, e => opening.kind ≠ .eof → (∀ d ∈ done, d.EndsRight) → e.EndsRight

section
variable {ctx : Context} {room : Nat} {s t : State}

theorem Context.current_ne_eof {kind : TokenKind} (h : ctx.kind s = kind) (hk : kind ≠ .eof) :
    (ctx.current s).kind ≠ .eof :=
  fun hend => hk (h.symm.trans hend)

variable (standard : ctx.rules = .standard)
include standard

theorem function_header_ne_eof {name : Option Token} {l : Option ParameterList} {u : State}
    (hn : ctx.functionName s = (name, t)) (hp : ctx.functionParameters t = (l, u)) :
    (∀ n ∈ name, n.kind ≠ .eof) ∧ ∀ list ∈ l, ∀ token ∈ list.leaves, token.kind ≠ .eof :=
  ⟨fun n hname => by simp [functionName_kind hn n hname],
    fun list hl token hm => ((functionParameters_kindsFit standard hp list hl).solid token hm).2⟩

theorem Reads.endsRight {task : Task} {e : Expr} (h : Reads ctx room task s e t) : task.EndsRight e := by
  have hr : ctx.rules.EndsAtEof := by
    rw [standard]
    exact Rules.standard_endsAtEof
  induction h with
  | exprInvalid hk _ _ ih => exact ih hk
  | exprExtended hk _ _ _ ih ih' => exact ih' (ih hk)
  | primaryDeepest => exact fun hk => endsRight_of_ne_eof (by simpa using hk)
  | primaryUnknown _ => exact fun hk => endsRight_of_ne_eof (by simpa using hk)
  | primaryKnown _ _ ih => exact ih
  | extendStop _ => exact id
  | extendOperator hk _ _ ih ih' =>
    exact fun hleft => ih' (endsRight_binary (TokenKind.ne_eof_of_continues hk) hleft ih)
  | operandEnd _ => exact Or.inr ⟨_, rfl⟩
  | operandDeepest _ => exact Or.inr ⟨_, rfl⟩
  | operandExpr _ _ ih => exact Or.inl ih
  | literal => exact fun hk => endsRight_of_ne_eof (by simpa using hk)
  | identifier => exact fun hk => endsRight_of_ne_eof (by simpa using hk)
  | unary hk _ ih =>
    exact fun hop => endsRight_unary hop (ih (hk.elim hr.starts (Context.current_ne_eof · (by simp))))
  | unaryMissing _ => exact fun hk => endsRight_of_ne_eof (by simpa using hk)
  | parenthesisEmpty hk =>
    refine fun hopen => endsRight_parenthesis hopen ?_ (by simp)
    rintro _ ⟨⟩
    exact Context.current_ne_eof hk (by simp)
  | parenthesisEnd _ =>
    exact fun hopen => endsRight_invalidExpr (endsRight_parenthesis hopen (by simp) (by simp))
  | parenthesisClosed _ _ hk ih =>
    refine fun hopen => endsRight_parenthesis hopen ?_ ?_
    · rintro _ ⟨⟩
      exact Context.current_ne_eof hk (by simp)
    · rintro _ ⟨⟩
      exact ih
  | parenthesisOpen _ _ _ ih =>
    refine fun hopen => endsRight_invalidExpr (endsRight_parenthesis hopen (by simp) ?_)
    rintro _ ⟨⟩
    exact ih
  | block _ ih => exact fun hopen => ih hopen (by simp)
  | function hn hp hk _ ih =>
    obtain ⟨hname, hlist⟩ := function_header_ne_eof standard hn hp
    refine fun hkeyword => endsRight_function hkeyword hname hlist ?_
    rintro _ ⟨⟩
    exact ih (Context.current_ne_eof hk (by simp)) (by simp)
  | functionOpen hn hp _ =>
    obtain ⟨hname, hlist⟩ := function_header_ne_eof standard hn hp
    exact fun hkeyword => endsRight_function hkeyword hname hlist (by simp)
  | again _ ih => exact ih
  | blockClosed hk =>
    refine fun hopen hdone => endsRight_block hopen ?_ hdone
    rintro _ ⟨⟩
    exact Context.current_ne_eof hk (by simp)
  | blockEnd _ => exact fun hopen hdone => endsRight_block hopen (by simp) hdone
  | blockNext _ _ _ _ ih ih' =>
    refine fun hopen hdone => ih' hopen (List.forall_mem_append.mpr ⟨hdone, ?_⟩)
    exact List.forall_mem_singleton.mpr ih

theorem ReadsProgram.endsRight {es : List Expr} (h : ReadsProgram ctx room s es t) : ∀ e ∈ es, e.EndsRight := by
  induction h with
  | finish _ => simp
  | stray hk _ ih =>
    refine List.forall_mem_cons.mpr ⟨endsRight_of_ne_eof ?_, ih⟩
    rw [leaves_invalidToken, List.forall_mem_singleton]
    exact hk.elim (Context.current_ne_eof · (by simp)) (Context.current_ne_eof · (by simp))
  | next _ _ he _ ih => exact List.forall_mem_cons.mpr ⟨he.endsRight standard, ih⟩

end

/-! ### Sources -/

theorem scan_nodup (source : String) : (scan source).1.tokens.toList.Nodup := by
  obtain ⟨hplaces, hpairs⟩ := (scan_eq_iff.mp (rfl : _ = (scan source).1.tokens.toList)).ordered
  refine hpairs.imp_of_mem fun {first second} hm _ hle heq => ?_
  have hlt := (hplaces first hm).2
  rw [heq] at hle hlt
  omega

/-- The tokens of the trees are tokens of the source in their order, each at most once, and after them perhaps
the end of the input as the right operand of an operator. What is in no tree is reported. -/
theorem tokens_accounted (source : String) : ∃ (kept : List Token) (placeholder : Option Token),
    (parse source).expressions.flatMap leaves = kept ++ placeholder.toList ∧
      kept.Sublist (scan source).1.tokens.toList ∧ kept.Nodup ∧ (∀ token ∈ kept, token.kind ≠ .eof) ∧
      (∀ ending ∈ placeholder, ending.kind = .eof ∧ ∃ e ∈ (parse source).expressions, ∃ left operator,
        Expr.binary left operator (.invalidToken ending) ∈ e.parts) ∧
      ∀ i token, (scan source).1.tokens[i]? = some token → token ∉ kept →
        token.LossReported (parse source).diagnostics (scan source).1.tokens[i + 1]? := by
  obtain ⟨t, hrun, hd, -, hpassed⟩ := parse_passes source
  obtain ⟨kept, placeholder, hleaves, hsifted, hend⟩ := (hrun.gathers Rules.standard_endsAtEof).sifted
  rw [hpassed, ← hd] at hsifted
  refine ⟨kept, placeholder, hleaves, hsifted.sublist, hsifted.sublist.nodup (scan_nodup source), ?_, ?_, ?_⟩
  · intro token hm
    exact scan_kind_ne_eof source token (Array.mem_toList_iff.mp (hsifted.sublist.subset hm))
  · intro ending hm
    obtain ⟨rfl, hk, -⟩ := hend ending hm
    have hleaf : (Parser.ofSource source).context.current t ∈ (parse source).expressions.flatMap leaves := by
      rw [hleaves, hm]
      simp
    obtain ⟨e, he, hmem⟩ := List.mem_flatMap.mp hleaf
    exact ⟨hk, e, he, hrun.endsRight rfl e he _ hmem hk⟩
  · intro i token hi hlost
    rw [← Array.getElem?_toList] at hi ⊢
    exact hsifted.reported_of_not_mem hi hlost

end ExprReader
