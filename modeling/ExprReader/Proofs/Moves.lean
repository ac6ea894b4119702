import ExprReader.Proofs.HeaderReads
import ExprReader.Proofs.Reads

/-! # How reading moves

Reading only moves forward and only adds reports, whatever the rules are. By rules under which the end of
the input begins nothing, it does not move past the end of the input either. -/

namespace ExprReader

namespace Context

@[simp] theorem kind_reportAt (ctx : Context) (kind : DiagnosticKind) (s : State) :
    ctx.kind (ctx.reportAt kind s) = ctx.kind s := rfl

@[simp] theorem current_reportAt (ctx : Context) (kind : DiagnosticKind) (s : State) :
    ctx.current (ctx.reportAt kind s) = ctx.current s := rfl

@[simp] theorem kind_reportAfter (ctx : Context) (kind : DiagnosticKind) (s : State) :
    ctx.kind (ctx.reportAfter kind s) = ctx.kind s := rfl

end Context

/-- The end of the input begins no construct and names no type. -/
structure Rules.EndsAtEof (rules : Rules) : Prop where
  construct : rules.construct? .eof = none
  namesType : rules.namesType .eof = false

theorem Rules.standard_endsAtEof : Rules.standard.EndsAtEof := ⟨rfl, rfl⟩

theorem Rules.EndsAtEof.starts {rules : Rules} (h : rules.EndsAtEof) {kind : TokenKind}
    (hk : rules.startsExpression kind = true) : kind ≠ .eof := by
  rintro rfl
  simp [startsExpression, h.construct] at hk

theorem Rules.EndsAtEof.names {rules : Rules} (h : rules.EndsAtEof) {kind : TokenKind}
    (hk : rules.namesType kind = true) : kind ≠ .eof := by
  rintro rfl
  simp [h.namesType] at hk

/-- From `s` to `t` the cursor moves forward, what was reported stays, and the end of the input is not
passed. -/
structure Moves (ctx : Context) (s t : State) : Prop where
  cursor : s.cursor ≤ t.cursor
  reports : s.diagnostics.toList <+: t.diagnostics.toList
  before : ctx.rules.EndsAtEof → ∀ i, s.cursor ≤ i → i < t.cursor → (ctx.buffer.get i).kind ≠ .eof

namespace Moves
variable {ctx : Context} {s t u : State}

theorem refl (ctx : Context) (s : State) : Moves ctx s s :=
  ⟨Nat.le_refl _, List.prefix_rfl, fun _ _ _ _ => by omega⟩

theorem trans (h : Moves ctx s t) (h' : Moves ctx t u) : Moves ctx s u where
  cursor := Nat.le_trans h.cursor h'.cursor
  reports := h.reports.trans h'.reports
  before hr i hs hu := by
    rcases Nat.lt_or_ge i t.cursor with hlt | hge
    · exact h.before hr i hs hlt
    · exact h'.before hr i hge hu

theorem advance (h : ctx.rules.EndsAtEof → ctx.kind s ≠ .eof) : Moves ctx s s.advance where
  cursor := Nat.le_succ _
  reports := List.prefix_rfl
  before hr i hs ht := by
    have : i = s.cursor := Nat.le_antisymm (Nat.le_of_lt_succ ht) hs
    rw [this]
    exact h hr

theorem advance_of_kind {kind : TokenKind} (h : ctx.kind s = kind) (hk : kind ≠ .eof) : Moves ctx s s.advance :=
  advance fun _ => by rw [h]; exact hk

theorem report (kind : DiagnosticKind) (span : Span) : Moves ctx s (s.report kind span) where
  cursor := Nat.le_refl _
  reports := ⟨[⟨kind, span⟩], by simp [State.report]⟩
  before _ _ _ _ := by simp only [State.report_cursor] at *; omega

theorem reportAt (kind : DiagnosticKind) : Moves ctx s (ctx.reportAt kind s) :=
  report _ _

theorem unexpected (token : Token) : Moves ctx s (ExprReader.unexpected token s).2 := by
  unfold ExprReader.unexpected
  split
  · exact refl ctx s
  · exact report _ _

/-- Nothing is reported on a way exactly when nothing is reported on either part of it. -/
theorem silent_iff (h : Moves ctx s t) (h' : Moves ctx t u) :
    u.diagnostics = s.diagnostics ↔ t.diagnostics = s.diagnostics ∧ u.diagnostics = t.diagnostics := by
  constructor
  · intro hu
    have hback : t.diagnostics.toList <+: s.diagnostics.toList := hu ▸ h'.reports
    have hst : t.diagnostics = s.diagnostics :=
      Array.toList_inj.mp (hback.eq_of_length (Nat.le_antisymm hback.length_le h.reports.length_le))
    exact ⟨hst, hu.trans hst.symm⟩
  · rintro ⟨ht, hu⟩
    rw [hu, ht]

theorem size_le (h : Moves ctx s t) : s.diagnostics.size ≤ t.diagnostics.size := by
  simpa using h.reports.length_le

/-- As many reports as before are the same reports. -/
theorem silent_of_size_le (h : Moves ctx s t) (hsize : t.diagnostics.size ≤ s.diagnostics.size) :
    t.diagnostics = s.diagnostics :=
  (Array.toList_inj.mp (h.reports.eq_of_length (by simpa using Nat.le_antisymm h.size_le hsize))).symm

/-- A report stays on the way from it. -/
theorem silent_ne_of_report {kind : DiagnosticKind} {span : Span} (h : Moves ctx (s.report kind span) u) :
    u.diagnostics ≠ s.diagnostics := by
  intro hu
  have hsize := h.size_le
  rw [hu, State.report_diagnostics, Array.size_push] at hsize
  omega

/-- A report at the end of a way is new. -/
theorem report_ne (h : Moves ctx s t) (kind : DiagnosticKind) (span : Span) :
    (t.report kind span).diagnostics ≠ s.diagnostics := by
  intro hu
  have hsize := h.size_le
  have hsize' := congrArg Array.size hu
  simp only [State.report_diagnostics, Array.size_push] at hsize'
  omega

/-! ### The header of a function -/

theorem skipToName (ctx : Context) (s : State) : Moves ctx s (ctx.skipToName s) := by
  fun_induction ctx.skipToName s with
  | case1 s _ => exact refl ctx s
  | case2 s _ _ => exact refl ctx s
  | case3 s _ hk ih =>
    have hk' : ctx.kind (ctx.reportAt .parameterExpected s) ≠ .eof :=
      TokenKind.ne_eof_of_not_endsParameters (by simpa using hk)
    exact (reportAt _).trans ((advance fun _ => hk').trans ih)

theorem parameter {comma : Option Token} {p : Option Parameter} (h : ReadsParameter ctx comma s p t) :
    Moves ctx s t := by
  have found := skipToName ctx s
  cases h with
  | plain hname _ => exact found.trans (advance_of_kind hname (by simp))
  | typed hname hcolon htype =>
    exact found.trans ((advance_of_kind hname (by simp)).trans
      ((advance_of_kind hcolon (by simp)).trans (advance fun hr => hr.names htype)))
  | untyped hname hcolon _ =>
    exact found.trans ((advance_of_kind hname (by simp)).trans
      ((advance_of_kind hcolon (by simp)).trans (report _ _)))
  | missing _ _ => exact found.trans (report _ _)
  | skipped _ _ => exact found

theorem others {ps : List Parameter} (h : ReadsOthers ctx s ps t) : Moves ctx s t := by
  induction h with
  | finish _ => exact refl ctx _
  | comma hk hp _ ih => exact (advance_of_kind hk (by simp)).trans ((parameter hp).trans ih)
  | noComma _ _ hp _ ih => exact (report _ _).trans ((parameter hp).trans ih)

theorem parameters {ps : List Parameter} (h : ReadsParameters ctx s ps t) : Moves ctx s t := by
  cases h with
  | empty _ => exact refl ctx s
  | filled _ hp ho => exact (parameter hp).trans (others ho)

theorem list {opening : Token} {l : ParameterList} (h : ReadsList ctx opening s l t) : Moves ctx s t := by
  cases h with
  | closed hp hk => exact (parameters hp).trans (advance_of_kind hk (by simp))
  | unclosed hp _ => exact (parameters hp).trans (report _ _)

theorem functionName {name : Option Token} (h : ctx.functionName s = (name, t)) : Moves ctx s t := by
  rcases functionName_cases h with ⟨hk, -, rfl⟩ | ⟨-, -, rfl⟩
  · exact advance_of_kind hk (by simp)
  · exact report _ _

theorem functionParameters {l : Option ParameterList} (h : ctx.functionParameters s = (l, t)) : Moves ctx s t := by
  rcases functionParameters_cases h with ⟨hk, list', -, hl⟩ | ⟨-, -, rfl⟩
  · exact (advance_of_kind hk (by simp)).trans (list hl)
  · exact report _ _

end Moves

/-! ### Expressions and programs -/

section
variable {ctx : Context} {room : Nat} {s t : State}

theorem Reads.moves {task : Task} {e : Expr} (h : Reads ctx room task s e t) : Moves ctx s t := by
  induction h with
  | exprInvalid hk _ _ ih => exact (Moves.advance fun _ => hk).trans ih
  | exprExtended hk _ _ _ ih ih' => exact (Moves.advance fun _ => hk).trans (ih.trans ih')
  | primaryDeepest => exact Moves.unexpected _
  | primaryUnknown _ => exact Moves.unexpected _
  | primaryKnown _ _ ih => exact ih
  | extendStop _ => exact Moves.refl ctx _
  | extendOperator hk _ _ ih ih' =>
    exact (Moves.advance fun _ => TokenKind.ne_eof_of_continues hk).trans (ih.trans ih')
  | operandEnd _ => exact Moves.report _ _
  | operandDeepest hk => exact (Moves.advance fun _ => hk).trans (Moves.unexpected _)
  | operandExpr _ _ ih => exact ih
  | literal => exact Moves.refl ctx _
  | identifier => exact Moves.refl ctx _
  | unary hk _ ih =>
    refine (Moves.advance fun hr => ?_).trans ih
    rcases hk with hk | hk
    · exact hr.starts hk
    · simp [hk]
  | unaryMissing _ => exact Moves.report _ _
  | parenthesisEmpty hk => exact (Moves.report _ _).trans (Moves.advance_of_kind hk (by simp))
  | parenthesisEnd _ => exact Moves.report _ _
  | parenthesisClosed _ _ hk ih => exact ih.trans (Moves.advance_of_kind hk (by simp))
  | parenthesisOpen _ _ _ ih => exact ih.trans (Moves.report _ _)
  | block _ ih => exact ih
  | function hn hp hk _ ih =>
    exact (Moves.functionName hn).trans ((Moves.functionParameters hp).trans
      ((Moves.advance_of_kind hk (by simp)).trans ih))
  | functionOpen hn hp _ =>
    exact (Moves.functionName hn).trans ((Moves.functionParameters hp).trans (Moves.report _ _))
  | again _ ih => exact ih
  | blockClosed hk => exact Moves.advance_of_kind hk (by simp)
  | blockEnd _ => exact Moves.report _ _
  | blockNext _ _ _ _ ih ih' => exact ih.trans ih'

theorem Reads.advance_le {least : Precedence} {e : Expr} (h : Reads ctx room (.expr least) s e t) :
    s.advance.cursor ≤ t.cursor := by
  cases h with
  | exprInvalid _ hp _ => exact hp.moves.cursor
  | exprExtended _ hp _ he => exact Nat.le_trans hp.moves.cursor he.moves.cursor

theorem ReadsProgram.moves {es : List Expr} (h : ReadsProgram ctx room s es t) : Moves ctx s t := by
  induction h with
  | finish _ => exact Moves.refl ctx _
  | stray hk _ ih =>
    refine (Moves.reportAt _).trans ((Moves.advance fun _ => ?_).trans ih)
    rcases hk with hk | hk <;> simp [hk]
  | next _ _ he _ ih => exact he.moves.trans ih

theorem ReadsProgram.kind_eof {es : List Expr} (h : ReadsProgram ctx room s es t) : ctx.kind t = .eof := by
  induction h with
  | finish hk => exact hk
  | stray _ _ ih => exact ih
  | next _ _ _ _ ih => exact ih

end

/-! ### The tokens passed on the way -/

namespace Context
variable {ctx : Context} {s t u : State}

/-- The tokens between two states. -/
def passed (ctx : Context) (s t : State) : List Token :=
  (List.range' s.cursor (t.cursor - s.cursor)).map ctx.buffer.get

@[simp] theorem length_passed (ctx : Context) (s t : State) :
    (ctx.passed s t).length = t.cursor - s.cursor := by
  simp [passed]

theorem passed_eq_nil (h : t.cursor = s.cursor) : ctx.passed s t = [] := by
  simp [passed, h]

@[simp] theorem passed_self (ctx : Context) (s : State) : ctx.passed s s = [] :=
  passed_eq_nil rfl

theorem passed_trans (h : s.cursor ≤ t.cursor) (h' : t.cursor ≤ u.cursor) :
    ctx.passed s u = ctx.passed s t ++ ctx.passed t u := by
  have hsum : u.cursor - s.cursor = (t.cursor - s.cursor) + (u.cursor - t.cursor) := by omega
  have hmid : s.cursor + 1 * (t.cursor - s.cursor) = t.cursor := by omega
  rw [passed, passed, passed, ← List.map_append, hsum, ← List.range'_append, hmid]

@[simp] theorem passed_advance (ctx : Context) (s : State) : ctx.passed s s.advance = [ctx.current s] := by
  simp [passed, current]

theorem passed_eq_cons (h : s.advance.cursor ≤ t.cursor) :
    ctx.passed s t = ctx.current s :: ctx.passed s.advance t := by
  rw [passed_trans (t := s.advance) (Nat.le_succ _) h, passed_advance, List.singleton_append]

/-- From the first token to the end all tokens of the buffer are passed. -/
theorem passed_all (hs : s.cursor = 0) (ht : t.cursor = ctx.buffer.size) :
    ctx.passed s t = ctx.buffer.tokens.toList := by
  refine List.ext_getElem (by simp [hs, ht, TokenBuffer.size]) fun i hi hi' => ?_
  have hlt : i < ctx.buffer.tokens.size := by simpa using hi'
  simp [passed, hs, TokenBuffer.get, Array.getD, hlt]

end Context

theorem TokenBuffer.get_mem {buffer : TokenBuffer} {index : Nat} (h : index < buffer.size) :
    buffer.get index ∈ buffer.tokens := by
  have hlt : index < buffer.tokens.size := h
  simp [get, Array.getD, hlt]

/-- A program ends at the end of the buffer if no end of the input stands before. -/
theorem ReadsProgram.cursor_eq {ctx : Context} {room : Nat} {s t : State} {es : List Expr}
    (h : ReadsProgram ctx room s es t) (hr : ctx.rules.EndsAtEof)
    (hk : ∀ token ∈ ctx.buffer.tokens, token.kind ≠ .eof) (hs : s.cursor ≤ ctx.buffer.size) :
    t.cursor = ctx.buffer.size := by
  rcases Nat.lt_trichotomy t.cursor ctx.buffer.size with hlt | heq | hgt
  · exact absurd h.kind_eof (hk _ (TokenBuffer.get_mem hlt))
  · exact heq
  · have hend := h.moves.before hr _ hs hgt
    rw [TokenBuffer.get_of_size_le (Nat.le_refl _)] at hend
    exact absurd ctx.buffer.ending_kind hend

/-- From `s` to `t` nothing is reported and no invalid token is passed. -/
structure Quiet (ctx : Context) (s t : State) : Prop where
  silent : t.diagnostics = s.diagnostics
  valid : ∀ token ∈ ctx.passed s t, token.kind ≠ .invalid

namespace Quiet
variable {ctx : Context} {s t u : State}

theorem iff_trans (h : Moves ctx s t) (h' : Moves ctx t u) : Quiet ctx s u ↔ Quiet ctx s t ∧ Quiet ctx t u := by
  constructor
  · rintro ⟨hd, hv⟩
    obtain ⟨hst, htu⟩ := (h.silent_iff h').mp hd
    rw [Context.passed_trans h.cursor h'.cursor, List.forall_mem_append] at hv
    exact ⟨⟨hst, hv.1⟩, ⟨htu, hv.2⟩⟩
  · rintro ⟨⟨hst, hv⟩, ⟨htu, hv'⟩⟩
    refine ⟨(h.silent_iff h').mpr ⟨hst, htu⟩, ?_⟩
    rw [Context.passed_trans h.cursor h'.cursor, List.forall_mem_append]
    exact ⟨hv, hv'⟩

/-- A way on which something is reported is not quiet. -/
theorem not_report {kind : DiagnosticKind} {span : Span} : ¬Quiet ctx s (s.report kind span) := by
  rintro ⟨hd, -⟩
  exact (Moves.refl ctx s).report_ne kind span hd

theorem not_unexpected {token : Token} (hk : token.kind ≠ .invalid) :
    ¬Quiet ctx s (ExprReader.unexpected token s).2 := by
  unfold ExprReader.unexpected
  rw [if_neg hk]
  exact not_report

/-- A quiet way starts with a token that is not invalid. -/
theorem tail (h : Quiet ctx s t) (hle : s.advance.cursor ≤ t.cursor) :
    (ctx.current s).kind ≠ .invalid ∧ Quiet ctx s.advance t := by
  have hv := h.valid
  rw [Context.passed_eq_cons hle, List.forall_mem_cons] at hv
  exact ⟨hv.1, h.silent, hv.2⟩

end Quiet

/-- A closing delimiter that closes nothing is always reported. -/
theorem ReadsProgram.not_quiet_of_stray {ctx : Context} {room : Nat} {s t : State} {es : List Expr}
    (hk : ctx.kind s = .closeParen ∨ ctx.kind s = .closeCurly)
    (h : ReadsProgram ctx room (ctx.reportAt .endExpected s).advance es t) : ¬Quiet ctx s t := by
  intro hq
  have hmoves : Moves ctx (ctx.reportAt .endExpected s) t :=
    (Moves.advance fun _ => by rcases hk with hk | hk <;> simp [hk]).trans h.moves
  exact hmoves.silent_ne_of_report hq.silent

end ExprReader
