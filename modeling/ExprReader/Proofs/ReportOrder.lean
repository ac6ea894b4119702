import ExprReader.Proofs.Spans

/-! # The order of reports

The scanner reports tokens, and each of them starts behind the one before. A parser reports about the token that it
has just read, about the next one, or about the place right behind the token read last. What it has reported never
starts behind the next token (`Context.UpToNext`), and inside the header of a function, where the place behind the
last token is reported, not even behind that one (`Context.UpToLast`). So every report starts no earlier than the ones
before it. -/

namespace ExprReader

/-! ### Tokens in order -/

/-- Each token of a buffer stops before the one after it starts, and the end of the input covers nothing. -/
def TokenBuffer.InOrder (buffer : TokenBuffer) : Prop :=
  ∀ index, (buffer.get index).Before (buffer.get (index + 1))

theorem TokenBuffer.get_eq_getElem {buffer : TokenBuffer} {index : Nat} (h : index < buffer.toList.length) :
    buffer.get index = buffer.toList[index] := by
  rw [get_eq_getD]
  simp only [toList, List.length_append, List.length_singleton] at h
  rcases Nat.lt_or_eq_of_le (Nat.le_of_lt_succ h) with hlt | rfl
  · simp [toList, List.getElem_append_left hlt, List.getElem?_eq_getElem hlt]
  · simp [toList]

theorem scan_inOrder (source : String) : (scan source).1.InOrder := by
  intro index
  rcases Nat.lt_or_ge index (scan source).1.size with hlt | hge
  · have hlength : (scan source).1.toList.length = (scan source).1.size + 1 := by
      simp [TokenBuffer.toList, TokenBuffer.size]
    rw [TokenBuffer.get_eq_getElem (by omega), TokenBuffer.get_eq_getElem (by omega)]
    exact List.pairwise_iff_getElem.mp (scan_ordered source) _ _ _ _ (Nat.lt_succ_self index)
  · rw [TokenBuffer.get_of_size_le hge, TokenBuffer.get_of_size_le (Nat.le_succ_of_le hge)]
    exact Nat.le_of_eq ((scan_ending_stop source).trans (scan_ending_start source).symm)

/-- Of tokens in order no two cover the same bytes. -/
theorem Token.eq_of_span_eq {tokens : List Token} (h : tokens.Pairwise Token.Before) {token other : Token}
    (hm : token ∈ tokens) (hm' : other ∈ tokens) (hspan : token.span = other.span)
    (hcovers : token.start < token.stop) : token = other := by
  have hstart : token.start = other.start := congrArg Span.start hspan
  have hstop : token.stop = other.stop := congrArg Span.stop hspan
  obtain ⟨front, back, rfl⟩ := List.append_of_mem hm
  obtain ⟨-, hback, hfront⟩ := List.pairwise_append.mp h
  rcases List.mem_append.mp hm' with hm' | hm'
  · have hbefore : other.stop ≤ token.start := hfront other hm' token (List.mem_cons_self ..)
    omega
  · rcases List.mem_cons.mp hm' with rfl | hm'
    · rfl
    · have hbefore : token.stop ≤ other.start := (List.pairwise_cons.mp hback).1 other hm'
      omega

/-! ### Reports in order -/

/-- Reports in the order of their places, none of which starts behind an offset. Those about a missing expression are
about tokens of a buffer that are not invalid ones. -/
structure Orderly (buffer : TokenBuffer) (reports : Array Diagnostic) (offset : Nat) : Prop where
  sorted : reports.toList.Pairwise fun d e => d.span.start ≤ e.span.start
  upTo : ∀ d ∈ reports, d.span.start ≤ offset
  expected : ∀ d ∈ reports, d.kind = .expressionExpected →
    ∃ index, (buffer.get index).kind ≠ .invalid ∧ d.span = (buffer.get index).span

namespace Orderly
variable {buffer : TokenBuffer} {reports : Array Diagnostic} {offset : Nat}

theorem empty (buffer : TokenBuffer) (offset : Nat) : Orderly buffer #[] offset :=
  ⟨.nil, by simp, by simp⟩

theorem mono (h : Orderly buffer reports offset) {later : Nat} (hle : offset ≤ later) :
    Orderly buffer reports later where
  sorted := h.sorted
  upTo d hd := Nat.le_trans (h.upTo d hd) hle
  expected := h.expected

theorem push (h : Orderly buffer reports offset) {d : Diagnostic} (hle : offset ≤ d.span.start)
    (hd : d.kind = .expressionExpected → ∃ index, (buffer.get index).kind ≠ .invalid ∧
      d.span = (buffer.get index).span) : Orderly buffer (reports.push d) d.span.start where
  sorted := by
    rw [Array.toList_push, List.pairwise_append]
    refine ⟨h.sorted, List.pairwise_singleton .., fun earlier hm later hlater => ?_⟩
    rw [List.mem_singleton.mp hlater]
    exact Nat.le_trans (h.upTo earlier (Array.mem_toList_iff.mp hm)) hle
  upTo earlier hm := by
    rcases Array.mem_push.mp hm with hm | rfl
    · exact Nat.le_trans (h.upTo earlier hm) hle
    · exact Nat.le_refl _
  expected earlier hm := by
    rcases Array.mem_push.mp hm with hm | rfl
    · exact h.expected earlier hm
    · exact hd

end Orderly

/-- What was reported is in order, and nothing of it starts behind the next token. -/
def Context.UpToNext (ctx : Context) (s : State) : Prop :=
  Orderly ctx.buffer s.diagnostics (ctx.current s).start

/-- A token was read, what was reported is in order, and nothing of it starts behind that token. -/
structure Context.UpToLast (ctx : Context) (s : State) : Prop where
  started : 0 < s.cursor
  orderly : Orderly ctx.buffer s.diagnostics (ctx.previous s).stop

namespace Context
variable {ctx : Context} {s t : State}

theorem UpToNext.read (h : ctx.UpToNext s) : ctx.UpToLast s.advance :=
  ⟨Nat.succ_pos _, h.mono (ctx.current s).start_le_stop⟩

/-- A report about the next token. -/
theorem UpToNext.reportAt (h : ctx.UpToNext s) {kind : DiagnosticKind}
    (hkind : kind = .expressionExpected → ctx.kind s ≠ .invalid) : ctx.UpToNext (ctx.reportAt kind s) :=
  Orderly.push h (Nat.le_refl _) fun hexpected => ⟨s.cursor, hkind hexpected, rfl⟩

/-- A report right behind the token read last. -/
theorem UpToLast.reportAfter (h : ctx.UpToLast s) {kind : DiagnosticKind} (hkind : kind ≠ .expressionExpected) :
    ctx.UpToLast (ctx.reportAfter kind s) :=
  ⟨h.started, h.orderly.push (Nat.le_refl _) fun hexpected => absurd hexpected hkind⟩

section
variable (hbuffer : ctx.buffer.InOrder)
include hbuffer

theorem UpToLast.next (h : ctx.UpToLast s) : ctx.UpToNext s := by
  refine h.orderly.mono ?_
  have hbefore := hbuffer (s.cursor - 1)
  rwa [Nat.sub_add_cancel h.started] at hbefore

theorem UpToNext.advance (h : ctx.UpToNext s) : ctx.UpToNext s.advance :=
  h.read.next hbuffer

theorem UpToLast.advance (h : ctx.UpToLast s) : ctx.UpToLast s.advance :=
  (h.next hbuffer).read

/-- The next token is read, and begins nothing. -/
theorem UpToNext.unexpected (h : ctx.UpToNext s) :
    ctx.UpToNext (ExprReader.unexpected (ctx.current s) s.advance).2 := by
  unfold ExprReader.unexpected
  split
  · exact h.advance hbuffer
  · rename_i hvalid
    exact UpToNext.advance hbuffer (s := ctx.reportAt .expressionExpected s) (h.reportAt fun _ => hvalid)

/-! ### The header of a function -/

namespace UpToLast

theorem skipToName (h : ctx.UpToLast s) : ctx.UpToLast (ctx.skipToName s) := by
  fun_induction ctx.skipToName s with
  | case1 s _ => exact h
  | case2 s _ _ => exact h
  | case3 s _ _ ih => exact ih ((h.next hbuffer).reportAt (by simp)).read

theorem parameter {comma : Option Token} {p : Option Parameter} (h : ctx.UpToLast s)
    (hread : ReadsParameter ctx comma s p t) : ctx.UpToLast t := by
  have found := h.skipToName hbuffer
  cases hread with
  | plain _ _ => exact found.advance hbuffer
  | typed _ _ _ => exact ((found.advance hbuffer).advance hbuffer).advance hbuffer
  | untyped _ _ _ => exact ((found.advance hbuffer).advance hbuffer).reportAfter (by simp)
  | missing _ _ => exact found.reportAfter (by simp)
  | skipped _ _ => exact found

theorem others {ps : List Parameter} (h : ctx.UpToLast s) (hread : ReadsOthers ctx s ps t) : ctx.UpToLast t := by
  induction hread with
  | finish _ => exact h
  | comma _ hp _ ih => exact ih ((h.advance hbuffer).parameter hbuffer hp)
  | noComma _ _ hp _ ih => exact ih ((h.reportAfter (by simp)).parameter hbuffer hp)

theorem parameters {ps : List Parameter} (h : ctx.UpToLast s) (hread : ReadsParameters ctx s ps t) :
    ctx.UpToLast t := by
  cases hread with
  | empty _ => exact h
  | filled _ hp ho => exact (h.parameter hbuffer hp).others hbuffer ho

theorem list {opening : Token} {l : ParameterList} (h : ctx.UpToLast s) (hread : ReadsList ctx opening s l t) :
    ctx.UpToLast t := by
  cases hread with
  | closed hp _ => exact (h.parameters hbuffer hp).advance hbuffer
  | unclosed hp _ => exact (h.parameters hbuffer hp).reportAfter (by simp)

theorem functionName {name : Option Token} (h : ctx.UpToLast s) (hread : ctx.functionName s = (name, t)) :
    ctx.UpToLast t := by
  rcases functionName_cases hread with ⟨-, -, rfl⟩ | ⟨-, -, rfl⟩
  · exact h.advance hbuffer
  · exact h.reportAfter (by simp)

theorem functionParameters {l : Option ParameterList} (h : ctx.UpToLast s)
    (hread : ctx.functionParameters s = (l, t)) : ctx.UpToLast t := by
  rcases functionParameters_cases hread with ⟨-, list, -, hlist⟩ | ⟨-, -, rfl⟩
  · exact (h.advance hbuffer).list hbuffer hlist
  · exact h.reportAfter (by simp)

end UpToLast

end

end Context

/-! ### Expressions -/

/-- Before a task nothing that was reported starts behind the next token, or behind the token that the task begins
with, which was read already. -/
def Task.Ready (ctx : Context) : Task → State → Prop
  | primary token, s | construct _ token, s =>
    ∃ before : State, s = before.advance ∧ token = ctx.current before ∧ ctx.UpToNext before
  | expr _, s | extend _ _, s | operand _, s | block _ _, s => ctx.UpToNext s

section
variable {ctx : Context} {room : Nat} {s t : State}

theorem Reads.upToNext {task : Task} {e : Expr} (hbuffer : ctx.buffer.InOrder) (h : Reads ctx room task s e t)
    (hready : task.Ready ctx s) : ctx.UpToNext t := by
  induction h with
  | exprInvalid _ _ _ ih => exact ih ⟨_, rfl, rfl, hready⟩
  | exprExtended _ _ _ _ ih ih' => exact ih' (ih ⟨_, rfl, rfl, hready⟩)
  | primaryDeepest =>
    obtain ⟨before, rfl, rfl, hbefore⟩ := hready
    exact hbefore.unexpected hbuffer
  | primaryUnknown _ =>
    obtain ⟨before, rfl, rfl, hbefore⟩ := hready
    exact hbefore.unexpected hbuffer
  | primaryKnown _ _ ih => exact ih hready
  | extendStop _ => exact hready
  | extendOperator _ _ _ ih ih' => exact ih' (ih (hready.advance hbuffer))
  | operandEnd hk => exact hready.reportAt fun _ => by simp [hk]
  | operandDeepest _ => exact hready.unexpected hbuffer
  | operandExpr _ _ ih => exact ih hready
  | literal =>
    obtain ⟨before, rfl, rfl, hbefore⟩ := hready
    exact hbefore.advance hbuffer
  | identifier =>
    obtain ⟨before, rfl, rfl, hbefore⟩ := hready
    exact hbefore.advance hbuffer
  | unary _ _ ih =>
    obtain ⟨before, rfl, rfl, hbefore⟩ := hready
    exact ih ⟨_, rfl, rfl, hbefore.advance hbuffer⟩
  | unaryMissing hk =>
    obtain ⟨before, rfl, rfl, hbefore⟩ := hready
    exact (hbefore.advance hbuffer).reportAt fun _ hinvalid => hk (Or.inr hinvalid)
  | parenthesisEmpty hk =>
    obtain ⟨before, rfl, rfl, hbefore⟩ := hready
    exact ((hbefore.advance hbuffer).reportAt fun _ => by simp [hk]).advance hbuffer
  | parenthesisEnd _ =>
    obtain ⟨before, rfl, rfl, hbefore⟩ := hready
    exact (hbefore.advance hbuffer).reportAt (by simp)
  | parenthesisClosed _ _ _ ih =>
    obtain ⟨before, rfl, rfl, hbefore⟩ := hready
    exact (ih (hbefore.advance hbuffer)).advance hbuffer
  | parenthesisOpen _ _ _ ih =>
    obtain ⟨before, rfl, rfl, hbefore⟩ := hready
    exact (ih (hbefore.advance hbuffer)).reportAt (by simp)
  | block _ ih =>
    obtain ⟨before, rfl, rfl, hbefore⟩ := hready
    exact ih (hbefore.advance hbuffer)
  | function hn hp _ _ ih =>
    obtain ⟨before, rfl, rfl, hbefore⟩ := hready
    have header := (hbefore.read.functionName hbuffer hn).functionParameters hbuffer hp
    exact ih ((header.next hbuffer).advance hbuffer)
  | functionOpen hn hp _ =>
    obtain ⟨before, rfl, rfl, hbefore⟩ := hready
    have header := (hbefore.read.functionName hbuffer hn).functionParameters hbuffer hp
    exact (header.reportAfter (by simp)).next hbuffer
  | again _ ih => exact ih hready
  | blockClosed _ => exact hready.advance hbuffer
  | blockEnd _ => exact hready.reportAt (by simp)
  | blockNext _ _ _ _ ih ih' => exact ih' (ih hready)

theorem ReadsProgram.upToNext {es : List Expr} (hbuffer : ctx.buffer.InOrder) (h : ReadsProgram ctx room s es t)
    (hstart : ctx.UpToNext s) : ctx.UpToNext t := by
  induction h with
  | finish _ => exact hstart
  | stray _ _ ih => exact ih ((hstart.reportAt (by simp)).advance hbuffer)
  | next _ _ he _ ih => exact ih (he.upToNext hbuffer hstart)

end

/-! ### Sources -/

/-- The scanner reports each token behind the one before. -/
theorem scan_reports_sorted (source : String) :
    (scan source).2.toList.Pairwise fun d e => d.span.start < e.span.start := by
  obtain ⟨hcovers, hpairs⟩ := (scan_eq_iff.mp (rfl : _ = (scan source).1.tokens.toList)).ordered
  rw [scan_reports, Scanner.reportsFor, List.pairwise_map]
  refine List.Pairwise.imp_of_mem ?_ (hpairs.sublist List.filter_sublist)
  intro first second hm _ hbefore
  exact Nat.lt_of_lt_of_le (hcovers first (List.mem_filter.mp hm).1).2 hbefore

/-- No other token of a source covers what an invalid one does. -/
theorem scan_eq_of_invalid {source : String} {token other : Token} (hm : token ∈ (scan source).1.toList)
    (hm' : other ∈ (scan source).1.toList) (hinvalid : token.kind = .invalid) (hspan : token.span = other.span) :
    token = other := by
  refine Token.eq_of_span_eq (scan_ordered source) hm hm' hspan ?_
  rcases List.mem_append.mp hm with hm | hm
  · obtain ⟨hcovers, -⟩ := (scan_eq_iff.mp (rfl : _ = (scan source).1.tokens.toList)).ordered
    exact (hcovers token hm).2
  · rw [List.mem_singleton.mp hm, (scan source).1.ending_kind] at hinvalid
    cases hinvalid

/-- A parser that starts without reports leaves them in order. -/
theorem TokenBuffer.InOrder.parse_orderly {buffer : TokenBuffer} (h : buffer.InOrder) :
    ∃ offset, Orderly buffer (Parser.ofBuffer buffer #[]).parse.diagnostics offset := by
  obtain ⟨t, hrun, hown⟩ := (Parser.ofBuffer buffer #[]).parse_run
  rw [hown]
  exact ⟨_, hrun.upToNext h (Orderly.empty buffer _)⟩

/-- A source is read with the reports of the scanner first, each behind the one before. The parser adds what it reports
on the same tokens by itself: nothing that starts before an earlier report of its own, and nothing about a missing
expression at a token that the scanner found invalid. -/
theorem parse_reports_in_order (source : String) :
    (scan source).2.toList.Pairwise (fun d e => d.span.start < e.span.start) ∧
    let own := (Parser.ofBuffer (scan source).1 #[]).parse.diagnostics
    (parse source).diagnostics = (scan source).2 ++ own ∧
    own.toList.Pairwise (fun d e => d.span.start ≤ e.span.start) ∧
    ∀ token ∈ (scan source).1.toList, token.kind = .invalid → ⟨.expressionExpected, token.span⟩ ∉ own := by
  refine ⟨scan_reports_sorted source, ?_⟩
  intro own
  obtain ⟨offset, horderly⟩ := (scan_inOrder source).parse_orderly
  refine ⟨?_, horderly.sorted, fun token hm hinvalid hreport => ?_⟩
  · obtain ⟨new, hall, hown, -⟩ :=
      @TokenBuffer.parse_eq_of_get_eq (scan source).1 _ (fun _ _ => rfl) (scan source).2 #[]
    rw [show own = new from hown.trans (Array.empty_append)]
    exact hall
  · obtain ⟨index, hvalid, hspan⟩ := horderly.expected _ hreport rfl
    rw [← scan_eq_of_invalid hm (TokenBuffer.get_mem_toList _ index) hinvalid hspan] at hvalid
    exact hvalid hinvalid

end ExprReader
