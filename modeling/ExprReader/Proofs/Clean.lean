import ExprReader.Proofs.Kinds
import ExprReader.Proofs.Scanning

/-! # Clean trees and reports

A tree is clean when none of its parts is missing or invalid. A source is read without a report exactly
when all trees are clean and hold every token of the source.

Neither half is enough: tokens that are passed over in a list of parameters leave a clean tree behind, and
an invalid expression keeps its tokens. That nothing reported means nothing missing is an induction over
quiet runs. For the converse, each run is weighed: in a clean tree every report has cost a token, so a tree
that has all of its tokens comes with no report. -/

namespace ExprReader

/-! ### Clean trees -/

/-- A type stands where a colon does. -/
def Parameter.Complete (p : Parameter) : Prop :=
  p.typeName.isSome = p.colon.isSome

/-- A list that is closed, with a comma before each parameter but the first. -/
structure ParameterList.Complete (l : ParameterList) : Prop where
  closing : l.closing.isSome = true
  each : ∀ p ∈ l.parameters, p.Complete
  first : ∀ p ∈ l.parameters.head?, p.comma = none
  others : ∀ p ∈ l.parameters.tail, p.comma.isSome = true

namespace Expr

/-- An expression that misses none of its own parts. -/
def Complete : Expr → Prop
  | .literal _ | .identifier _ | .binary _ _ _ => True
  | .unary _ operand => operand.isSome = true
  | .parenthesis _ inner closing => inner.isSome = true ∧ closing.isSome = true
  | .block body => body.closing.isSome = true
  | .function _ name parameters body => name.isSome = true ∧ (∃ l ∈ parameters, l.Complete) ∧
      ∃ b ∈ body, b.closing.isSome = true
  | .invalidToken _ | .invalidExpr _ => False

/-- A tree in which nothing is missing or invalid. -/
def Clean (e : Expr) : Prop :=
  e.Everywhere Complete

theorem Clean.complete {e : Expr} (h : e.Clean) : e.Complete :=
  Everywhere.self h

end Expr

open Expr

/-- What a task started from is clean. -/
def Task.Clean : Task → Prop
  | extend _ left => left.Clean
  | block _ done => ∀ d ∈ done, d.Clean
  | _ => True

/-- The token that a task is to read a construct from. -/
def Task.token? : Task → Option Token
  | primary token | construct _ token => some token
  | _ => none

/-- The tokens that a task started from. -/
def Task.given : Task → List Token
  | expr _ | operand _ => []
  | primary token | construct _ token => [token]
  | extend _ left => left.leaves
  | block opening done => opening :: done.flatMap leaves

/-! ### Quiet runs give clean trees -/

section Header
variable {ctx : Context} {s t : State}

/-- Every token that is passed over is reported. -/
theorem skipToName_reports (ctx : Context) (s : State) :
    (ctx.skipToName s).diagnostics.size + s.cursor = s.diagnostics.size + (ctx.skipToName s).cursor := by
  fun_induction ctx.skipToName s with
  | case1 s _ => rfl
  | case2 s _ _ => rfl
  | case3 s _ _ ih =>
    simp only [State.advance_cursor, State.advance_diagnostics, Context.reportAt, State.report_cursor,
      State.report_diagnostics, Array.size_push] at ih ⊢
    omega

theorem skipToName_of_cursor (h : (ctx.skipToName s).cursor = s.cursor) : ctx.skipToName s = s := by
  fun_cases ctx.skipToName s with
  | case1 _ => rfl
  | case2 _ _ => rfl
  | case3 hname hends =>
    exfalso
    rw [Context.skipToName, if_neg hname, if_neg hends] at h
    have := ctx.skipToName_le (ctx.reportAt .parameterExpected s).advance
    simp only [State.advance_cursor, Context.reportAt_cursor] at this
    omega

theorem ReadsParameter.quiet {comma : Option Token} {p : Option Parameter} (h : ReadsParameter ctx comma s p t)
    (hq : t.diagnostics = s.diagnostics) :
    ∃ q, p = some q ∧ q.Complete ∧ q.comma = comma ∧ q.leaves = comma.toList ++ ctx.passed s t := by
  have hreports := skipToName_reports ctx s
  have hsize : t.diagnostics.size = s.diagnostics.size := by rw [hq]
  cases h with
  | plain hname hcolon =>
    rw [State.advance_diagnostics] at hsize
    have hsame : ctx.skipToName s = s := skipToName_of_cursor (by omega)
    rw [hsame]
    exact ⟨_, rfl, rfl, rfl, by simp [Parameter.leaves]⟩
  | typed hname hcolon htype =>
    simp only [State.advance_diagnostics] at hsize
    have hsame : ctx.skipToName s = s := skipToName_of_cursor (by omega)
    rw [hsame]
    refine ⟨_, rfl, rfl, rfl, ?_⟩
    rw [Context.passed_eq_cons (by simp), Context.passed_eq_cons (by simp), Context.passed_advance]
    rfl
  | untyped hname hcolon htype => exact absurd hq ((Moves.skipToName ctx s).report_ne _ _)
  | missing hname hsame => exact absurd hq ((Moves.skipToName ctx s).report_ne _ _)
  | skipped hname hmoved => omega

theorem ReadsOthers.quiet {ps : List Parameter} (h : ReadsOthers ctx s ps t) (hq : t.diagnostics = s.diagnostics) :
    (∀ p ∈ ps, p.Complete ∧ p.comma.isSome = true) ∧ ps.flatMap Parameter.leaves = ctx.passed s t := by
  induction h with
  | finish _ => simp
  | comma hk hp ho ih =>
    obtain ⟨hfirst, hrest⟩ := ((Moves.parameter hp).silent_iff (Moves.others ho)).mp hq
    obtain ⟨q, rfl, hcomplete, hcomma, hleaves⟩ := hp.quiet hfirst
    obtain ⟨heach, hothers⟩ := ih hrest
    refine ⟨List.forall_mem_cons.mpr ⟨⟨hcomplete, by rw [hcomma]; rfl⟩, heach⟩, ?_⟩
    have hle := (Moves.parameter hp).cursor
    rw [Context.passed_eq_cons (Nat.le_trans hle (Moves.others ho).cursor),
      Context.passed_trans hle (Moves.others ho).cursor, ← hothers]
    simp [hleaves]
  | noComma _ _ hp ho _ =>
    exact absurd hq ((Moves.parameter hp).trans (Moves.others ho)).silent_ne_of_report

theorem ReadsParameters.quiet {ps : List Parameter} (h : ReadsParameters ctx s ps t)
    (hq : t.diagnostics = s.diagnostics) :
    (∀ p ∈ ps, p.Complete) ∧ (∀ p ∈ ps.head?, p.comma = none) ∧ (∀ p ∈ ps.tail, p.comma.isSome = true) ∧
      ps.flatMap Parameter.leaves = ctx.passed s t := by
  cases h with
  | empty _ => simp
  | filled _ hp ho =>
    obtain ⟨hfirst, hrest⟩ := ((Moves.parameter hp).silent_iff (Moves.others ho)).mp hq
    obtain ⟨q, rfl, hcomplete, hcomma, hleaves⟩ := hp.quiet hfirst
    obtain ⟨heach, hothers⟩ := ho.quiet hrest
    refine ⟨List.forall_mem_cons.mpr ⟨hcomplete, fun p hm => (heach p hm).1⟩, ?_, fun p hm => (heach p hm).2, ?_⟩
    · intro p hm
      cases hm
      exact hcomma
    · rw [Context.passed_trans (Moves.parameter hp).cursor (Moves.others ho).cursor, ← hothers]
      simp [hleaves]

theorem ReadsList.quiet {opening : Token} {l : ParameterList} (h : ReadsList ctx opening s l t)
    (hq : t.diagnostics = s.diagnostics) : l.Complete ∧ l.leaves = opening :: ctx.passed s t := by
  cases h with
  | closed hp hk =>
    obtain ⟨heach, hfirst, hothers, hleaves⟩ := hp.quiet hq
    refine ⟨⟨rfl, heach, hfirst, hothers⟩, ?_⟩
    rw [Context.passed_trans (Moves.parameters hp).cursor (Nat.le_succ _), ← hleaves]
    simp [ParameterList.leaves]
  | unclosed hp _ => exact absurd hq ((Moves.parameters hp).report_ne _ _)

theorem functionName_quiet {name : Option Token} (h : ctx.functionName s = (name, t))
    (hq : t.diagnostics = s.diagnostics) : name = some (ctx.current s) ∧ t = s.advance := by
  rcases functionName_cases h with ⟨-, hname, ht⟩ | ⟨-, -, rfl⟩
  · exact ⟨hname, ht⟩
  · exact absurd hq ((Moves.refl ctx s).report_ne _ _)

theorem functionParameters_quiet {l : Option ParameterList} (h : ctx.functionParameters s = (l, t))
    (hq : t.diagnostics = s.diagnostics) :
    ∃ list, l = some list ∧ list.Complete ∧ list.leaves = ctx.passed s t := by
  rcases functionParameters_cases h with ⟨-, list, hl, hread⟩ | ⟨-, -, rfl⟩
  · obtain ⟨hcomplete, hleaves⟩ := hread.quiet hq
    exact ⟨list, hl, hcomplete, by rw [hleaves, Context.passed_eq_cons (Moves.list hread).cursor]⟩
  · exact absurd hq ((Moves.refl ctx s).report_ne _ _)

end Header

section
variable {ctx : Context} {room : Nat} {s t : State}

/-- The tokens of a quiet run are all in its tree, which is clean. -/
theorem Reads.quiet {task : Task} {e : Expr} (h : Reads ctx room task s e t) (hq : Quiet ctx s t)
    (hv : ∀ token ∈ task.token?, token.kind ≠ .invalid) (hc : task.Clean) :
    e.Clean ∧ e.leaves = task.given ++ ctx.passed s t := by
  induction h with
  | exprInvalid _ hp _ ih =>
    obtain ⟨hk, hq'⟩ := hq.tail hp.moves.cursor
    obtain ⟨hclean, hleaves⟩ := ih hq' (by simpa [Task.token?] using hk) trivial
    refine ⟨hclean, ?_⟩
    rw [hleaves, Context.passed_eq_cons hp.moves.cursor]
    rfl
  | exprExtended _ hp _ he ih ih' =>
    have hle := hp.moves.cursor
    have hle' := he.moves.cursor
    obtain ⟨hk, hq'⟩ := hq.tail (Nat.le_trans hle hle')
    obtain ⟨hq₁, hq₂⟩ := (Quiet.iff_trans hp.moves he.moves).mp hq'
    obtain ⟨hclean, hleaves⟩ := ih hq₁ (by simpa [Task.token?] using hk) trivial
    obtain ⟨hclean', hleaves'⟩ := ih' hq₂ (by simp [Task.token?]) hclean
    refine ⟨hclean', ?_⟩
    rw [hleaves', Context.passed_eq_cons (Nat.le_trans hle hle'), Context.passed_trans hle hle']
    simp [Task.given, hleaves]
  | primaryDeepest => exact absurd hq (Quiet.not_unexpected (hv _ rfl))
  | primaryUnknown _ => exact absurd hq (Quiet.not_unexpected (hv _ rfl))
  | primaryKnown _ _ ih => exact ih hq hv trivial
  | extendStop _ => exact ⟨hc, by simp [Task.given]⟩
  | extendOperator _ hr he ih ih' =>
    have hle := hr.moves.cursor
    have hle' := he.moves.cursor
    obtain ⟨-, hq'⟩ := hq.tail (Nat.le_trans hle hle')
    obtain ⟨hq₁, hq₂⟩ := (Quiet.iff_trans hr.moves he.moves).mp hq'
    obtain ⟨hclean, hleaves⟩ := ih hq₁ (by simp [Task.token?]) trivial
    obtain ⟨hclean', hleaves'⟩ := ih' hq₂ (by simp [Task.token?]) (everywhere_binary.mpr ⟨trivial, hc, hclean⟩)
    refine ⟨hclean', ?_⟩
    rw [hleaves', Context.passed_eq_cons (Nat.le_trans hle hle'), Context.passed_trans hle hle']
    simp [Task.given, hleaves]
  | operandEnd _ => exact absurd hq Quiet.not_report
  | operandDeepest _ =>
    obtain ⟨hk, hq'⟩ := hq.tail (Nat.le_of_eq (unexpected_cursor _ _).symm)
    exact absurd hq' (Quiet.not_unexpected hk)
  | operandExpr _ _ ih => exact ih hq (by simp [Task.token?]) trivial
  | literal => exact ⟨by simp [Expr.Clean, Complete], by simp [Task.given]⟩
  | identifier => exact ⟨by simp [Expr.Clean, Complete], by simp [Task.given]⟩
  | unary _ hp ih =>
    have hle := hp.moves.cursor
    obtain ⟨hk, hq'⟩ := hq.tail hle
    obtain ⟨hclean, hleaves⟩ := ih hq' (by simpa [Task.token?] using hk) trivial
    refine ⟨everywhere_unary.mpr ⟨rfl, fun e he => by cases he; exact hclean⟩, ?_⟩
    rw [Context.passed_eq_cons hle]
    simp [hleaves, Task.given]
  | unaryMissing _ => exact absurd hq Quiet.not_report
  | @parenthesisEmpty _ _ s hk =>
    have hmoves : Moves ctx (ctx.reportAt .expressionExpected s) _ := Moves.advance_of_kind hk (by simp)
    exact absurd hq.silent hmoves.silent_ne_of_report
  | parenthesisEnd _ => exact absurd hq Quiet.not_report
  | parenthesisClosed _ he hk ih =>
    obtain ⟨hq', -⟩ := (Quiet.iff_trans he.moves (Moves.advance_of_kind hk (by simp))).mp hq
    obtain ⟨hclean, hleaves⟩ := ih hq' (by simp [Task.token?]) trivial
    refine ⟨everywhere_parenthesis.mpr ⟨⟨rfl, rfl⟩, fun e he => by cases he; exact hclean⟩, ?_⟩
    rw [Context.passed_trans he.moves.cursor (Nat.le_succ _)]
    simp [hleaves, Task.given]
  | parenthesisOpen _ he _ _ => exact absurd hq.silent (he.moves.report_ne _ _)
  | block _ ih => exact ih hq (by simp [Task.token?]) (by simp [Task.Clean])
  | function hn hp hk hb ih =>
    have hparams := Moves.functionParameters hp
    have hbrace := Moves.advance_of_kind hk (by simp)
    obtain ⟨hq₁, hq'⟩ := (Quiet.iff_trans (Moves.functionName hn) (hparams.trans (hbrace.trans hb.moves))).mp hq
    obtain ⟨hq₂, hq'⟩ := (Quiet.iff_trans hparams (hbrace.trans hb.moves)).mp hq'
    obtain ⟨-, hq₃⟩ := hq'.tail hb.moves.cursor
    obtain ⟨rfl, rfl⟩ := functionName_quiet hn hq₁.silent
    obtain ⟨l, rfl, hcomplete, hlist⟩ := functionParameters_quiet hp hq₂.silent
    obtain ⟨hclean, hleaves⟩ := ih hq₃ (by simp [Task.token?]) (by simp [Task.Clean])
    obtain ⟨hclosing, hinside⟩ := everywhere_block.mp hclean
    refine ⟨everywhere_function.mpr ⟨⟨rfl, ⟨l, rfl, hcomplete⟩, ⟨_, rfl, hclosing⟩⟩, by simpa using hinside⟩, ?_⟩
    have hle := (hbrace.trans hb.moves).cursor
    rw [Context.passed_eq_cons (Nat.le_trans hparams.cursor hle), Context.passed_trans hparams.cursor hle,
      Context.passed_eq_cons hb.moves.cursor]
    simp only [leaves_function, Option.toList_some, List.flatMap_singleton, hlist, hleaves, Task.given,
      List.flatMap_nil, List.cons_append, List.nil_append]
  | functionOpen hn hp _ =>
    exact absurd hq.silent (((Moves.functionName hn).trans (Moves.functionParameters hp)).report_ne _ _)
  | again _ ih => exact ih hq hv trivial
  | blockClosed hk => exact ⟨everywhere_block.mpr ⟨rfl, hc⟩, by simp [Task.given]⟩
  | blockEnd _ => exact absurd hq Quiet.not_report
  | @blockNext _ _ done _ e _ _ _ _ _ he hb ih ih' =>
    obtain ⟨hq₁, hq₂⟩ := (Quiet.iff_trans he.moves hb.moves).mp hq
    obtain ⟨hclean, hleaves⟩ := ih hq₁ (by simp [Task.token?]) trivial
    have hdone : ∀ d ∈ done ++ [e], d.Clean :=
      List.forall_mem_append.mpr ⟨hc, fun d hm => by rw [List.mem_singleton.mp hm]; exact hclean⟩
    obtain ⟨hclean', hleaves'⟩ := ih' hq₂ (by simp [Task.token?]) hdone
    refine ⟨hclean', ?_⟩
    rw [hleaves', Context.passed_trans he.moves.cursor hb.moves.cursor]
    simp [Task.given, hleaves]

theorem ReadsProgram.quiet {es : List Expr} (h : ReadsProgram ctx room s es t) (hq : Quiet ctx s t) :
    (∀ e ∈ es, e.Clean) ∧ es.flatMap leaves = ctx.passed s t := by
  induction h with
  | finish _ => simp
  | stray hk hrest _ => exact absurd hq (hrest.not_quiet_of_stray hk)
  | next _ _ he hrest ih =>
    obtain ⟨hq₁, hq₂⟩ := (Quiet.iff_trans he.moves hrest.moves).mp hq
    obtain ⟨hclean, hleaves⟩ := he.quiet hq₁ (by simp [Task.token?]) trivial
    obtain ⟨hcleans, hothers⟩ := ih hq₂
    refine ⟨List.forall_mem_cons.mpr ⟨hclean, hcleans⟩, ?_⟩
    rw [Context.passed_trans he.moves.cursor hrest.moves.cursor, ← hothers]
    simp [hleaves, Task.given]

end

/-! ### In a clean tree every report has cost a token

A report in a clean tree comes from a list of parameters, where it goes with a token that was passed over or
with a comma that no parameter follows. One lost token accounts for two reports at most: the comma missing
before it, and the token itself. -/

section Cost
variable {ctx : Context} {room : Nat} {s t : State}

theorem ReadsParameter.cost {comma : Option Token} {p : Parameter} (h : ReadsParameter ctx comma s (some p) t)
    (hc : p.Complete) :
    p.leaves.length + t.diagnostics.size + s.cursor = comma.toList.length + t.cursor + s.diagnostics.size := by
  have hreports := skipToName_reports ctx s
  cases h with
  | plain _ _ =>
    simp only [Parameter.leaves, List.length_append, List.length_cons, Option.toList_none, List.length_nil,
      State.advance_diagnostics, State.advance_cursor]
    omega
  | typed _ _ _ =>
    simp only [Parameter.leaves, List.length_append, List.length_cons, Option.toList_some, List.length_nil,
      State.advance_diagnostics, State.advance_cursor]
    omega
  | untyped _ _ _ => simp [Parameter.Complete] at hc

theorem ReadsParameter.cost_none {comma : Option Token} (h : ReadsParameter ctx comma s none t) :
    ((ctx.kind s).endsParameters = true ∧ t.cursor = s.cursor ∧ t.diagnostics.size = s.diagnostics.size + 1) ∨
      (s.cursor < t.cursor ∧ t.diagnostics.size + s.cursor = t.cursor + s.diagnostics.size) := by
  have hreports := skipToName_reports ctx s
  have hle := ctx.skipToName_le s
  cases h with
  | missing hname hsame =>
    refine Or.inl ⟨?_, hsame, ?_⟩
    · have hk := (skipToName_kind ctx s).resolve_left hname
      rwa [skipToName_of_cursor hsame] at hk
    · simp only [Context.reportAfter, State.report_diagnostics, Array.size_push]
      omega
  | skipped _ hmoved => exact Or.inr ⟨by omega, by omega⟩

theorem ReadsOthers.cost {ps : List Parameter} (h : ReadsOthers ctx s ps t)
    (hc : ∀ p ∈ ps, p.Complete ∧ p.comma.isSome = true) :
    2 * (ps.flatMap Parameter.leaves).length + t.diagnostics.size + 2 * s.cursor ≤
      2 * t.cursor + s.diagnostics.size := by
  induction h with
  | finish _ => simp [Nat.add_comm]
  | @comma s p _ _ _ _ hp _ ih =>
    rw [List.forall_mem_append] at hc
    have hrest := ih hc.2
    rw [List.flatMap_append, List.length_append]
    cases p with
    | none =>
      have hfirst := hp.cost_none
      simp only [State.advance_cursor, State.advance_diagnostics] at hfirst
      simp only [Option.toList_none, List.flatMap_nil, List.length_nil]
      omega
    | some q =>
      have hfirst := hp.cost (hc.1 q (by simp)).1
      have hmore := (Moves.parameter hp).size_le
      simp only [State.advance_cursor, State.advance_diagnostics, Option.toList_some,
        List.length_singleton] at hfirst hmore
      simp only [Option.toList_some, List.flatMap_singleton]
      omega
  | @noComma s p _ _ _ hends _ hp _ ih =>
    rw [List.forall_mem_append] at hc
    have hrest := ih hc.2
    rw [List.flatMap_append, List.length_append]
    cases p with
    | none =>
      simp only [Option.toList_none, List.flatMap_nil, List.length_nil]
      rcases hp.cost_none with ⟨hends', -⟩ | ⟨hmoved, hfirst⟩
      · rw [Context.kind_reportAfter, hends] at hends'
        cases hends'
      · simp only [Context.reportAfter, State.report_diagnostics, Array.size_push, State.report_cursor] at hmoved hfirst
        omega
    | some q =>
      have hcomma := (hc.1 q (by simp)).2
      simp [hp.comma_eq] at hcomma

theorem ReadsParameters.cost {ps : List Parameter} (h : ReadsParameters ctx s ps t) (hc : ∀ p ∈ ps, p.Complete)
    (hothers : ∀ p ∈ ps.tail, p.comma.isSome = true) :
    2 * (ps.flatMap Parameter.leaves).length + t.diagnostics.size + 2 * s.cursor ≤
      2 * t.cursor + s.diagnostics.size := by
  cases h with
  | empty _ => simp [Nat.add_comm]
  | @filled p _ _ _ hends hp ho =>
    cases p with
    | none =>
      obtain ⟨rfl, rfl⟩ := ho.of_ends hp.ends_of_none
      have hfirst := hp.cost_none
      simp only [hends, Bool.false_eq_true, false_and, false_or] at hfirst
      simp only [Option.toList_none, List.nil_append, List.flatMap_nil, List.length_nil]
      omega
    | some q =>
      have hfirst := hp.cost (hc q (by simp))
      have hmore := (Moves.parameter hp).size_le
      have hrest := ho.cost fun p hm => ⟨hc p (List.mem_append_right _ hm), hothers p hm⟩
      simp only [Option.toList_none, List.length_nil] at hfirst
      simp only [Option.toList_some, List.singleton_append, List.flatMap_cons, List.length_append]
      omega

theorem ReadsList.cost {opening : Token} {l : ParameterList} (h : ReadsList ctx opening s l t) (hc : l.Complete) :
    2 * l.leaves.length + t.diagnostics.size + 2 * s.cursor ≤ 2 + 2 * t.cursor + s.diagnostics.size := by
  cases h with
  | closed hp _ =>
    have hparams := hp.cost hc.each hc.others
    simp only [ParameterList.leaves, List.length_cons, List.length_append, Option.toList_some, List.length_nil,
      State.advance_cursor, State.advance_diagnostics]
    omega
  | unclosed _ _ =>
    have hclosing := hc.closing
    simp at hclosing

theorem functionParameters_cost {l : ParameterList} (h : ctx.functionParameters s = (some l, t)) (hc : l.Complete) :
    2 * l.leaves.length + t.diagnostics.size + 2 * s.cursor ≤ 2 * t.cursor + s.diagnostics.size := by
  rcases functionParameters_cases h with ⟨-, list, hl, hread⟩ | ⟨-, hnone, -⟩
  · cases hl
    have hlist := hread.cost hc
    simp only [State.advance_cursor, State.advance_diagnostics] at hlist
    omega
  · cases hnone

/-- What a clean tree was made from is clean, and what was reported about it is paid for by the tokens that
it does not hold. -/
theorem Reads.cost {task : Task} {e : Expr} (h : Reads ctx room task s e t) (hc : e.Clean) :
    task.Clean ∧ 2 * e.leaves.length + t.diagnostics.size + 2 * s.cursor ≤
      2 * task.given.length + 2 * t.cursor + s.diagnostics.size := by
  induction h with
  | exprInvalid _ _ _ ih =>
    have hleft := (ih hc).2
    simp only [Task.given, List.length_singleton, State.advance_cursor, State.advance_diagnostics] at hleft
    exact ⟨trivial, by simp only [Task.given, List.length_nil]; omega⟩
  | exprExtended _ _ _ _ ih ih' =>
    obtain ⟨hclean, hwhole⟩ := ih' hc
    have hleft := (ih hclean).2
    simp only [Task.given, List.length_singleton, State.advance_cursor, State.advance_diagnostics] at hleft hwhole
    exact ⟨trivial, by simp only [Task.given, List.length_nil]; omega⟩
  | primaryDeepest => exact hc.complete.elim
  | primaryUnknown _ => exact hc.complete.elim
  | primaryKnown _ _ ih => exact ⟨trivial, (ih hc).2⟩
  | extendStop _ => exact ⟨hc, by simp only [Task.given]; omega⟩
  | extendOperator _ _ _ ih ih' =>
    obtain ⟨hclean, hwhole⟩ := ih' hc
    obtain ⟨-, hleft, hright⟩ := everywhere_binary.mp hclean
    have hoperand := (ih hright).2
    simp only [Task.given, List.length_nil, State.advance_cursor, State.advance_diagnostics, leaves_binary,
      List.length_append, List.length_cons] at hoperand hwhole
    exact ⟨hleft, by simp only [Task.given]; omega⟩
  | operandEnd _ => exact hc.complete.elim
  | operandDeepest _ => exact hc.complete.elim
  | operandExpr _ _ ih => exact ⟨trivial, (ih hc).2⟩
  | literal => exact ⟨trivial, by simp only [Task.given, leaves_literal]; omega⟩
  | identifier => exact ⟨trivial, by simp only [Task.given, leaves_identifier]; omega⟩
  | unary _ _ ih =>
    have hoperand := (ih ((everywhere_unary.mp hc).2 _ rfl)).2
    simp only [Task.given, List.length_singleton, State.advance_cursor, State.advance_diagnostics] at hoperand
    refine ⟨trivial, ?_⟩
    simp only [Task.given, leaves_unary, Option.toList_some, List.flatMap_singleton, List.length_cons, List.length_nil]
    omega
  | unaryMissing _ => simp [Expr.Clean, Complete] at hc
  | parenthesisEmpty _ => simp [Expr.Clean, Complete] at hc
  | parenthesisEnd _ => exact hc.complete.elim
  | parenthesisClosed _ _ _ ih =>
    have hinner := (ih ((everywhere_parenthesis.mp hc).2 _ rfl)).2
    simp only [Task.given, List.length_nil] at hinner
    refine ⟨trivial, ?_⟩
    simp only [Task.given, leaves_parenthesis, Option.toList_some, List.flatMap_singleton, List.length_cons,
      List.length_append, List.length_nil, State.advance_cursor, State.advance_diagnostics]
    omega
  | parenthesisOpen _ _ _ _ => exact hc.complete.elim
  | block _ ih => exact ⟨trivial, (ih hc).2⟩
  | @function _ _ _ name _ parameters _ body _ hn hp _ _ ih =>
    obtain ⟨⟨hname, ⟨l, hl, hcomplete⟩, ⟨b, hb, hclosing⟩⟩, hinside⟩ := everywhere_function.mp hc
    cases hl
    cases hb
    obtain ⟨token, rfl⟩ := Option.isSome_iff_exists.mp hname
    have hbody := (ih (everywhere_block.mpr ⟨hclosing, hinside _ rfl⟩)).2
    have hlist := functionParameters_cost hp hcomplete
    rcases functionName_cases hn with ⟨-, -, rfl⟩ | ⟨-, hnone, -⟩
    · refine ⟨trivial, ?_⟩
      simp only [Task.given, List.flatMap_nil, List.length_singleton, State.advance_cursor,
        State.advance_diagnostics] at hbody hlist ⊢
      simp only [leaves_function, Option.toList_some, List.flatMap_singleton, List.length_cons, List.length_append,
        List.length_nil]
      omega
    · cases hnone
  | functionOpen _ _ _ => simp [Expr.Clean, Complete] at hc
  | again _ ih => exact ⟨trivial, (ih hc).2⟩
  | blockClosed _ =>
    refine ⟨(everywhere_block.mp hc).2, ?_⟩
    simp only [Task.given, leaves_block, Option.toList_some, List.length_cons, List.length_append, List.length_nil,
      State.advance_cursor, State.advance_diagnostics]
    omega
  | blockEnd _ => simp [Expr.Clean, Complete] at hc
  | blockNext _ _ _ _ ih ih' =>
    obtain ⟨hdone, hwhole⟩ := ih' hc
    have hnext := (ih (hdone _ (by simp))).2
    refine ⟨fun d hm => hdone d (List.mem_append_left _ hm), ?_⟩
    simp only [Task.given, List.length_nil, List.length_cons, List.flatMap_append, List.flatMap_singleton,
      List.length_append] at hnext hwhole ⊢
    omega

theorem ReadsProgram.cost {es : List Expr} (h : ReadsProgram ctx room s es t) (hc : ∀ e ∈ es, e.Clean) :
    2 * (es.flatMap leaves).length + t.diagnostics.size + 2 * s.cursor ≤ 2 * t.cursor + s.diagnostics.size := by
  induction h with
  | finish _ => simp [Nat.add_comm]
  | stray _ _ _ => exact (hc _ List.mem_cons_self).complete.elim
  | next _ _ he _ ih =>
    rw [List.forall_mem_cons] at hc
    have hfirst := (he.cost hc.1).2
    have hrest := ih hc.2
    simp only [Task.given, List.length_nil] at hfirst
    simp only [List.flatMap_cons, List.length_append]
    omega

end Cost

/-! ### Sources -/

/-- Tokens that stand for something in a program: neither invalid nor the end of the input. -/
def Token.Solid (token : Token) : Prop :=
  token.kind ≠ .invalid ∧ token.kind ≠ .eof

theorem Token.Solid.of_kind {token : Token} {kind : TokenKind} (h : token.kind = kind)
    (hk : kind ≠ .invalid ∧ kind ≠ .eof := by decide) : token.Solid := by
  subst h
  exact hk

theorem Parameter.KindsFit.solid {p : Parameter} (h : p.KindsFit) : ∀ token ∈ p.leaves, token.Solid := by
  simp only [Parameter.leaves, List.forall_mem_append, List.forall_mem_cons, Option.mem_toList]
  exact ⟨fun c hc => .of_kind (h.comma c hc), .of_kind h.name, fun c hc => .of_kind (h.colon c hc),
    fun c hc => .of_kind (h.typeName c hc)⟩

theorem ParameterList.KindsFit.solid {l : ParameterList} (h : l.KindsFit) : ∀ token ∈ l.leaves, token.Solid := by
  simp only [ParameterList.leaves, List.forall_mem_cons, List.forall_mem_append, Option.mem_toList, List.mem_flatMap]
  refine ⟨.of_kind h.opening, ?_, fun c hc => .of_kind (h.closing c hc)⟩
  rintro token ⟨p, hp, hm⟩
  exact (h.each p hp).solid token hm

/-- The tokens of a clean tree are solid. -/
theorem Expr.Clean.solid {e : Expr} (hc : e.Clean) (hk : e.Everywhere KindsFit) :
    ∀ token ∈ e.leaves, token.Solid := by
  induction e with
  | literal token =>
    have hliteral : token.kind.isLiteral = true := hk.self
    rw [leaves_literal, List.forall_mem_singleton]
    cases hkind : token.kind <;> rw [hkind] at hliteral <;> first | exact .of_kind hkind | cases hliteral
  | identifier token =>
    rw [leaves_identifier, List.forall_mem_singleton]
    exact .of_kind hk.self
  | unary operator operand ih =>
    obtain ⟨⟨hop, -⟩, hk'⟩ := everywhere_unary.mp hk
    obtain ⟨-, hc'⟩ := everywhere_unary.mp hc
    rw [leaves_unary, List.forall_mem_cons]
    refine ⟨?_, fun token hm => ?_⟩
    · cases hkind : operator.kind <;> rw [hkind] at hop <;> first | exact .of_kind hkind | cases hop
    · obtain ⟨e, he, hm⟩ := List.mem_flatMap.mp hm
      rw [Option.mem_toList] at he
      exact ih e he (hc' e he) (hk' e he) token hm
  | binary left operator right ih ih' =>
    obtain ⟨hop, hkl, hkr⟩ := everywhere_binary.mp hk
    obtain ⟨-, hcl, hcr⟩ := everywhere_binary.mp hc
    rw [leaves_binary, List.forall_mem_append, List.forall_mem_cons]
    refine ⟨ih hcl hkl, ?_, ih' hcr hkr⟩
    cases hkind : operator.kind <;> simp only [KindsFit, hkind] at hop <;>
      first | exact .of_kind hkind | cases hop
  | parenthesis opening inner closing ih =>
    obtain ⟨⟨hopen, hclose⟩, hk'⟩ := everywhere_parenthesis.mp hk
    obtain ⟨-, hc'⟩ := everywhere_parenthesis.mp hc
    rw [leaves_parenthesis, List.forall_mem_cons, List.forall_mem_append]
    refine ⟨.of_kind hopen, fun token hm => ?_, fun c hm => .of_kind (hclose c (Option.mem_toList.mp hm))⟩
    obtain ⟨e, he, hm⟩ := List.mem_flatMap.mp hm
    rw [Option.mem_toList] at he
    exact ih e he (hc' e he) (hk' e he) token hm
  | block body ih =>
    obtain ⟨hbraces, hk'⟩ := everywhere_block.mp hk
    obtain ⟨-, hc'⟩ := everywhere_block.mp hc
    rw [leaves_block, List.forall_mem_cons, List.forall_mem_append]
    refine ⟨.of_kind hbraces.opening, fun token hm => ?_,
      fun c hm => .of_kind (hbraces.closing c (Option.mem_toList.mp hm))⟩
    obtain ⟨e, he, hm⟩ := List.mem_flatMap.mp hm
    exact ih e he (hc' e he) (hk' e he) token hm
  | function keyword name parameters body ih =>
    obtain ⟨⟨hkeyword, hname, hlist, hbraces⟩, hk'⟩ := everywhere_function.mp hk
    obtain ⟨-, hc'⟩ := everywhere_function.mp hc
    rw [leaves_function, List.forall_mem_cons, List.forall_mem_append, List.forall_mem_append]
    refine ⟨.of_kind hkeyword, ⟨fun n hm => .of_kind (hname n (Option.mem_toList.mp hm)), fun token hm => ?_⟩,
      fun token hm => ?_⟩
    · obtain ⟨l, hl, hm⟩ := List.mem_flatMap.mp hm
      exact (hlist l (Option.mem_toList.mp hl)).solid token hm
    · obtain ⟨b, hb, hm⟩ := List.mem_flatMap.mp hm
      rw [Option.mem_toList] at hb
      rw [leaves_block, List.mem_cons, List.mem_append] at hm
      rcases hm with rfl | hm | hm
      · exact .of_kind (hbraces b hb).opening
      · obtain ⟨e, he, hm⟩ := List.mem_flatMap.mp hm
        exact ih b hb e he (hc' b hb e he) (hk' b hb e he) token hm
      · exact .of_kind ((hbraces b hb).closing token (Option.mem_toList.mp hm))
  | invalidToken token => exact hc.complete.elim
  | invalidExpr inner _ => exact hc.complete.elim

/-- The run over a source passes all of its tokens. -/
theorem parse_passes (source : String) : ∃ t,
    ReadsProgram (Parser.ofSource source).context maxNesting (Parser.ofSource source).state
      (parse source).expressions t ∧
    (parse source).diagnostics = t.diagnostics ∧ t.cursor = (scan source).1.size ∧
    (Parser.ofSource source).context.passed (Parser.ofSource source).state t = (scan source).1.tokens.toList := by
  obtain ⟨t, hrun, hd⟩ := (Parser.ofSource source).parse_run
  have hcursor : t.cursor = (scan source).1.size :=
    hrun.cursor_eq Rules.standard_endsAtEof (scan_kind_ne_eof source) (Nat.zero_le _)
  exact ⟨t, hrun, hd, hcursor, Context.passed_all rfl hcursor⟩

/-- Where nothing is reported, the trees are clean, their tokens fit, and no token is lost. -/
theorem clean_of_silent {source : String} (h : (parse source).diagnostics = #[]) :
    (parse source).expressions.flatMap leaves = (scan source).1.tokens.toList ∧
      ∀ e ∈ (parse source).expressions, e.Clean ∧ e.Everywhere KindsFit := by
  obtain ⟨t, hrun, hd, -, hpassed⟩ := parse_passes source
  rw [hd] at h
  have hscan : (scan source).2 = #[] := by
    have hreports : (scan source).2.toList <+: t.diagnostics.toList := hrun.moves.reports
    rw [h] at hreports
    simpa using hreports
  have hquiet : Quiet (Parser.ofSource source).context (Parser.ofSource source).state t := by
    refine ⟨h.trans hscan.symm, fun token hm => ?_⟩
    rw [hpassed] at hm
    exact (scan_silent_iff source).mp hscan token (Array.mem_toList_iff.mp hm)
  obtain ⟨hclean, hleaves⟩ := hrun.quiet hquiet
  exact ⟨hleaves.trans hpassed, fun e he => ⟨hclean e he, hrun.kindsFit rfl e he⟩⟩

/-- Where the trees are clean and no token is lost, nothing is reported. -/
theorem silent_of_clean {source : String}
    (hleaves : (parse source).expressions.flatMap leaves = (scan source).1.tokens.toList)
    (hclean : ∀ e ∈ (parse source).expressions, e.Clean) : (parse source).diagnostics = #[] := by
  obtain ⟨t, hrun, hd, hcursor, -⟩ := parse_passes source
  have hcost := hrun.cost hclean
  have hlength : ((parse source).expressions.flatMap leaves).length = (scan source).1.size := by
    rw [hleaves]
    rfl
  have hsilent : t.diagnostics = (scan source).2 := by
    have hzero : (Parser.ofSource source).state.cursor = 0 := rfl
    exact hrun.moves.silent_of_size_le (by omega)
  -- The scanner reports only invalid tokens, and there is no place for them in a clean tree.
  rw [hd, hsilent, scan_silent_iff]
  intro token hm
  rw [← Array.mem_toList_iff, ← hleaves] at hm
  obtain ⟨e, he, hm⟩ := List.mem_flatMap.mp hm
  exact ((hclean e he).solid (hrun.kindsFit rfl e he) token hm).1

/-- A source is read without a report exactly when its trees are clean and hold all of its tokens. -/
theorem hasErrors_eq_false_iff (source : String) : (parse source).hasErrors = false ↔
    (parse source).expressions.flatMap leaves = (scan source).1.tokens.toList ∧
      ∀ e ∈ (parse source).expressions, e.Clean := by
  have hnone : (parse source).hasErrors = false ↔ (parse source).diagnostics = #[] := by
    simp [Parsed.hasErrors]
  rw [hnone]
  constructor
  · intro h
    obtain ⟨hleaves, hclean⟩ := clean_of_silent h
    exact ⟨hleaves, fun e he => (hclean e he).1⟩
  · rintro ⟨hleaves, hclean⟩
    exact silent_of_clean hleaves hclean

end ExprReader
