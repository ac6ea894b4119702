import ExprReader.Tree.Parser.Basic

/-! # What a parser reads, as a relation

`Reads ctx room task s e t` says that a parser with `room` levels below it, asked for `task` in the state
`s`, gives the expression `e` and stops in the state `t`. Each rule is one way in which reading can go, so
that a property of every run is an induction over the rules. The relation is the graph of the reader
(`reads_iff`, `readsProgram_iff`): what holds of `Reads` holds of the parser, and a derivation computes it. -/

namespace ExprReader

/-- What is being read, with what has been read of it so far. -/
inductive Task where
  | expr (least : Precedence)
  | primary (token : Token)
  | construct (construct : Construct) (token : Token)
  | extend (least : Precedence) (left : Expr)
  | operand (strength : Precedence)
  | block (opening : Token) (done : List Expr)

/-- One run of the reader. -/
inductive Reads (ctx : Context) : Nat → Task → State → Expr → State → Prop where
  | exprInvalid {room least s left t} : ctx.kind s ≠ .eof →
      Reads ctx room (.primary (ctx.current s)) s.advance left t → left.isInvalid = true →
      Reads ctx room (.expr least) s left t
  | exprExtended {room least s left t e u} : ctx.kind s ≠ .eof →
      Reads ctx room (.primary (ctx.current s)) s.advance left t → left.isInvalid = false →
      Reads ctx room (.extend least left) t e u → Reads ctx room (.expr least) s e u
  | primaryDeepest {token s} : Reads ctx 0 (.primary token) s (.invalidToken token) (unexpected token s).2
  | primaryUnknown {room token s} : ctx.rules.construct? token.kind = none →
      Reads ctx (room + 1) (.primary token) s (.invalidToken token) (unexpected token s).2
  | primaryKnown {room token found s e t} : ctx.rules.construct? token.kind = some found →
      Reads ctx room (.construct found token) s e t → Reads ctx (room + 1) (.primary token) s e t
  | extendStop {room least left s} : (ctx.kind s).continues least = false →
      Reads ctx room (.extend least left) s left s
  | extendOperator {room least left s right t e u} : (ctx.kind s).continues least = true →
      Reads ctx room (.operand (ctx.kind s).precedence) s.advance right t →
      Reads ctx room (.extend least (.binary left (ctx.current s) right)) t e u →
      Reads ctx room (.extend least left) s e u
  | operandEnd {room strength s} : ctx.kind s = .eof →
      Reads ctx room (.operand strength) s (.invalidToken (ctx.current s)) (ctx.reportAt .expressionExpected s)
  | operandDeepest {strength s} : ctx.kind s ≠ .eof →
      Reads ctx 0 (.operand strength) s (.invalidToken (ctx.current s)) (unexpected (ctx.current s) s.advance).2
  | operandExpr {room strength s e t} : ctx.kind s ≠ .eof → Reads ctx room (.expr strength) s e t →
      Reads ctx (room + 1) (.operand strength) s e t
  | literal {room token s} : Reads ctx room (.construct .literal token) s (.literal token) s
  | identifier {room token s} : Reads ctx room (.construct .identifier token) s (.identifier token) s
  | unary {room operator s operand t} :
      ctx.rules.startsExpression (ctx.kind s) = true ∨ ctx.kind s = .invalid →
      Reads ctx room (.primary (ctx.current s)) s.advance operand t →
      Reads ctx room (.construct .unary operator) s (.unary operator (some operand)) t
  | unaryMissing {room operator s} : ¬(ctx.rules.startsExpression (ctx.kind s) = true ∨ ctx.kind s = .invalid) →
      Reads ctx room (.construct .unary operator) s (.unary operator none) (ctx.reportAt .expressionExpected s)
  | parenthesisEmpty {room opening s} : ctx.kind s = .closeParen →
      Reads ctx room (.construct .parenthesis opening) s (.parenthesis opening none (some (ctx.current s)))
        (ctx.reportAt .expressionExpected s).advance
  | parenthesisEnd {room opening s} : ctx.kind s = .eof →
      Reads ctx room (.construct .parenthesis opening) s (.invalidExpr (.parenthesis opening none none))
        (ctx.reportAt .closeParenthesisExpected s)
  | parenthesisClosed {room opening s e t} : ctx.kind s ≠ .closeParen → Reads ctx room (.expr .lowest) s e t →
      ctx.kind t = .closeParen →
      Reads ctx room (.construct .parenthesis opening) s (.parenthesis opening (some e) (some (ctx.current t)))
        t.advance
  | parenthesisOpen {room opening s e t} : ctx.kind s ≠ .closeParen → Reads ctx room (.expr .lowest) s e t →
      ctx.kind t ≠ .closeParen →
      Reads ctx room (.construct .parenthesis opening) s (.invalidExpr (.parenthesis opening (some e) none))
        (ctx.reportAt .closeParenthesisExpected t)
  | block {room opening s e t} : Reads ctx room (.block opening []) s e t →
      Reads ctx room (.construct .block opening) s e t
  | function {room keyword s name s₁ parameters s₂ body t} : ctx.functionName s = (name, s₁) →
      ctx.functionParameters s₁ = (parameters, s₂) → ctx.kind s₂ = .openCurly →
      Reads ctx room (.block (ctx.current s₂) []) s₂.advance (.block body) t →
      Reads ctx room (.construct .function keyword) s (.function keyword name parameters (some body)) t
  | functionOpen {room keyword s name s₁ parameters s₂} : ctx.functionName s = (name, s₁) →
      ctx.functionParameters s₁ = (parameters, s₂) → ctx.kind s₂ ≠ .openCurly →
      Reads ctx room (.construct .function keyword) s (.function keyword name parameters none)
        (ctx.reportAfter .functionBodyExpected s₂)
  | again {room token s e t} : Reads ctx room (.primary token) s e t →
      Reads ctx room (.construct .primary token) s e t
  | blockClosed {room opening done s} : ctx.kind s = .closeCurly →
      Reads ctx room (.block opening done) s (.block ⟨opening, done, some (ctx.current s)⟩) s.advance
  | blockEnd {room opening done s} : ctx.kind s = .eof →
      Reads ctx room (.block opening done) s (.block ⟨opening, done, none⟩) (ctx.reportAt .closeBraceExpected s)
  | blockNext {room opening done s e t b u} : ctx.kind s ≠ .closeCurly → ctx.kind s ≠ .eof →
      Reads ctx room (.expr .lowest) s e t → Reads ctx room (.block opening (done ++ [e])) t b u →
      Reads ctx room (.block opening done) s b u

/-- One run over a whole program. -/
inductive ReadsProgram (ctx : Context) (room : Nat) : State → List Expr → State → Prop where
  | finish {s} : ctx.kind s = .eof → ReadsProgram ctx room s [] s
  | stray {s es t} : ctx.kind s = .closeParen ∨ ctx.kind s = .closeCurly →
      ReadsProgram ctx room (ctx.reportAt .endExpected s).advance es t →
      ReadsProgram ctx room s (.invalidToken (ctx.current s) :: es) t
  | next {s e t es u} : ctx.kind s ≠ .eof → ¬(ctx.kind s = .closeParen ∨ ctx.kind s = .closeCurly) →
      Reads ctx room (.expr .lowest) s e t → ReadsProgram ctx room t es u → ReadsProgram ctx room s (e :: es) u

namespace Level

/-- The level below one with a given number of levels below it. -/
def beneath (ctx : Context) : Nat → Option (Level ctx)
  | 0 => none
  | room + 1 => some (ofRoom ctx room)

theorem ofRoom_eq_above (ctx : Context) (room : Nat) : ofRoom ctx room = above (beneath ctx room) := by
  cases room <;> rfl

theorem ofRoom_expr (ctx : Context) (room : Nat) (least : Precedence) (s : State) :
    (ofRoom ctx room).expr least s = exprAbove (beneath ctx room) least s := by
  rw [ofRoom_eq_above]
  rfl

theorem ofRoom_primary (ctx : Context) (room : Nat) (token : Token) (s : State) :
    (ofRoom ctx room).primary token s = primaryBelow (beneath ctx room) token s := by
  rw [ofRoom_eq_above]
  rfl

theorem ofRoom_expr_of_eof {ctx : Context} {s : State} (room : Nat) (least : Precedence) (h : ctx.kind s = .eof) :
    (ofRoom ctx room).expr least s = (none, s) := by
  rw [ofRoom_expr, exprAbove, if_pos h]

end Level

open Level

/-- What the functions of the reader return for a task. -/
def Task.Returns (ctx : Context) (room : Nat) : Task → State → Expr → State → Prop
  | expr least, s, e, t => (ofRoom ctx room).expr least s = (some e, t)
  | primary token, s, e, t => (ofRoom ctx room).primary token s = (e, t)
  | construct found token, s, e, t => (ofRoom ctx room).construct found token s = (e, t)
  | extend least left, s, e, t => Level.extend (beneath ctx room) least left s = (e, t)
  | operand strength, s, e, t => operandBelow (beneath ctx room) strength s = (e, t)
  | block opening done, s, e, t =>
    e = .block ⟨opening, done ++ ((ofRoom ctx room).untilBrace s).1, ((ofRoom ctx room).untilBrace s).2.1⟩ ∧
      t = ((ofRoom ctx room).untilBrace s).2.2

/-! ### A derivation computes the reader -/

section Run
variable {ctx : Context} {room : Nat} {task : Task} {s t : State} {e : Expr}

theorem Reads.returns (h : Reads ctx room task s e t) : task.Returns ctx room s e t := by
  induction h with
  | exprInvalid hk _ hi ih =>
    simp only [Task.Returns, ofRoom_primary, ofRoom_expr] at ih ⊢
    rw [exprAbove, if_neg hk, ih]
    simp [hi]
  | exprExtended hk _ hi _ ih ih' =>
    simp only [Task.Returns, ofRoom_primary, ofRoom_expr] at ih ih' ⊢
    rw [exprAbove, if_neg hk, ih]
    simp [hi, ih']
  | primaryDeepest => exact (ofRoom_primary ..).trans rfl
  | primaryUnknown hc =>
    simp only [Task.Returns, ofRoom_primary, beneath, primaryBelow, byRules, hc]
    rfl
  | primaryKnown hc _ ih =>
    simp only [Task.Returns] at ih
    simp only [Task.Returns, ofRoom_primary, beneath, primaryBelow, byRules, hc, ih]
  | extendStop hk =>
    simp only [Task.Returns]
    rw [Level.extend, if_neg (by simp [hk])]
  | extendOperator hk _ _ ih ih' =>
    simp only [Task.Returns] at ih ih' ⊢
    rw [Level.extend, if_pos hk]
    simp only [ih, ih']
  | operandEnd hk =>
    simp only [Task.Returns]
    rw [operandBelow.eq_def, if_pos hk]
  | operandDeepest hk =>
    simp only [Task.Returns]
    rw [operandBelow.eq_def, if_neg hk]
    rfl
  | operandExpr hk _ ih =>
    simp only [Task.Returns] at ih ⊢
    rw [operandBelow.eq_def, if_neg hk]
    simp only [beneath, ih]
  | literal => rfl
  | identifier => rfl
  | unary hk _ ih =>
    simp only [Task.Returns] at ih ⊢
    rw [construct, Level.unary, if_pos hk, ih]
  | unaryMissing hk =>
    simp only [Task.Returns]
    rw [construct, Level.unary, if_neg hk]
  | parenthesisEmpty hk =>
    have hk' : ctx.kind (ctx.reportAt .expressionExpected _) = .closeParen := hk
    simp only [Task.Returns]
    rw [construct, Level.parenthesis, enclosed, if_pos hk]
    simp only [hk', if_true]
    rfl
  | parenthesisEnd hk =>
    simp only [Task.Returns]
    rw [construct, Level.parenthesis, enclosed, if_neg (by simp [hk]), ofRoom_expr_of_eof _ _ hk]
    simp [hk]
  | parenthesisClosed hk _ hk' ih =>
    simp only [Task.Returns] at ih ⊢
    rw [construct, Level.parenthesis, enclosed, if_neg hk, ih]
    simp [hk']
  | parenthesisOpen hk _ hk' ih =>
    simp only [Task.Returns] at ih ⊢
    rw [construct, Level.parenthesis, enclosed, if_neg hk, ih]
    simp [hk']
  | block _ ih =>
    simp only [Task.Returns, List.nil_append] at ih ⊢
    rw [construct, Level.block, ih.1, ih.2]
  | function hn hp hk _ ih =>
    simp only [Task.Returns, List.nil_append, Expr.block.injEq] at ih ⊢
    rw [construct, Level.function, hn]
    simp only [hp, functionBody, hk, if_true, Level.block, ih.1, ih.2]
  | functionOpen hn hp hk =>
    simp only [Task.Returns]
    rw [construct, Level.function, hn]
    simp only [hp, functionBody, hk, if_false]
  | again _ ih => exact ih
  | blockClosed hk =>
    simp only [Task.Returns]
    rw [untilBrace, if_pos hk]
    simp
  | blockEnd hk =>
    simp only [Task.Returns]
    rw [untilBrace, if_neg (by simp [hk]), if_pos hk]
    simp
  | blockNext hk hk' _ _ ih ih' =>
    simp only [Task.Returns] at ih ih' ⊢
    rw [untilBrace, if_neg hk, if_neg hk']
    simp only [ih, Option.toList_some]
    simpa using ih'

/-! ### The reader has a derivation -/

/-- A level all of whose runs have derivations. -/
structure Derived (level : Level ctx) (room : Nat) : Prop where
  expr : ∀ least s e t, level.expr least s = (some e, t) → Reads ctx room (.expr least) s e t
  expr_end : ∀ least s, ctx.kind s = .eof → level.expr least s = (none, s)
  expr_some : ∀ least s, ctx.kind s ≠ .eof → ∃ e t, level.expr least s = (some e, t)
  primary : ∀ token s, Reads ctx room (.primary token) s (level.primary token s).1 (level.primary token s).2

namespace Derived
variable {inner : Level ctx}

theorem untilBrace (h : Derived inner room) (opening : Token) (s : State) (done : List Expr) :
    Reads ctx room (.block opening done) s
      (.block ⟨opening, done ++ (inner.untilBrace s).1, (inner.untilBrace s).2.1⟩) (inner.untilBrace s).2.2 := by
  fun_induction inner.untilBrace s generalizing done with
  | case1 s hk => simpa using Reads.blockClosed hk
  | case2 s _ hk => simpa using Reads.blockEnd hk
  | case3 s hk hk' step expressions closing last hrest ih =>
    obtain ⟨e, t, he⟩ := h.expr_some .lowest s hk'
    have hstep : step = (some e, t) := he
    rw [hrest, hstep] at ih
    rw [hstep]
    refine Reads.blockNext hk hk' (h.expr _ _ _ _ he) ?_
    simpa using ih (done ++ [e])

theorem function (h : Derived inner room) (keyword : Token) (s : State) :
    Reads ctx room (.construct .function keyword) s (inner.function keyword s).1 (inner.function keyword s).2 := by
  unfold Level.function functionBody
  by_cases hk : ctx.kind (ctx.functionParameters (ctx.functionName s).2).2 = .openCurly
  · simp only [hk, if_true]
    exact Reads.function rfl rfl hk (h.untilBrace _ _ [])
  · simp only [hk, if_false]
    exact Reads.functionOpen rfl rfl hk

theorem parenthesis (h : Derived inner room) (opening : Token) (s : State) :
    Reads ctx room (.construct .parenthesis opening) s (inner.parenthesis opening s).1
      (inner.parenthesis opening s).2 := by
  unfold Level.parenthesis enclosed
  by_cases hk : ctx.kind s = .closeParen
  · have hk' : ctx.kind (ctx.reportAt .expressionExpected s) = .closeParen := hk
    simp only [hk, if_true, hk']
    exact Reads.parenthesisEmpty hk
  · simp only [hk, if_false]
    by_cases hend : ctx.kind s = .eof
    · simp only [h.expr_end _ _ hend, hk, if_false]
      exact Reads.parenthesisEnd hend
    · obtain ⟨e, t, he⟩ := h.expr_some .lowest s hend
      simp only [he]
      by_cases hclose : ctx.kind t = .closeParen
      · simp only [hclose, if_true]
        exact Reads.parenthesisClosed hk (h.expr _ _ _ _ he) hclose
      · simp only [hclose, if_false]
        exact Reads.parenthesisOpen hk (h.expr _ _ _ _ he) hclose

theorem unary (h : Derived inner room) (operator : Token) (s : State) :
    Reads ctx room (.construct .unary operator) s (inner.unary operator s).1 (inner.unary operator s).2 := by
  unfold Level.unary
  split
  · rename_i hk
    exact Reads.unary hk (h.primary _ _)
  · rename_i hk
    exact Reads.unaryMissing hk

theorem construct (h : Derived inner room) (found : Construct) (token : Token) (s : State) :
    Reads ctx room (.construct found token) s (inner.construct found token s).1
      (inner.construct found token s).2 := by
  cases found with
  | literal => exact Reads.literal
  | identifier => exact Reads.identifier
  | unary => exact h.unary token s
  | parenthesis => exact h.parenthesis token s
  | block => exact Reads.block (h.untilBrace token s [])
  | function => exact h.function token s
  | primary => exact Reads.again (h.primary token s)

end Derived

section Above
variable (h : ∀ r, room = r + 1 → Derived (ofRoom ctx r) r)
include h

theorem derived_primary (token : Token) (s : State) :
    Reads ctx room (.primary token) s (primaryBelow (beneath ctx room) token s).1
      (primaryBelow (beneath ctx room) token s).2 := by
  cases room with
  | zero => exact Reads.primaryDeepest
  | succ r =>
    show Reads ctx (r + 1) _ s ((ofRoom ctx r).byRules token s).1 ((ofRoom ctx r).byRules token s).2
    unfold byRules
    split
    · exact Reads.primaryKnown ‹_› ((h r rfl).construct _ token s)
    · exact Reads.primaryUnknown ‹_›

theorem derived_operand (strength : Precedence) (s : State) :
    Reads ctx room (.operand strength) s (operandBelow (beneath ctx room) strength s).1
      (operandBelow (beneath ctx room) strength s).2 := by
  rw [operandBelow.eq_def]
  split
  · exact Reads.operandEnd ‹_›
  · rename_i hk
    cases room with
    | zero => exact Reads.operandDeepest hk
    | succ r =>
      obtain ⟨e, t, he⟩ := (h r rfl).expr_some strength s hk
      simp only [beneath, he]
      exact Reads.operandExpr hk ((h r rfl).expr _ _ _ _ he)

theorem derived_extend (least : Precedence) (left : Expr) (s : State) :
    Reads ctx room (.extend least left) s (Level.extend (beneath ctx room) least left s).1
      (Level.extend (beneath ctx room) least left s).2 := by
  fun_induction Level.extend (beneath ctx room) least left s with
  | case1 left s hk step ih => exact Reads.extendOperator hk (derived_operand h _ _) ih
  | case2 left s hk => exact Reads.extendStop (by simpa using hk)

theorem derived_above : Derived (ofRoom ctx room) room where
  expr least s e t he := by
    rw [ofRoom_expr, exprAbove] at he
    split at he
    · simp at he
    · rename_i hk
      dsimp only at he
      have hp := derived_primary h (ctx.current s) s.advance
      split at he
      · rename_i hi
        cases he
        exact Reads.exprInvalid hk hp hi
      · rename_i hi
        cases he
        exact Reads.exprExtended hk hp (by simpa using hi) (derived_extend h _ _ _)
  expr_end least s hk := ofRoom_expr_of_eof room least hk
  expr_some least s hk := by
    rw [ofRoom_expr, exprAbove, if_neg hk]
    dsimp only
    split
    · exact ⟨_, _, rfl⟩
    · exact ⟨_, _, rfl⟩
  primary token s := by
    rw [ofRoom_primary]
    exact derived_primary h token s

end Above

theorem derived (ctx : Context) (room : Nat) : Derived (ofRoom ctx room) room := by
  induction room with
  | zero => exact derived_above (by simp)
  | succ room ih => exact derived_above fun r hr => by cases hr; exact ih

/-! ### The graph of the reader -/

/-- The derivations are exactly the runs of the reader. -/
theorem reads_iff : Reads ctx room task s e t ↔ task.Returns ctx room s e t := by
  refine ⟨Reads.returns, fun h => ?_⟩
  have below : ∀ r, room = r + 1 → Derived (ofRoom ctx r) r := fun r _ => derived ctx r
  cases task with
  | expr least => exact (derived ctx room).expr _ _ _ _ h
  | primary token =>
    have := (derived ctx room).primary token s
    rwa [show (ofRoom ctx room).primary token s = (e, t) from h] at this
  | construct found token =>
    have := (derived ctx room).construct found token s
    rwa [show (ofRoom ctx room).construct found token s = (e, t) from h] at this
  | extend least left =>
    have := derived_extend below least left s
    rwa [show Level.extend (beneath ctx room) least left s = (e, t) from h] at this
  | operand strength =>
    have := derived_operand below strength s
    rwa [show operandBelow (beneath ctx room) strength s = (e, t) from h] at this
  | block opening done =>
    obtain ⟨rfl, rfl⟩ := h
    exact (derived ctx room).untilBrace opening s done

theorem Reads.unique {e' : Expr} {t' : State} (h : Reads ctx room task s e t) (h' : Reads ctx room task s e' t') :
    e = e' ∧ t = t' := by
  have hr := h.returns
  have hr' := h'.returns
  cases task with
  | block opening done =>
    obtain ⟨rfl, rfl⟩ := hr
    obtain ⟨rfl, rfl⟩ := hr'
    exact ⟨rfl, rfl⟩
  | _ =>
    simp only [Task.Returns] at hr hr'
    rw [hr] at hr'
    cases hr'
    exact ⟨rfl, rfl⟩

theorem Reads.kind_ne_eof {least : Precedence} (h : Reads ctx room (.expr least) s e t) : ctx.kind s ≠ .eof := by
  cases h <;> assumption

theorem readsProgram_iff {es : List Expr} :
    ReadsProgram ctx room s es t ↔ (ofRoom ctx room).program s = (es, t) := by
  constructor
  · intro h
    induction h with
    | finish hk => rw [program, if_pos hk]
    | stray hk _ ih =>
      rw [program, if_neg (by rcases hk with hk | hk <;> simp [hk]), if_pos hk, ih]
    | next hk hk' he _ ih =>
      have he' : (ofRoom ctx room).expr .lowest _ = _ := he.returns
      rw [program, if_neg hk, if_neg hk']
      simp only [he', ih]
  · intro h
    fun_induction (ofRoom ctx room).program s generalizing es t with
    | case1 s hk =>
      cases h
      exact .finish hk
    | case2 s _ hk expressions last hrest ih =>
      cases h
      exact .stray hk (ih hrest)
    | case3 s hk hk' step e he expressions last hrest =>
      rename_i ih
      cases h
      have hstep : (ofRoom ctx room).expr .lowest s = (some e, step.2) := Prod.ext he rfl
      exact .next hk hk' ((derived ctx room).expr _ _ _ _ hstep) (ih hrest)
    | case4 s hk hk' step =>
      rename_i hnone
      obtain ⟨e, u, he⟩ := (derived ctx room).expr_some .lowest s hk
      simp [step, he] at hnone

theorem ReadsProgram.unique {es es' : List Expr} {t' : State} (h : ReadsProgram ctx room s es t)
    (h' : ReadsProgram ctx room s es' t') : es = es' ∧ t = t' := by
  rw [readsProgram_iff] at h h'
  rw [h] at h'
  cases h'
  exact ⟨rfl, rfl⟩

theorem Parser.parse_of_run {p : Parser} {es : List Expr}
    (h : ReadsProgram p.context (maxNesting - p.depth) p.state es t) : p.parse = ⟨es, t.diagnostics⟩ := by
  rw [readsProgram_iff] at h
  rw [Parser.parse, Parser.level, h]

/-- What a parser returns is read in one run. -/
theorem Parser.parse_run (p : Parser) :
    ∃ t, ReadsProgram p.context (maxNesting - p.depth) p.state p.parse.expressions t ∧
      p.parse.diagnostics = t.diagnostics :=
  ⟨_, readsProgram_iff.mpr rfl, rfl⟩

end Run

end ExprReader
