import ExprReader.Proofs.Moves
import ExprReader.Proofs.Parts

/-! # The kinds of tokens in the slots of a tree

By the rules of the language every token of a tree has the kind that its slot asks for, on every input.
Only an invalid expression holds a token of any kind. A parenthesis that was not closed stands only inside the
invalid expression that marks it. -/

namespace ExprReader

/-! ### Slots -/

/-- The kinds that fit the slots of a parameter. A type stands only after a colon. -/
structure Parameter.KindsFit (p : Parameter) : Prop where
  comma : ∀ c, p.comma = some c → c.kind = .comma
  name : p.name.kind = .identifier
  colon : ∀ c, p.colon = some c → c.kind = .colon
  typeName : ∀ c, p.typeName = some c → c.kind = .identifier
  typed : p.typeName.isSome = true → p.colon.isSome = true

/-- The kinds that fit the slots of a list of parameters. The first has no comma. -/
structure ParameterList.KindsFit (l : ParameterList) : Prop where
  opening : l.opening.kind = .openParen
  closing : ∀ c, l.closing = some c → c.kind = .closeParen
  each : ∀ p ∈ l.parameters, p.KindsFit
  first : ∀ p, l.parameters.head? = some p → p.comma = none

/-- The kinds that fit the braces of a block. -/
structure Block.KindsFit {α : Type} (b : Block α) : Prop where
  opening : b.opening.kind = .openCurly
  closing : ∀ c, b.closing = some c → c.kind = .closeCurly

namespace Expr

/-- Whether an expression is an operator between its operands. -/
def isBinary : Expr → Bool
  | .binary .. => true
  | _ => false

/-- The kinds that fit the slots of an expression itself. An operand of a unary operator is not binary, and
an invalid construct is a parenthesis that was not closed. -/
def KindsFit : Expr → Prop
  | .literal token => token.kind.isLiteral = true
  | .identifier token => token.kind = .identifier
  | .unary operator operand => operator.kind.isUnaryOperator = true ∧ ∀ e, operand = some e → e.isBinary = false
  | .binary _ operator _ => operator.kind.isBinaryOperator = true
  | .parenthesis opening _ closing => opening.kind = .openParen ∧ ∀ c, closing = some c → c.kind = .closeParen
  | .block body => body.KindsFit
  | .function keyword name parameters body => keyword.kind = .function ∧ (∀ n, name = some n → n.kind = .identifier) ∧
      (∀ l, parameters = some l → l.KindsFit) ∧ ∀ b, body = some b → b.KindsFit
  | .invalidToken _ => True
  | .invalidExpr inner => ∃ opening content, inner = .parenthesis opening content none

end Expr

/-! ### What the rules of the language tell about kinds -/

namespace Rules
variable {kind : TokenKind}

theorem standard_literal (h : standard.construct? kind = some .literal) : kind.isLiteral = true := by
  cases kind <;> first | rfl | cases h

theorem standard_identifier (h : standard.construct? kind = some .identifier) : kind = .identifier := by
  cases kind <;> first | rfl | cases h

theorem standard_unary (h : standard.construct? kind = some .unary) : kind.isUnaryOperator = true := by
  cases kind <;> first | rfl | cases h

theorem standard_parenthesis (h : standard.construct? kind = some .parenthesis) : kind = .openParen := by
  cases kind <;> first | rfl | cases h

theorem standard_block (h : standard.construct? kind = some .block) : kind = .openCurly := by
  cases kind <;> first | rfl | cases h

theorem standard_function (h : standard.construct? kind = some .function) : kind = .function := by
  cases kind <;> first | rfl | cases h

theorem standard_primary (h : standard.construct? kind = some .primary) : False := by
  cases kind <;> cases h

theorem standard_namesType (h : standard.namesType kind = true) : kind = .identifier := by
  simpa [standard] using h

end Rules

/-! ### The header of a function -/

section Header
variable {ctx : Context} {s t : State} (standard : ctx.rules = .standard)

theorem ReadsParameter.comma_eq {comma : Option Token} {p : Parameter} (h : ReadsParameter ctx comma s (some p) t) :
    p.comma = comma := by
  cases h <;> rfl

/-- Where no parameter is found, the list ends. -/
theorem ReadsParameter.ends_of_none {comma : Option Token} (h : ReadsParameter ctx comma s none t) :
    (ctx.kind t).endsParameters = true := by
  have hk := skipToName_kind ctx s
  cases h with
  | missing hname _ => exact hk.resolve_left hname
  | skipped hname _ => exact hk.resolve_left hname

theorem ReadsOthers.of_ends {ps : List Parameter} (h : ReadsOthers ctx s ps t)
    (hk : (ctx.kind s).endsParameters = true) : ps = [] ∧ t = s := by
  cases h with
  | finish _ => exact ⟨rfl, rfl⟩
  | comma hcomma _ _ => simp [hcomma, TokenKind.endsParameters] at hk
  | noComma hends _ _ _ => simp [hk] at hends

include standard

theorem ReadsParameter.kindsFit {comma : Option Token} {p : Parameter} (h : ReadsParameter ctx comma s (some p) t)
    (hcomma : ∀ c, comma = some c → c.kind = .comma) : p.KindsFit := by
  cases h with
  | plain hname _ => exact ⟨hcomma, hname, by simp, by simp, by simp⟩
  | typed hname hcolon htype =>
    rw [standard] at htype
    refine ⟨hcomma, hname, ?_, ?_, by simp⟩
    · intro c hc
      cases hc
      exact hcolon
    · intro c hc
      cases hc
      exact Rules.standard_namesType htype
  | untyped hname hcolon _ =>
    refine ⟨hcomma, hname, ?_, by simp, by simp⟩
    intro c hc
    cases hc
    exact hcolon

theorem ReadsOthers.kindsFit {ps : List Parameter} (h : ReadsOthers ctx s ps t) : ∀ p ∈ ps, p.KindsFit := by
  induction h with
  | finish _ => simp
  | comma hk hp _ ih =>
    intro q hq
    rcases List.mem_append.mp hq with hq | hq
    · rw [Option.mem_toList] at hq
      subst hq
      exact hp.kindsFit standard fun c hc => by cases hc; exact hk
    · exact ih q hq
  | noComma _ _ hp _ ih =>
    intro q hq
    rcases List.mem_append.mp hq with hq | hq
    · rw [Option.mem_toList] at hq
      subst hq
      exact hp.kindsFit standard (by simp)
    · exact ih q hq

theorem ReadsParameters.kindsFit {ps : List Parameter} (h : ReadsParameters ctx s ps t) :
    (∀ p ∈ ps, p.KindsFit) ∧ ∀ p, ps.head? = some p → p.comma = none := by
  cases h with
  | empty _ => simp
  | @filled p _ _ _ _ hp ho =>
    cases p with
    | none =>
      obtain ⟨rfl, -⟩ := ho.of_ends hp.ends_of_none
      simp
    | some p =>
      refine ⟨fun q hq => ?_, fun q hq => ?_⟩
      · rcases List.mem_cons.mp hq with rfl | hq
        · exact hp.kindsFit standard (by simp)
        · exact ho.kindsFit standard q hq
      · cases hq
        exact hp.comma_eq

theorem ReadsList.kindsFit {opening : Token} {l : ParameterList} (h : ReadsList ctx opening s l t)
    (hopen : opening.kind = .openParen) : l.KindsFit := by
  cases h with
  | closed hp hk =>
    obtain ⟨heach, hfirst⟩ := hp.kindsFit standard
    exact ⟨hopen, fun c hc => by cases hc; exact hk, heach, hfirst⟩
  | unclosed hp _ =>
    obtain ⟨heach, hfirst⟩ := hp.kindsFit standard
    exact ⟨hopen, by simp, heach, hfirst⟩

theorem functionParameters_kindsFit {l : Option ParameterList} (h : ctx.functionParameters s = (l, t)) :
    ∀ list, l = some list → list.KindsFit := by
  intro list hl
  rcases functionParameters_cases h with ⟨hk, list', hl', hread⟩ | ⟨-, hnone, -⟩
  · rw [hl'] at hl
    cases hl
    exact hread.kindsFit standard hk
  · simp [hnone] at hl

end Header

theorem functionName_kind {ctx : Context} {s t : State} {name : Option Token} (h : ctx.functionName s = (name, t)) :
    ∀ n, name = some n → n.kind = .identifier := by
  intro n hn
  rcases functionName_cases h with ⟨hk, rfl, -⟩ | ⟨-, rfl, -⟩
  · cases hn
    exact hk
  · cases hn

/-! ### Expressions and programs -/

open Expr

/-- The result of a task has fitting kinds, given that what the task started from has. -/
def Task.FitsKinds : Task → Expr → Prop
  | expr _, e | operand _, e => e.Everywhere KindsFit
  | primary _, e => e.Everywhere KindsFit ∧ e.isBinary = false
  | construct found token, e =>
    Rules.standard.construct? token.kind = some found → e.Everywhere KindsFit ∧ e.isBinary = false
  | extend _ left, e => left.Everywhere KindsFit → e.Everywhere KindsFit
  | block opening done, e =>
    opening.kind = .openCurly → (∀ d ∈ done, d.Everywhere KindsFit) → e.Everywhere KindsFit ∧ e.isBinary = false

section
variable {ctx : Context} {room : Nat} {s t : State} (standard : ctx.rules = .standard)
include standard

theorem Reads.fitsKinds {task : Task} {e : Expr} (h : Reads ctx room task s e t) : task.FitsKinds e := by
  induction h with
  | exprInvalid _ _ _ ih => exact ih.1
  | exprExtended _ _ _ _ ih ih' => exact ih' ih.1
  | primaryDeepest => exact ⟨by simp [KindsFit], rfl⟩
  | primaryUnknown _ => exact ⟨by simp [KindsFit], rfl⟩
  | primaryKnown hc _ ih => exact ih (by rw [← standard]; exact hc)
  | extendStop _ => exact id
  | extendOperator hk _ _ ih ih' =>
    intro hl
    exact ih' (everywhere_binary.mpr ⟨TokenKind.isBinaryOperator_of_continues hk, hl, ih⟩)
  | operandEnd _ => simp [Task.FitsKinds, KindsFit]
  | operandDeepest _ => simp [Task.FitsKinds, KindsFit]
  | operandExpr _ _ ih => exact ih
  | literal => exact fun hc => ⟨everywhere_literal.mpr (Rules.standard_literal hc), rfl⟩
  | identifier => exact fun hc => ⟨everywhere_identifier.mpr (Rules.standard_identifier hc), rfl⟩
  | unary _ _ ih =>
    intro hc
    refine ⟨everywhere_unary.mpr ⟨⟨Rules.standard_unary hc, ?_⟩, ?_⟩, rfl⟩
    · intro e he
      cases he
      exact ih.2
    · intro e he
      cases he
      exact ih.1
  | unaryMissing _ =>
    exact fun hc => ⟨everywhere_unary.mpr ⟨⟨Rules.standard_unary hc, by simp⟩, by simp⟩, rfl⟩
  | parenthesisEmpty hk =>
    intro hc
    refine ⟨everywhere_parenthesis.mpr ⟨⟨Rules.standard_parenthesis hc, ?_⟩, by simp⟩, rfl⟩
    intro c hc
    cases hc
    exact hk
  | parenthesisEnd _ =>
    intro hc
    refine ⟨everywhere_invalidExpr.mpr ⟨⟨_, _, rfl⟩, everywhere_parenthesis.mpr ⟨⟨?_, by simp⟩, by simp⟩⟩, rfl⟩
    exact Rules.standard_parenthesis hc
  | parenthesisClosed _ _ hk ih =>
    intro hc
    refine ⟨everywhere_parenthesis.mpr ⟨⟨Rules.standard_parenthesis hc, ?_⟩, ?_⟩, rfl⟩
    · intro c hc
      cases hc
      exact hk
    · intro e he
      cases he
      exact ih
  | parenthesisOpen _ _ _ ih =>
    intro hc
    refine ⟨everywhere_invalidExpr.mpr ⟨⟨_, _, rfl⟩, everywhere_parenthesis.mpr ⟨⟨?_, by simp⟩, ?_⟩⟩, rfl⟩
    · exact Rules.standard_parenthesis hc
    · intro e he
      cases he
      exact ih
  | block _ ih => exact fun hc => ih (Rules.standard_block hc) (by simp)
  | function hn hp hk _ ih =>
    intro hc
    obtain ⟨hbraces, hinside⟩ := everywhere_block.mp (ih hk (by simp)).1
    refine ⟨everywhere_function.mpr ⟨⟨Rules.standard_function hc, functionName_kind hn,
      functionParameters_kindsFit standard hp, ?_⟩, ?_⟩, rfl⟩
    · intro b hb
      cases hb
      exact hbraces
    · intro b hb
      cases hb
      exact hinside
  | functionOpen hn hp _ =>
    intro hc
    exact ⟨everywhere_function.mpr ⟨⟨Rules.standard_function hc, functionName_kind hn,
      functionParameters_kindsFit standard hp, by simp⟩, by simp⟩, rfl⟩
  | again _ _ => exact fun hc => (Rules.standard_primary hc).elim
  | blockClosed hk =>
    intro hopen hd
    refine ⟨everywhere_block.mpr ⟨⟨hopen, ?_⟩, hd⟩, rfl⟩
    intro c hc
    cases hc
    exact hk
  | blockEnd _ => exact fun hopen hd => ⟨everywhere_block.mpr ⟨⟨hopen, by simp⟩, hd⟩, rfl⟩
  | blockNext _ _ _ _ ih ih' =>
    intro hopen hd
    refine ih' hopen fun d hm => ?_
    rcases List.mem_append.mp hm with hm | hm
    · exact hd d hm
    · rw [List.mem_singleton.mp hm]
      exact ih

theorem ReadsProgram.kindsFit {es : List Expr} (h : ReadsProgram ctx room s es t) :
    ∀ e ∈ es, e.Everywhere KindsFit := by
  induction h with
  | finish _ => simp
  | stray _ _ ih => exact List.forall_mem_cons.mpr ⟨by simp [KindsFit], ih⟩
  | next _ _ he _ ih => exact List.forall_mem_cons.mpr ⟨he.fitsKinds standard, ih⟩

end

/-! ### Parentheses that were not closed -/

namespace Expr

/-- Whether an expression is a parenthesis that was not closed. -/
def isOpen : Expr → Bool
  | .parenthesis _ _ none => true
  | _ => false

/-- A parenthesis that was not closed stands directly in an expression only if that is there to mark it. -/
def MarksOpen (e : Expr) : Prop :=
  ∀ d ∈ e.children, d.isOpen = true → e = .invalidExpr d

/-- An expression that is no open parenthesis, in which every open one is marked. -/
structure OpenMarked (e : Expr) : Prop where
  closed : e.isOpen = false
  inside : e.Everywhere MarksOpen

theorem OpenMarked.of_children {e : Expr} (h : e.isOpen = false) (hc : ∀ d ∈ e.children, d.OpenMarked) :
    e.OpenMarked := by
  refine ⟨h, everywhere_iff.mpr ⟨fun d hd hopen => ?_, fun d hd => (hc d hd).inside⟩⟩
  rw [(hc d hd).closed] at hopen
  cases hopen

theorem OpenMarked.child {d e : Expr} (h : e.OpenMarked) (hd : d ∈ e.children) (hvalid : e.isInvalid = false) :
    d.OpenMarked := by
  obtain ⟨hmarks, hinside⟩ := everywhere_iff.mp h.inside
  refine ⟨Bool.eq_false_iff.mpr fun hopen => ?_, hinside d hd⟩
  rw [hmarks d hd hopen] at hvalid
  cases hvalid

/-- The mark around an open parenthesis. -/
theorem OpenMarked.marked {opening : Token} {content : Option Expr} (hc : ∀ e ∈ content, e.OpenMarked) :
    (invalidExpr (parenthesis opening content none)).OpenMarked := by
  have hcontent : ∀ d ∈ (parenthesis opening content none).children, d.OpenMarked :=
    fun d hd => hc d (Option.mem_toList.mp hd)
  have hinside : (parenthesis opening content none).Everywhere MarksOpen := by
    refine everywhere_iff.mpr ⟨fun d hd hopen => ?_, fun d hd => (hcontent d hd).inside⟩
    rw [(hcontent d hd).closed] at hopen
    cases hopen
  refine ⟨rfl, everywhere_invalidExpr.mpr ⟨fun d hd _ => ?_, hinside⟩⟩
  rw [List.mem_singleton.mp hd]

end Expr

/-- The result of a task marks its open parentheses, given that what the task started from does. -/
def Task.MarksOpen : Task → Expr → Prop
  | extend _ left, e => left.OpenMarked → e.OpenMarked
  | block _ done, e => (∀ d ∈ done, d.OpenMarked) → e.OpenMarked
  | _, e => e.OpenMarked

section
variable {ctx : Context} {room : Nat} {s t : State}

theorem Reads.marksOpen {task : Task} {e : Expr} (h : Reads ctx room task s e t) : task.MarksOpen e := by
  induction h with
  | exprInvalid _ _ _ ih => exact ih
  | exprExtended _ _ _ _ ih ih' => exact ih' ih
  | primaryDeepest => exact .of_children rfl (by simp [children])
  | primaryUnknown _ => exact .of_children rfl (by simp [children])
  | primaryKnown _ _ ih => exact ih
  | extendStop _ => exact id
  | extendOperator _ _ _ ih ih' =>
    intro hleft
    exact ih' (.of_children rfl (List.forall_mem_cons.mpr ⟨hleft, List.forall_mem_singleton.mpr ih⟩))
  | operandEnd _ => exact .of_children rfl (by simp [children])
  | operandDeepest _ => exact .of_children rfl (by simp [children])
  | operandExpr _ _ ih => exact ih
  | literal => exact .of_children rfl (by simp [children])
  | identifier => exact .of_children rfl (by simp [children])
  | unary _ _ ih => exact .of_children rfl (List.forall_mem_singleton.mpr ih)
  | unaryMissing _ => exact .of_children rfl (by simp [children])
  | parenthesisEmpty _ => exact .of_children rfl (by simp [children])
  | parenthesisEnd _ => exact .marked (by simp)
  | parenthesisClosed _ _ _ ih => exact .of_children rfl (List.forall_mem_singleton.mpr ih)
  | parenthesisOpen _ _ _ ih =>
    refine .marked fun e he => ?_
    cases he
    exact ih
  | block _ ih => exact ih (by simp)
  | function _ _ _ _ ih =>
    exact .of_children rfl fun d hd => (ih (by simp)).child hd rfl
  | functionOpen _ _ _ => exact .of_children rfl (by simp [children])
  | again _ ih => exact ih
  | blockClosed _ => exact fun hd => .of_children rfl hd
  | blockEnd _ => exact fun hd => .of_children rfl hd
  | blockNext _ _ _ _ ih ih' =>
    intro hd
    exact ih' (List.forall_mem_append.mpr ⟨hd, List.forall_mem_singleton.mpr ih⟩)

theorem ReadsProgram.openMarked {es : List Expr} (h : ReadsProgram ctx room s es t) : ∀ e ∈ es, e.OpenMarked := by
  induction h with
  | finish _ => simp
  | stray _ _ ih => exact List.forall_mem_cons.mpr ⟨.of_children rfl (by simp [children]), ih⟩
  | next _ _ he _ ih => exact List.forall_mem_cons.mpr ⟨he.marksOpen, ih⟩

end

/-! ### Every tree of every parse -/

/-- By the rules of the language, whatever the tokens are: in every expression of every tree the tokens have the
kinds that their slots ask for, and a parenthesis that was not closed stands in no expression but the invalid one
that marks it. -/
theorem slots_fit (p : Parser) (standard : p.context.rules = .standard) : ∀ root ∈ p.parse.expressions,
    root.isOpen = false ∧ ∀ e ∈ root.parts, e.KindsFit ∧ ∀ d ∈ e.children, d.isOpen = true → e = .invalidExpr d := by
  intro root hroot
  obtain ⟨t, hrun, -⟩ := p.parse_run
  obtain ⟨hclosed, hinside⟩ := hrun.openMarked root hroot
  exact ⟨hclosed, fun e he => ⟨hrun.kindsFit standard root hroot e he, hinside e he⟩⟩

/-- An open parenthesis behind an operator, and a parameter that has a colon but no type. -/
theorem slots_fit_open :
    let p := Parser.ofSource "-(function (,a:"
    let minus : Token := ⟨.minus, "-", 0, ⟨1, 0⟩⟩
    let paren : Token := ⟨.openParen, "(", 1, ⟨1, 1⟩⟩
    let a : Parameter := ⟨none, ⟨.identifier, "a", 13, ⟨1, 13⟩⟩, some ⟨.colon, ":", 14, ⟨1, 14⟩⟩, none⟩
    let list : ParameterList := ⟨⟨.openParen, "(", 11, ⟨1, 11⟩⟩, [a], none⟩
    let content : Expr := .function ⟨.function, "function", 2, ⟨1, 2⟩⟩ none (some list) none
    let root : Expr := .unary minus (some (.invalidExpr (.parenthesis paren (some content) none)))
    p.context.rules = .standard ∧ root ∈ p.parse.expressions ∧ list.KindsFit ∧
      ∀ e ∈ root.parts, ∀ d ∈ e.children, d.isOpen = true → e = .invalidExpr d := by
  intro p minus paren a list content root
  have hroot : root ∈ p.parse.expressions := by decide +kernel
  obtain ⟨-, hparts⟩ := slots_fit p rfl root hroot
  obtain ⟨-, -, hlist, -⟩ := (hparts content (by simp [root, parts, content])).1
  exact ⟨rfl, hroot, hlist list rfl, fun e he => (hparts e he).2⟩

end ExprReader
