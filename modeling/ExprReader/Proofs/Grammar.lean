import ExprReader.Proofs.RoundTrip

/-! # The grammar

The kinds of tokens that make a program, by a grammar without strengths or nesting. A source that is read
without a report is derived from it, and every source that is derived from it is read without a report, as
long as it has no more tokens than levels of nesting.

The grammar is ambiguous: a sign after an expression goes on with it or begins the next one. Whichever way a
program was derived, it has the tokens of canonical trees. They come about by attaching the operators one by
one, each where its strength asks, and by joining an expression that begins with a sign to the one before. -/

namespace ExprReader

/-- The symbols of the grammar. -/
inductive Symbol where
  | program
  | expr
  | operations
  | primary
  | parameters
  | otherParameters
  | parameter

/-- The kinds of tokens that are derived from a symbol. -/
inductive Derives : Symbol → List TokenKind → Prop where
  | programEmpty : Derives .program []
  | programNext {v w} : Derives .expr v → Derives .program w → Derives .program (v ++ w)
  | expr {v w} : Derives .primary v → Derives .operations w → Derives .expr (v ++ w)
  | operationsEmpty : Derives .operations []
  | operationsNext {kind v w} : kind.isBinaryOperator = true → Derives .primary v → Derives .operations w →
      Derives .operations (kind :: (v ++ w))
  | literal {kind} : kind = .number ∨ kind = .string → Derives .primary [kind]
  | identifier : Derives .primary [.identifier]
  | unary {kind v} : kind = .plus ∨ kind = .minus ∨ kind = .exclamation → Derives .primary v →
      Derives .primary (kind :: v)
  | parenthesis {v} : Derives .expr v → Derives .primary (.openParen :: (v ++ [.closeParen]))
  | block {v} : Derives .program v → Derives .primary (.openCurly :: (v ++ [.closeCurly]))
  | function {v w} : Derives .parameters v → Derives .program w →
      Derives .primary (.function :: .identifier :: .openParen :: (v ++ .closeParen :: .openCurly :: (w ++ [.closeCurly])))
  | parametersEmpty : Derives .parameters []
  | parameters {v w} : Derives .parameter v → Derives .otherParameters w → Derives .parameters (v ++ w)
  | otherParametersEmpty : Derives .otherParameters []
  | otherParametersNext {v w} : Derives .parameter v → Derives .otherParameters w →
      Derives .otherParameters (.comma :: (v ++ w))
  | plainParameter : Derives .parameter [.identifier]
  | typedParameter : Derives .parameter [.identifier, .colon, .identifier]

open Expr

/-! ### Clean trees are derived -/

theorem Derives.operations_append {v w : List TokenKind} (h : Derives .operations v) (h' : Derives .operations w) :
    Derives .operations (v ++ w) := by
  generalize hs : Symbol.operations = symbol at h
  induction h with
  | operationsEmpty => exact h'
  | operationsNext hk hp _ _ ih =>
    rw [List.cons_append, List.append_assoc]
    exact .operationsNext hk hp (ih hs)
  | _ => cases hs

/-- Two expressions with an operator between them. -/
theorem Derives.binary {v w : List TokenKind} {kind : TokenKind} (h : Derives .expr v)
    (hk : kind.isBinaryOperator = true) (h' : Derives .expr w) : Derives .expr (v ++ kind :: w) := by
  cases h with
  | expr hp ho =>
    cases h' with
    | expr hp' ho' =>
      rw [List.append_assoc]
      exact .expr hp (ho.operations_append (.operationsNext hk hp' ho'))

theorem Derives.of_primary {v : List TokenKind} (h : Derives .primary v) : Derives .expr v := by
  simpa using Derives.expr h .operationsEmpty

theorem Derives.programs {es : List Expr} (h : ∀ e ∈ es, Derives .expr (e.leaves.map Token.kind)) :
    Derives .program ((es.flatMap leaves).map Token.kind) := by
  induction es with
  | nil => exact .programEmpty
  | cons e es ih =>
    obtain ⟨hfirst, hrest⟩ := List.forall_mem_cons.mp h
    rw [List.flatMap_cons, List.map_append]
    exact .programNext hfirst (ih hrest)

theorem Parameter.KindsFit.derives {p : Parameter} (hk : p.KindsFit) (hc : p.Complete) :
    Derives .parameter ((p.name :: (p.colon.toList ++ p.typeName.toList)).map Token.kind) := by
  obtain ⟨comma, name, colon, typeName⟩ := p
  have hname : name.kind = .identifier := hk.name
  rcases colon with _ | colon <;> rcases typeName with _ | typeName
  · simpa [hname] using Derives.plainParameter
  · cases hc
  · cases hc
  · have hcolon : colon.kind = .colon := hk.colon colon rfl
    have htype : typeName.kind = .identifier := hk.typeName typeName rfl
    simpa [hname, hcolon, htype] using Derives.typedParameter

theorem Derives.others {ps : List Parameter} (hk : ∀ p ∈ ps, p.KindsFit) (hc : ∀ p ∈ ps, p.Complete)
    (hcomma : ∀ p ∈ ps, p.comma.isSome = true) :
    Derives .otherParameters ((ps.flatMap Parameter.leaves).map Token.kind) := by
  induction ps with
  | nil => exact .otherParametersEmpty
  | cons p ps ih =>
    obtain ⟨hkp, hkps⟩ := List.forall_mem_cons.mp hk
    obtain ⟨hcp, hcps⟩ := List.forall_mem_cons.mp hc
    obtain ⟨hcommap, hcommaps⟩ := List.forall_mem_cons.mp hcomma
    obtain ⟨comma, hsome⟩ := Option.isSome_iff_exists.mp hcommap
    have hleaves := Parameter.leaves_of_comma hsome
    rw [List.flatMap_cons, List.map_append, hleaves, List.map_cons, hkp.comma comma hsome, List.cons_append]
    exact .otherParametersNext (hkp.derives hcp) (ih hkps hcps hcommaps)

theorem Derives.list {ps : List Parameter} (hk : ∀ p ∈ ps, p.KindsFit) (hc : ∀ p ∈ ps, p.Complete)
    (hfirst : ∀ p ∈ ps.head?, p.comma = none) (hcommas : ∀ p ∈ ps.tail, p.comma.isSome = true) :
    Derives .parameters ((ps.flatMap Parameter.leaves).map Token.kind) := by
  cases ps with
  | nil => exact .parametersEmpty
  | cons p ps =>
    obtain ⟨hkp, hkps⟩ := List.forall_mem_cons.mp hk
    obtain ⟨hcp, hcps⟩ := List.forall_mem_cons.mp hc
    have hleaves := Parameter.leaves_of_no_comma (hfirst p rfl)
    rw [List.flatMap_cons, List.map_append, hleaves]
    exact .parameters (hkp.derives hcp) (.others hkps hcps hcommas)

/-- The tokens of an expression are derived, from a primary if no operator stands outermost. -/
structure Expr.Derived (e : Expr) : Prop where
  expr : Derives .expr (e.leaves.map Token.kind)
  primary : e.isBinary = false → Derives .primary (e.leaves.map Token.kind)

theorem Expr.Derived.of_primary {e : Expr} (h : Derives .primary (e.leaves.map Token.kind)) : e.Derived :=
  ⟨h.of_primary, fun _ => h⟩

/-- The tokens of a clean tree are derived. -/
theorem Expr.Clean.derived {e : Expr} (hc : e.Clean) (hk : e.Everywhere KindsFit) : e.Derived := by
  induction e with
  | literal token =>
    have hliteral : token.kind.isLiteral = true := hk.self
    refine .of_primary ?_
    rw [leaves_literal]
    exact .literal (by cases hkind : token.kind <;> simp_all [TokenKind.isLiteral])
  | identifier token =>
    have hname : token.kind = .identifier := hk.self
    refine .of_primary ?_
    rw [leaves_identifier, List.map_cons, hname]
    exact .identifier
  | unary operator operand ih =>
    obtain ⟨operand, rfl⟩ := Option.isSome_iff_exists.mp hc.complete
    obtain ⟨⟨hop, hoperand⟩, hk'⟩ := everywhere_unary.mp hk
    obtain ⟨-, hc'⟩ := everywhere_unary.mp hc
    have hsign : operator.kind = .plus ∨ operator.kind = .minus ∨ operator.kind = .exclamation := by
      cases hkind : operator.kind <;> simp_all [TokenKind.isUnaryOperator]
    refine .of_primary ?_
    rw [leaves_unary, List.map_cons]
    simpa using Derives.unary hsign ((ih operand rfl (hc' _ rfl) (hk' _ rfl)).primary (hoperand operand rfl))
  | binary left operator right ih ih' =>
    obtain ⟨hop, hkl, hkr⟩ := everywhere_binary.mp hk
    obtain ⟨-, hcl, hcr⟩ := everywhere_binary.mp hc
    refine ⟨?_, fun h => by cases h⟩
    rw [leaves_binary, List.map_append, List.map_cons]
    exact (ih hcl hkl).expr.binary hop (ih' hcr hkr).expr
  | parenthesis opening inner closing ih =>
    obtain ⟨inner, rfl⟩ := Option.isSome_iff_exists.mp hc.complete.1
    obtain ⟨closing, rfl⟩ := Option.isSome_iff_exists.mp hc.complete.2
    obtain ⟨⟨hopen, hclose⟩, hk'⟩ := everywhere_parenthesis.mp hk
    obtain ⟨-, hc'⟩ := everywhere_parenthesis.mp hc
    refine .of_primary ?_
    rw [leaves_parenthesis, List.map_cons, hopen]
    simpa [hclose closing rfl] using Derives.parenthesis (ih inner rfl (hc' _ rfl) (hk' _ rfl)).expr
  | block body ih =>
    obtain ⟨closing, hclosing⟩ := Option.isSome_iff_exists.mp hc.complete
    obtain ⟨hbraces, hk'⟩ := everywhere_block.mp hk
    obtain ⟨-, hc'⟩ := everywhere_block.mp hc
    refine .of_primary ?_
    rw [leaves_block, List.map_cons, hbraces.opening, List.map_append, hclosing]
    simpa [hbraces.closing closing hclosing] using
      Derives.block (.programs fun e he => (ih e he (hc' e he) (hk' e he)).expr)
  | function keyword name parameters body ih =>
    obtain ⟨hname, ⟨l, rfl, hlist⟩, ⟨b, rfl, hclosing⟩⟩ := hc.complete
    obtain ⟨name, rfl⟩ := Option.isSome_iff_exists.mp hname
    obtain ⟨closing, hclosing⟩ := Option.isSome_iff_exists.mp hclosing
    obtain ⟨listClosing, hlistClosing⟩ := Option.isSome_iff_exists.mp hlist.closing
    obtain ⟨⟨hkeyword, hname, hl, hb⟩, hk'⟩ := everywhere_function.mp hk
    obtain ⟨-, hc'⟩ := everywhere_function.mp hc
    refine .of_primary ?_
    have hbody := Derives.programs fun e he => (ih b rfl e he (hc' b rfl e he) (hk' b rfl e he)).expr
    have hparameters := Derives.list (hl l rfl).each hlist.each (hl l rfl).first hlist.others
    simpa [ParameterList.leaves, hkeyword, hname name rfl, (hl l rfl).opening, hlistClosing,
      (hl l rfl).closing listClosing hlistClosing, (hb b rfl).opening, hclosing,
      (hb b rfl).closing closing hclosing] using Derives.function hparameters hbody
  | invalidToken token => exact hc.complete.elim
  | invalidExpr inner _ => exact hc.complete.elim

/-! ### Attaching operators -/

namespace Expr

/-- Puts an operator and its right operand where the strength of the operator asks, at the right edge. -/
def attach : Expr → Token → Expr → Expr
  | .binary left operator right, op, operand =>
    if op.kind.continues operator.kind.precedence then .binary left operator (right.attach op operand)
    else .binary (.binary left operator right) op operand
  | e, op, operand => .binary e op operand

/-- Operators with their right operands, all of which are canonical and have no operator outermost. -/
def Operations (operations : List (Token × Expr)) : Prop :=
  ∀ o ∈ operations, o.1.kind.isBinaryOperator = true ∧ o.2.Canonical ∧ o.2.isBinary = false

/-- The tokens of operators and their right operands. -/
def operationLeaves (operations : List (Token × Expr)) : List Token :=
  operations.flatMap fun o => o.1 :: o.2.leaves

variable {e operand : Expr} {op : Token}

theorem root?_eq_none (h : e.isBinary = false) : e.root? = none := by
  cases e with
  | binary left operator right => cases h
  | _ => rfl

theorem attach_of_primary (h : e.isBinary = false) : e.attach op operand = .binary e op operand := by
  cases e with
  | binary left operator right => cases h
  | _ => rfl

theorem leaves_attach (e : Expr) (op : Token) (operand : Expr) :
    (e.attach op operand).leaves = e.leaves ++ op :: operand.leaves := by
  induction e with
  | binary left operator right _ ih =>
    rw [attach]
    split
    · simp [ih]
    · simp
  | _ =>
    rw [attach_of_primary rfl]
    simp

theorem root?_attach (e : Expr) (op : Token) (operand : Expr) :
    ∀ o ∈ (e.attach op operand).root?, o ∈ e.root? ∨ o = op := by
  intro o ho
  cases e with
  | binary left operator right =>
    rw [attach] at ho
    split at ho
    · exact Or.inl ho
    · cases ho
      exact Or.inr rfl
  | _ =>
    cases ho
    exact Or.inr rfl

theorem Canonical.attach (h : e.Canonical) (hop : op.kind.isBinaryOperator = true) (hoperand : operand.Canonical)
    (hprimary : operand.isBinary = false) : (e.attach op operand).Canonical := by
  have hright : ∀ o ∈ operand.root?, o.kind.NestsRight op.kind := by
    simp [root?_eq_none hprimary]
  induction e with
  | binary left operator right _ ih =>
    obtain ⟨hnode, hcl, hcr⟩ := everywhere_binary.mp h
    have hop' : operator.kind.isBinaryOperator = true := hnode.kinds
    rw [Expr.attach]
    split
    · -- The operator goes down the right edge, below an operator that it may continue.
      rename_i hcontinues
      refine canonical_binary hop' hcl (ih hcr) hnode.operands.2 fun o ho => ?_
      rcases root?_attach right op operand o ho with hroot | rfl
      · exact hnode.operands.1 o hroot
      · exact (TokenKind.nestsRight_iff hop).mpr hcontinues
    · rename_i hstops
      refine canonical_binary hop h hoperand (fun o ho => ?_) hright
      cases ho
      exact (TokenKind.nestsLeft_iff hop' hop).mpr (by simpa using hstops)
  | _ =>
    rw [attach_of_primary rfl]
    exact canonical_binary hop h hoperand (by simp [root?]) hright

/-- Attaches operators one after the other. -/
def attachAll (e : Expr) (operations : List (Token × Expr)) : Expr :=
  operations.foldl (fun d o => d.attach o.1 o.2) e

theorem leaves_attachAll (e : Expr) (operations : List (Token × Expr)) :
    (e.attachAll operations).leaves = e.leaves ++ operationLeaves operations := by
  induction operations generalizing e with
  | nil => simp [attachAll, operationLeaves]
  | cons o operations ih =>
    have hrest := ih (e.attach o.1 o.2)
    rw [leaves_attach] at hrest
    simpa [attachAll, operationLeaves] using hrest

theorem Canonical.attachAll {operations : List (Token × Expr)} (h : e.Canonical) (ho : Operations operations) :
    (e.attachAll operations).Canonical := by
  induction operations generalizing e with
  | nil => exact h
  | cons o operations ih =>
    obtain ⟨⟨hop, hoperand, hprimary⟩, hrest⟩ := List.forall_mem_cons.mp ho
    exact ih (h.attach hop hoperand hprimary) hrest

/-- The tokens of an expression are those of a primary and of the operations that follow it. -/
structure FlatAs (e first : Expr) (operations : List (Token × Expr)) : Prop where
  canonical : first.Canonical
  primary : first.isBinary = false
  each : Operations operations
  leaves_eq : e.leaves = first.leaves ++ operationLeaves operations

theorem FlatAs.alone (h : e.Canonical) (hprimary : e.isBinary = false) : FlatAs e e [] :=
  ⟨h, hprimary, by simp [Operations], by simp [operationLeaves]⟩

theorem FlatAs.binary {left right first first' : Expr} {operator : Token} {operations operations' : List (Token × Expr)}
    (hop : operator.kind.isBinaryOperator = true) (hl : FlatAs left first operations)
    (hr : FlatAs right first' operations') :
    FlatAs (.binary left operator right) first (operations ++ (operator, first') :: operations') where
  canonical := hl.canonical
  primary := hl.primary
  each := by
    refine List.forall_mem_append.mpr ⟨hl.each, List.forall_mem_cons.mpr ⟨?_, hr.each⟩⟩
    exact ⟨hop, hr.canonical, hr.primary⟩
  leaves_eq := by
    rw [leaves_binary, hl.leaves_eq, hr.leaves_eq]
    simp [operationLeaves]

theorem Canonical.exists_flatAs (h : e.Canonical) : ∃ first operations, FlatAs e first operations := by
  induction e with
  | binary left operator right ih ih' =>
    obtain ⟨hnode, hcl, hcr⟩ := everywhere_binary.mp h
    obtain ⟨first, operations, hl⟩ := ih hcl
    obtain ⟨first', operations', hr⟩ := ih' hcr
    exact ⟨_, _, hl.binary hnode.kinds hr⟩
  | _ => exact ⟨_, [], .alone h rfl⟩

/-- A primary that begins with a sign is an operator before its operand. -/
theorem Canonical.eq_unary_of_sign (h : e.Canonical) (hprimary : e.isBinary = false) (hsign : e.StartsWithSign) :
    ∃ sign operand, e = .unary sign (some operand) ∧ sign.kind.isBinaryOperator = true ∧ operand.Canonical ∧
      operand.isBinary = false := by
  obtain ⟨token, hfirst, hkind⟩ := hsign
  have hnode := h.self
  -- Every other construct has a first token of another kind.
  have other {kind : TokenKind} (hother : token.kind = kind) (hne : ¬(kind = .plus ∨ kind = .minus) := by decide) :
      False := hne (hother ▸ hkind)
  cases e with
  | unary sign operand =>
    obtain ⟨operand, rfl⟩ := Option.isSome_iff_exists.mp hnode.complete
    rw [leaves_unary] at hfirst
    cases hfirst
    refine ⟨token, operand, rfl, ?_, (everywhere_unary.mp h).2 operand rfl, hnode.kinds.2 operand rfl⟩
    rcases hkind with hkind | hkind <;> rw [hkind] <;> rfl
  | literal token =>
    rw [leaves_literal] at hfirst
    cases hfirst
    have hliteral : token.kind.isLiteral = true := hnode.kinds
    rcases hkind with hkind | hkind <;> rw [hkind] at hliteral <;> cases hliteral
  | identifier token =>
    rw [leaves_identifier] at hfirst
    cases hfirst
    exact (other hnode.kinds).elim
  | binary left operator right => cases hprimary
  | parenthesis opening inner closing =>
    rw [leaves_parenthesis] at hfirst
    cases hfirst
    exact (other hnode.kinds.1).elim
  | block body =>
    rw [leaves_block] at hfirst
    cases hfirst
    exact (other hnode.kinds.opening).elim
  | function keyword name parameters body =>
    rw [leaves_function] at hfirst
    cases hfirst
    exact (other hnode.kinds.1).elim
  | invalidToken token => exact hnode.complete.elim
  | invalidExpr inner => exact hnode.complete.elim

/-- An expression that begins with a sign goes on with the one before it. -/
theorem Canonical.exists_joined {f : Expr} (h : e.Canonical) (hf : f.Canonical) (hsign : f.StartsWithSign) :
    ∃ d : Expr, d.Canonical ∧ d.leaves = e.leaves ++ f.leaves := by
  obtain ⟨first, operations, hflat⟩ := hf.exists_flatAs
  have hsign' : first.StartsWithSign := by
    obtain ⟨token, hfirst, hkind⟩ := hsign
    obtain ⟨head, rest, hleaves⟩ := List.exists_cons_of_ne_nil first.leaves_ne_nil
    rw [hflat.leaves_eq, hleaves] at hfirst
    exact ⟨token, by rw [hleaves]; exact hfirst, hkind⟩
  obtain ⟨sign, operand, rfl, hop, hoperand, hprimary⟩ := hflat.canonical.eq_unary_of_sign hflat.primary hsign'
  refine ⟨(e.attach sign operand).attachAll operations, ?_, ?_⟩
  · exact (h.attach hop hoperand hprimary).attachAll hflat.each
  · rw [leaves_attachAll, leaves_attach, hflat.leaves_eq]
    simp

end Expr

/-- Canonical trees with one more expression before them. -/
theorem CanonicalForest.exists_cons {e : Expr} {es : List Expr} (he : e.Canonical) (h : CanonicalForest es) :
    ∃ ds, CanonicalForest ds ∧ ds.flatMap leaves = e.leaves ++ es.flatMap leaves := by
  cases es with
  | nil => exact ⟨[e], ⟨List.forall_mem_singleton.mpr he, by simp [Separated]⟩, by simp⟩
  | cons f fs =>
    obtain ⟨hf, hfs⟩ := List.forall_mem_cons.mp h.each
    by_cases hsign : f.StartsWithSign
    · obtain ⟨d, hd, hleaves⟩ := he.exists_joined hf hsign
      exact ⟨d :: fs, ⟨List.forall_mem_cons.mpr ⟨hd, hfs⟩, h.separated⟩, by simp [hleaves]⟩
    · have hseparated : Separated (e :: f :: fs) := List.forall_mem_cons.mpr ⟨hsign, h.separated⟩
      exact ⟨e :: f :: fs, ⟨List.forall_mem_cons.mpr ⟨he, h.each⟩, hseparated⟩, rfl⟩

/-! ### What is derived has canonical trees -/

/-- A parameter whose tokens fit and of which none is missing. -/
structure Parameter.Canonical (p : Parameter) : Prop where
  kinds : p.KindsFit
  complete : p.Complete

/-- Some tokens are those of canonical trees of a symbol. -/
def Symbol.Realised : Symbol → List Token → Prop
  | program, tokens => ∃ es, CanonicalForest es ∧ es.flatMap leaves = tokens
  | expr, tokens => ∃ e : Expr, e.Canonical ∧ e.leaves = tokens
  | operations, tokens => ∃ os, Operations os ∧ operationLeaves os = tokens
  | primary, tokens => ∃ e : Expr, e.Canonical ∧ e.isBinary = false ∧ e.leaves = tokens
  | parameters, tokens => ∃ ps : List Parameter, (∀ p ∈ ps, p.Canonical) ∧ (∀ p ∈ ps.head?, p.comma = none) ∧
      (∀ p ∈ ps.tail, p.comma.isSome = true) ∧ ps.flatMap Parameter.leaves = tokens
  | otherParameters, tokens => ∃ ps : List Parameter, (∀ p ∈ ps, p.Canonical) ∧
      (∀ p ∈ ps, p.comma.isSome = true) ∧ ps.flatMap Parameter.leaves = tokens
  | parameter, tokens => ∃ p : Parameter, p.Canonical ∧ p.comma = none ∧ p.leaves = tokens

theorem Parameter.Canonical.withComma {p : Parameter} (h : p.Canonical) {comma : Token}
    (hk : comma.kind = .comma) : Parameter.Canonical { p with comma := some comma } where
  kinds := ⟨fun c hc => by cases hc; exact hk, h.kinds.name, h.kinds.colon, h.kinds.typeName, h.kinds.typed⟩
  complete := h.complete

theorem Derives.realised {symbol : Symbol} {kinds : List TokenKind} (h : Derives symbol kinds) :
    ∀ tokens : List Token, tokens.map Token.kind = kinds → symbol.Realised tokens := by
  induction h with
  | programEmpty =>
    intro tokens htokens
    rw [List.map_eq_nil_iff] at htokens
    exact ⟨[], ⟨by simp, by simp [Separated]⟩, by simp [htokens]⟩
  | programNext _ _ ih ih' =>
    intro tokens htokens
    obtain ⟨ts, us, rfl, hts, hus⟩ := List.map_eq_append_iff.mp htokens
    obtain ⟨e, he, rfl⟩ := ih ts hts
    obtain ⟨es, hes, rfl⟩ := ih' us hus
    exact hes.exists_cons he
  | expr _ _ ih ih' =>
    intro tokens htokens
    obtain ⟨ts, us, rfl, hts, hus⟩ := List.map_eq_append_iff.mp htokens
    obtain ⟨e, he, -, rfl⟩ := ih ts hts
    obtain ⟨os, hos, rfl⟩ := ih' us hus
    exact ⟨e.attachAll os, he.attachAll hos, leaves_attachAll e os⟩
  | operationsEmpty =>
    intro tokens htokens
    rw [List.map_eq_nil_iff] at htokens
    exact ⟨[], by simp [Operations], by simp [operationLeaves, htokens]⟩
  | operationsNext hk _ _ ih ih' =>
    intro tokens htokens
    obtain ⟨op, rest, rfl, rfl, hrest⟩ := List.map_eq_cons_iff.mp htokens
    obtain ⟨ts, us, rfl, hts, hus⟩ := List.map_eq_append_iff.mp hrest
    obtain ⟨e, he, hprimary, rfl⟩ := ih ts hts
    obtain ⟨os, hos, rfl⟩ := ih' us hus
    exact ⟨(op, e) :: os, List.forall_mem_cons.mpr ⟨⟨hk, he, hprimary⟩, hos⟩, by simp [operationLeaves]⟩
  | literal hk =>
    intro tokens htokens
    obtain ⟨token, rfl, rfl⟩ := List.map_eq_singleton_iff.mp htokens
    refine ⟨.literal token, canonical_literal ?_, rfl, leaves_literal token⟩
    rcases hk with hk | hk <;> rw [hk] <;> rfl
  | identifier =>
    intro tokens htokens
    obtain ⟨token, rfl, hk⟩ := List.map_eq_singleton_iff.mp htokens
    exact ⟨.identifier token, canonical_identifier hk, rfl, leaves_identifier token⟩
  | unary hk _ ih =>
    intro tokens htokens
    obtain ⟨op, rest, rfl, rfl, hrest⟩ := List.map_eq_cons_iff.mp htokens
    obtain ⟨e, he, hprimary, rfl⟩ := ih rest hrest
    refine ⟨.unary op (some e), canonical_unary ?_ he hprimary, rfl, by simp⟩
    rcases hk with hk | hk | hk <;> rw [hk] <;> rfl
  | parenthesis _ ih =>
    intro tokens htokens
    obtain ⟨opening, rest, rfl, hopen, hrest⟩ := List.map_eq_cons_iff.mp htokens
    obtain ⟨ts, us, rfl, hts, hus⟩ := List.map_eq_append_iff.mp hrest
    obtain ⟨closing, rfl, hclose⟩ := List.map_eq_singleton_iff.mp hus
    obtain ⟨e, he, rfl⟩ := ih ts hts
    exact ⟨.parenthesis opening (some e) (some closing), canonical_parenthesis hopen he hclose, rfl, by simp⟩
  | block _ ih =>
    intro tokens htokens
    obtain ⟨opening, rest, rfl, hopen, hrest⟩ := List.map_eq_cons_iff.mp htokens
    obtain ⟨ts, us, rfl, hts, hus⟩ := List.map_eq_append_iff.mp hrest
    obtain ⟨closing, rfl, hclose⟩ := List.map_eq_singleton_iff.mp hus
    obtain ⟨es, hes, rfl⟩ := ih ts hts
    exact ⟨.block ⟨opening, es, some closing⟩, canonical_block hopen hes hclose, rfl, by simp⟩
  | function _ _ ih ih' =>
    intro tokens htokens
    obtain ⟨keyword, rest, rfl, hkeyword, hrest⟩ := List.map_eq_cons_iff.mp htokens
    obtain ⟨name, rest, rfl, hname, hrest⟩ := List.map_eq_cons_iff.mp hrest
    obtain ⟨opening, rest, rfl, hopen, hrest⟩ := List.map_eq_cons_iff.mp hrest
    obtain ⟨ts, rest, rfl, hts, hrest⟩ := List.map_eq_append_iff.mp hrest
    obtain ⟨closing, rest, rfl, hclose, hrest⟩ := List.map_eq_cons_iff.mp hrest
    obtain ⟨bodyOpening, rest, rfl, hbodyOpen, hrest⟩ := List.map_eq_cons_iff.mp hrest
    obtain ⟨us, rest, rfl, hus, hrest⟩ := List.map_eq_append_iff.mp hrest
    obtain ⟨bodyClosing, rfl, hbodyClose⟩ := List.map_eq_singleton_iff.mp hrest
    obtain ⟨ps, hps, hfirst, hothers, rfl⟩ := ih ts hts
    obtain ⟨es, hes, rfl⟩ := ih' us hus
    have hkinds : ParameterList.KindsFit ⟨opening, ps, some closing⟩ :=
      ⟨hopen, fun c hc => by cases hc; exact hclose, fun p hp => (hps p hp).kinds, hfirst⟩
    have hcomplete : ParameterList.Complete ⟨opening, ps, some closing⟩ :=
      ⟨rfl, fun p hp => (hps p hp).complete, hfirst, hothers⟩
    refine ⟨.function keyword (some name) (some ⟨opening, ps, some closing⟩)
      (some ⟨bodyOpening, es, some bodyClosing⟩), ?_, rfl, by simp [ParameterList.leaves]⟩
    exact canonical_function hkeyword hname hkinds hcomplete hbodyOpen hes hbodyClose
  | parametersEmpty =>
    intro tokens htokens
    rw [List.map_eq_nil_iff] at htokens
    exact ⟨[], by simp, by simp, by simp, by simp [htokens]⟩
  | parameters _ _ ih ih' =>
    intro tokens htokens
    obtain ⟨ts, us, rfl, hts, hus⟩ := List.map_eq_append_iff.mp htokens
    obtain ⟨p, hp, hcomma, rfl⟩ := ih ts hts
    obtain ⟨ps, hps, hcommas, rfl⟩ := ih' us hus
    refine ⟨p :: ps, List.forall_mem_cons.mpr ⟨hp, hps⟩, ?_, hcommas, by simp⟩
    rintro _ ⟨⟩
    exact hcomma
  | otherParametersEmpty =>
    intro tokens htokens
    rw [List.map_eq_nil_iff] at htokens
    exact ⟨[], by simp, by simp, by simp [htokens]⟩
  | otherParametersNext _ _ ih ih' =>
    intro tokens htokens
    obtain ⟨comma, rest, rfl, hkind, hrest⟩ := List.map_eq_cons_iff.mp htokens
    obtain ⟨ts, us, rfl, hts, hus⟩ := List.map_eq_append_iff.mp hrest
    obtain ⟨p, hp, hcomma, rfl⟩ := ih ts hts
    obtain ⟨ps, hps, hcommas, rfl⟩ := ih' us hus
    refine ⟨{ p with comma := some comma } :: ps, List.forall_mem_cons.mpr ⟨hp.withComma hkind, hps⟩,
      List.forall_mem_cons.mpr ⟨rfl, hcommas⟩, ?_⟩
    rw [List.flatMap_cons, Parameter.leaves_of_comma rfl, Parameter.leaves_of_no_comma hcomma]
    rfl
  | plainParameter =>
    intro tokens htokens
    obtain ⟨name, rfl, hname⟩ := List.map_eq_singleton_iff.mp htokens
    exact ⟨⟨none, name, none, none⟩, ⟨⟨by simp, hname, by simp, by simp, by simp⟩, rfl⟩, rfl, rfl⟩
  | typedParameter =>
    intro tokens htokens
    obtain ⟨name, rest, rfl, hname, hrest⟩ := List.map_eq_cons_iff.mp htokens
    obtain ⟨colon, rest, rfl, hcolon, hrest⟩ := List.map_eq_cons_iff.mp hrest
    obtain ⟨typeName, rfl, htype⟩ := List.map_eq_singleton_iff.mp hrest
    refine ⟨⟨none, name, some colon, some typeName⟩, ⟨⟨by simp, hname, ?_, ?_, by simp⟩, rfl⟩, rfl, rfl⟩
    · rintro _ ⟨⟩
      exact hcolon
    · rintro _ ⟨⟩
      exact htype

/-! ### Sources -/

theorem Expr.length_leaves_le {e : Expr} {es : List Expr} (h : e ∈ es) :
    e.leaves.length ≤ (es.flatMap leaves).length := by
  obtain ⟨before, after, rfl⟩ := List.append_of_mem h
  simp only [List.flatMap_append, List.flatMap_cons, List.length_append]
  omega

/-- A tree has at least as many tokens as levels. -/
theorem Expr.nest_le_length (e : Expr) : e.nest ≤ e.leaves.length := by
  induction e with
  | literal token => simp [nest]
  | identifier token => simp [nest]
  | unary operator operand ih =>
    rw [leaves_unary, List.length_cons, nest_unary_le_iff]
    intro e he
    exact Nat.le_trans (ih e he) (length_leaves_le (Option.mem_toList.mpr he))
  | binary left operator right ih ih' =>
    rw [leaves_binary, List.length_append, List.length_cons, nest_binary_le_iff]
    omega
  | parenthesis opening inner closing ih =>
    rw [leaves_parenthesis, List.length_cons, nest_parenthesis_le_iff]
    intro e he
    have hinner := Nat.le_trans (ih e he) (length_leaves_le (Option.mem_toList.mpr he))
    rw [List.length_append]
    omega
  | block body ih =>
    rw [leaves_block, List.length_cons, nest_block_le_iff]
    intro e he
    have hinner := Nat.le_trans (ih e he) (length_leaves_le he)
    rw [List.length_append]
    omega
  | function keyword name parameters body ih =>
    rw [leaves_function, List.length_cons, nest_function_le_iff]
    rintro b rfl e he
    have hinner := Nat.le_trans (ih b rfl e he) (length_leaves_le he)
    simp only [Option.toList_some, List.flatMap_cons, List.flatMap_nil, leaves_block, List.length_append,
      List.length_cons]
    omega
  | invalidToken token => simp [nest]
  | invalidExpr inner ih => simpa [nest] using ih

theorem CanonicalForest.nest_le {es : List Expr} {n : Nat} (h : (es.flatMap leaves).length ≤ n) :
    ∀ e ∈ es, e.nest ≤ n :=
  fun e he => Nat.le_trans (Nat.le_trans e.nest_le_length (Expr.length_leaves_le he)) h

/-- Solid tokens about which nothing is reported are the tokens of canonical trees, and these are what is read. -/
theorem canonicalForest_of_silent {buffer : TokenBuffer} {sink : Array Diagnostic}
    (hsolid : ∀ token ∈ buffer.tokens, token.Solid) (h : (Parser.ofBuffer buffer sink).parse.diagnostics = sink) :
    CanonicalForest (Parser.ofBuffer buffer sink).parse.expressions ∧
      (Parser.ofBuffer buffer sink).parse.expressions.flatMap leaves = buffer.tokens.toList ∧
      ∀ e ∈ (Parser.ofBuffer buffer sink).parse.expressions, e.nest ≤ maxNesting := by
  obtain ⟨t, hrun, hd⟩ := (Parser.ofBuffer buffer sink).parse_run
  have hcursor : t.cursor = buffer.size :=
    hrun.cursor_eq Rules.standard_endsAtEof (fun token hm => (hsolid token hm).2) (Nat.zero_le _)
  have hpassed : (Parser.ofBuffer buffer sink).context.passed (Parser.ofBuffer buffer sink).state t =
      buffer.tokens.toList := Context.passed_all rfl hcursor
  obtain ⟨hclean, hleaves⟩ := hrun.quiet
    ⟨hd.symm.trans h, by rw [hpassed]; exact fun token hm => (hsolid token (Array.mem_toList_iff.mp hm)).1⟩
  rw [hpassed] at hleaves
  have hderives : Derives .program (buffer.tokens.toList.map Token.kind) := by
    rw [← hleaves]
    exact .programs fun e he => ((hclean e he).derived (hrun.kindsFit rfl e he)).expr
  obtain ⟨es, hes, htokens⟩ := hderives.realised _ rfl
  by_cases hdeep : ∃ e ∈ es, maxNesting < e.nest
  · -- Trees too deep for the room would have been reported.
    obtain ⟨-, token, -, hfirst⟩ := hes.parse_overflows htokens.symm sink hdeep
    rw [h] at hfirst
    have hlength : sink.size + 1 ≤ sink.size := by simpa using hfirst.length_le
    omega
  · have hnest : ∀ e ∈ es, e.nest ≤ maxNesting := fun e he => Nat.le_of_not_lt fun hlt => hdeep ⟨e, he, hlt⟩
    rw [hes.parse_eq htokens.symm sink hnest]
    exact ⟨hes, htokens, hnest⟩

/-- Nothing is reported for a source only if it is derived from the grammar; and nothing is reported for any
source that is derived from it and has no more tokens than there are levels of nesting. -/
theorem parse_accepts_grammar (source : String) :
    ((parse source).diagnostics = #[] → Derives .program ((scan source).1.tokens.toList.map Token.kind)) ∧
      ((scan source).1.size ≤ maxNesting → Derives .program ((scan source).1.tokens.toList.map Token.kind) →
        (parse source).diagnostics = #[]) := by
  constructor
  · intro h
    obtain ⟨hleaves, hclean⟩ := clean_of_silent h
    rw [← hleaves]
    exact .programs fun e he => ((hclean e he).1.derived (hclean e he).2).expr
  · intro hsize h
    obtain ⟨es, hes, hleaves⟩ := h.realised _ rfl
    have hscan : (scan source).2 = #[] := by
      rw [scan_silent_iff]
      intro token hm
      rw [← Array.mem_toList_iff, ← hleaves] at hm
      exact (hes.solid token hm).1
    have hnest : ∀ e ∈ es, e.nest ≤ maxNesting := CanonicalForest.nest_le (by rw [hleaves]; exact hsize)
    have hparse : parse source = ⟨es, (scan source).2⟩ := hes.parse_eq hleaves.symm _ hnest
    rw [hparse]
    exact hscan

/-- A source derived as three expressions, of which the first two are read as one. -/
theorem parse_accepts_grammar_sign :
    Derives .program ((scan "a -b { +c }").1.tokens.toList.map Token.kind) ∧
      (parse "a -b { +c }").diagnostics = #[] := by
  have hkinds : (scan "a -b { +c }").1.tokens.toList.map Token.kind =
      [TokenKind.identifier] ++ ([TokenKind.minus, .identifier] ++
        (TokenKind.openCurly :: (([TokenKind.plus, .identifier] ++ []) ++ [TokenKind.closeCurly]) ++ [])) := by
    decide +kernel
  have hblock : Derives .program ([.plus, .identifier] ++ []) :=
    .programNext (.of_primary (.unary (Or.inl rfl) .identifier)) .programEmpty
  have hderives : Derives .program ((scan "a -b { +c }").1.tokens.toList.map Token.kind) := by
    rw [hkinds]
    refine .programNext (.of_primary .identifier) (.programNext (.of_primary ?_) (.programNext ?_ .programEmpty))
    · exact .unary (Or.inr (Or.inl rfl)) .identifier
    · exact .of_primary (.block hblock)
  have hsilent := (parse_accepts_grammar "a -b { +c }").2 (by decide +kernel) hderives
  exact ⟨(parse_accepts_grammar "a -b { +c }").1 hsilent, hsilent⟩

end ExprReader
