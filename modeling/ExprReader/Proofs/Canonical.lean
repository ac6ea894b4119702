import ExprReader.Proofs.Clean

/-! # Canonical trees

A tree is canonical when it is clean, its tokens fit their slots and its operators nest as their strengths
ask. In a list of canonical trees, and in every block, only the first begins with a sign: any other sign
would be taken for an operator after the expression before it. -/

namespace ExprReader

/-! ### Strengths -/

namespace Precedence

theorem all_getElem?_rank (p : Precedence) : all[p.rank]? = some p := by
  cases p <;> rfl

theorem eq_of_rank_eq {p q : Precedence} (h : p.rank = q.rank) : p = q := by
  have hp := all_getElem?_rank p
  rw [h, all_getElem?_rank q] at hp
  cases hp
  rfl

theorem le_iff {p q : Precedence} : p ≤ q ↔ p < q ∨ q = p := by
  constructor
  · intro h
    rcases Nat.lt_or_eq_of_le h with hlt | heq
    · exact Or.inl hlt
    · exact Or.inr (eq_of_rank_eq heq.symm)
  · rintro (h | rfl)
    · exact Nat.le_of_lt h
    · exact Nat.le_refl _

theorem not_lt {p q : Precedence} : ¬p < q ↔ q ≤ p :=
  Nat.not_lt

theorem not_le {p q : Precedence} : ¬p ≤ q ↔ q < p :=
  Nat.not_le

end Precedence

namespace TokenKind
variable {kind outer : TokenKind} {least : Precedence}

/-- An operator may stand at the root of the right operand of another one. -/
def NestsRight (kind outer : TokenKind) : Prop :=
  outer.precedence < kind.precedence ∨ kind.precedence = outer.precedence ∧ kind.associativity = .rightToLeft

/-- An operator may stand at the root of the left operand of another one. -/
def NestsLeft (kind outer : TokenKind) : Prop :=
  outer.precedence < kind.precedence ∨ kind.precedence = outer.precedence ∧ kind.associativity = .leftToRight

/-- The two weakest strengths of operators group to the right and all others to the left. -/
theorem associativity_eq_iff (h : kind.isBinaryOperator = true) :
    kind.associativity = .rightToLeft ↔ kind.precedence ≤ .nullCoalescing := by
  cases kind <;> first | decide | cases h

theorem associativity_eq_of_precedence_eq (h : kind.isBinaryOperator = true) (h' : outer.isBinaryOperator = true)
    (heq : kind.precedence = outer.precedence) : kind.associativity = outer.associativity := by
  have hkind := associativity_eq_iff h
  rw [heq, ← associativity_eq_iff h'] at hkind
  cases hk : kind.associativity <;> cases ho : outer.associativity <;> simp_all

theorem continues_lowest (h : kind.isBinaryOperator = true) : kind.continues .lowest = true := by
  cases kind <;> first | rfl | cases h

theorem continues_of_le {strong : Precedence} (h : kind.continues strong = true) (hle : least ≤ strong) :
    kind.continues least = true := by
  unfold continues at h ⊢
  cases ha : kind.associativity <;> simp only [ha, Bool.and_eq_true, decide_eq_true_eq] at h ⊢
  · exact ⟨h.1, Nat.lt_of_le_of_lt hle h.2⟩
  · exact ⟨h.1, Nat.le_trans hle h.2⟩

theorem continues_eq_false_of_le {strong : Precedence} (h : kind.continues least = false) (hle : least ≤ strong) :
    kind.continues strong = false := by
  rw [Bool.eq_false_iff] at h ⊢
  exact fun hs => h (continues_of_le hs hle)

theorem continues_eq_false (h : kind.isBinaryOperator = false) (least : Precedence) :
    kind.continues least = false := by
  simp [continues, h]

theorem nestsRight_iff (h : kind.isBinaryOperator = true) :
    kind.NestsRight outer ↔ kind.continues outer.precedence = true := by
  unfold NestsRight continues
  cases ha : kind.associativity <;> simp [h, Precedence.le_iff]

theorem nestsLeft_iff (h : kind.isBinaryOperator = true) (h' : outer.isBinaryOperator = true) :
    kind.NestsLeft outer ↔ outer.continues kind.precedence = false := by
  have hassoc := associativity_eq_of_precedence_eq h h'
  unfold NestsLeft continues
  cases ho : outer.associativity with
  | leftToRight =>
    rw [ho] at hassoc
    simp only [h', Bool.true_and, decide_eq_false_iff_not, Precedence.not_lt, Precedence.le_iff]
    exact or_congr_right ⟨And.left, fun heq => ⟨heq, hassoc heq⟩⟩
  | rightToLeft =>
    rw [ho] at hassoc
    simp only [h', Bool.true_and, decide_eq_false_iff_not, Precedence.not_le]
    refine ⟨fun hn => hn.resolve_right fun hr => ?_, Or.inl⟩
    rw [hassoc hr.1] at hr
    exact absurd hr.2 (by decide)

theorem NestsRight.le (h : kind.NestsRight outer) : outer.precedence ≤ kind.precedence := by
  rcases h with hlt | ⟨heq, -⟩
  · exact Nat.le_of_lt hlt
  · exact Precedence.le_iff.mpr (Or.inr heq)

theorem NestsLeft.continues (h : kind.NestsLeft outer) (hk : kind.isBinaryOperator = true)
    (hc : outer.continues least = true) : kind.continues least = true := by
  have ho := isBinaryOperator_of_continues hc
  rcases h with hlt | ⟨heq, hassoc⟩
  · -- A stronger operator continues whatever the weaker one does, even what it would have to exceed.
    have hle : least ≤ outer.precedence := by
      unfold TokenKind.continues at hc
      cases ha : outer.associativity <;> simp only [ha, ho, Bool.true_and, decide_eq_true_eq] at hc
      · exact Nat.le_of_lt hc
      · exact hc
    exact continues_of_le ((nestsRight_iff hk).mp (Or.inl hlt)) hle
  · have hsame := associativity_eq_of_precedence_eq hk ho heq
    unfold TokenKind.continues at hc ⊢
    rw [hk, hsame, heq]
    rwa [ho] at hc

end TokenKind

/-! ### Canonical trees -/

namespace Expr

/-- The operator between the operands of a binary expression. -/
def root? : Expr → Option Token
  | .binary _ operator _ => some operator
  | _ => none

/-- Whether the first token of an expression is a plus or a minus. -/
def StartsWithSign (e : Expr) : Prop :=
  ∃ token ∈ e.leaves.head?, token.kind = .plus ∨ token.kind = .minus

/-- No expression but the first could be taken for the rest of the one before. -/
def Separated (es : List Expr) : Prop :=
  ∀ e ∈ es.tail, ¬e.StartsWithSign

/-- The operators of the operands may stand below the operator of the expression. -/
def OperandsNest : Expr → Prop
  | .binary left operator right => (∀ op ∈ right.root?, op.kind.NestsRight operator.kind) ∧
      ∀ op ∈ left.root?, op.kind.NestsLeft operator.kind
  | _ => True

/-- The expressions in the braces of the expression are separated. -/
def BodySeparated : Expr → Prop
  | .block body => Separated body.expressions
  | .function _ _ _ body => ∀ b ∈ body, Separated b.expressions
  | _ => True

/-- What makes a tree canonical at one of its expressions. -/
structure CanonicalNode (e : Expr) : Prop where
  complete : e.Complete
  kinds : e.KindsFit
  operands : e.OperandsNest
  body : e.BodySeparated

/-- A tree that can be read back from its tokens. -/
def Canonical (e : Expr) : Prop :=
  e.Everywhere CanonicalNode

namespace Canonical
variable {e : Expr}

theorem clean (h : e.Canonical) : e.Clean :=
  Everywhere.imp (fun _ => CanonicalNode.complete) h

theorem kindsFit (h : e.Canonical) : e.Everywhere KindsFit :=
  Everywhere.imp (fun _ => CanonicalNode.kinds) h

theorem isInvalid_eq_false (h : e.Canonical) : e.isInvalid = false := by
  cases e with
  | invalidToken token => exact h.clean.complete.elim
  | invalidExpr inner => exact h.clean.complete.elim
  | _ => rfl

theorem root_isBinaryOperator (h : e.Canonical) : ∀ op ∈ e.root?, op.kind.isBinaryOperator = true := by
  intro op hop
  cases e with
  | binary left operator right =>
    cases hop
    exact h.self.kinds
  | _ => cases hop

end Canonical

end Expr

/-- Trees that can be read back from their tokens, one after the other. -/
structure CanonicalForest (es : List Expr) : Prop where
  each : ∀ e ∈ es, e.Canonical
  separated : Expr.Separated es

/-! ### Canonical trees from canonical parts -/

namespace Expr

theorem canonical_literal {token : Token} (h : token.kind.isLiteral = true) : (literal token).Canonical :=
  everywhere_literal.mpr ⟨trivial, h, trivial, trivial⟩

theorem canonical_identifier {token : Token} (h : token.kind = .identifier) : (identifier token).Canonical :=
  everywhere_identifier.mpr ⟨trivial, h, trivial, trivial⟩

theorem canonical_unary {operator : Token} {operand : Expr} (hop : operator.kind.isUnaryOperator = true)
    (h : operand.Canonical) (hprimary : operand.isBinary = false) : (unary operator (some operand)).Canonical := by
  refine everywhere_unary.mpr ⟨⟨rfl, ⟨hop, ?_⟩, trivial, trivial⟩, ?_⟩
  · rintro _ ⟨⟩
    exact hprimary
  · rintro _ ⟨⟩
    exact h

theorem canonical_binary {left right : Expr} {operator : Token} (hop : operator.kind.isBinaryOperator = true)
    (hl : left.Canonical) (hr : right.Canonical) (hleft : ∀ op ∈ left.root?, op.kind.NestsLeft operator.kind)
    (hright : ∀ op ∈ right.root?, op.kind.NestsRight operator.kind) :
    (binary left operator right).Canonical :=
  everywhere_binary.mpr ⟨⟨trivial, hop, ⟨hright, hleft⟩, trivial⟩, hl, hr⟩

theorem canonical_parenthesis {opening closing : Token} {inner : Expr} (hopen : opening.kind = .openParen)
    (h : inner.Canonical) (hclose : closing.kind = .closeParen) :
    (parenthesis opening (some inner) (some closing)).Canonical := by
  refine everywhere_parenthesis.mpr ⟨⟨⟨rfl, rfl⟩, ⟨hopen, ?_⟩, trivial, trivial⟩, ?_⟩
  · rintro _ ⟨⟩
    exact hclose
  · rintro _ ⟨⟩
    exact h

theorem canonical_block {opening closing : Token} {es : List Expr} (hopen : opening.kind = .openCurly)
    (h : CanonicalForest es) (hclose : closing.kind = .closeCurly) :
    (block ⟨opening, es, some closing⟩).Canonical := by
  refine everywhere_block.mpr ⟨⟨rfl, ⟨hopen, ?_⟩, trivial, h.separated⟩, h.each⟩
  rintro _ ⟨⟩
  exact hclose

theorem canonical_function {keyword name opening closing : Token} {l : ParameterList} {es : List Expr}
    (hkeyword : keyword.kind = .function) (hname : name.kind = .identifier) (hk : l.KindsFit) (hc : l.Complete)
    (hopen : opening.kind = .openCurly) (h : CanonicalForest es) (hclose : closing.kind = .closeCurly) :
    (function keyword (some name) (some l) (some ⟨opening, es, some closing⟩)).Canonical := by
  refine everywhere_function.mpr ⟨⟨⟨rfl, ⟨l, rfl, hc⟩, ⟨_, rfl, rfl⟩⟩, ⟨hkeyword, ?_, ?_, ?_⟩, trivial, ?_⟩, ?_⟩
  · rintro _ ⟨⟩
    exact hname
  · rintro _ ⟨⟩
    exact hk
  · rintro _ ⟨⟩
    refine ⟨hopen, ?_⟩
    rintro _ ⟨⟩
    exact hclose
  · rintro _ ⟨⟩
    exact h.separated
  · rintro _ ⟨⟩
    exact h.each

/-- The first token of a clean tree begins an expression. -/
theorem Clean.first_starts {e : Expr} (hc : e.Clean) (hk : e.Everywhere KindsFit) :
    ∃ token rest, e.leaves = token :: rest ∧ Rules.standard.startsExpression token.kind = true := by
  induction e with
  | literal token =>
    have hliteral : token.kind.isLiteral = true := hk.self
    refine ⟨token, [], leaves_literal token, ?_⟩
    cases hkind : token.kind <;> rw [hkind] at hliteral <;> first | rfl | cases hliteral
  | identifier token =>
    have hname : token.kind = .identifier := hk.self
    exact ⟨token, [], leaves_identifier token, by rw [hname]; rfl⟩
  | unary operator operand _ =>
    have hop : operator.kind.isUnaryOperator = true := hk.self.1
    refine ⟨operator, _, leaves_unary operator operand, ?_⟩
    cases hkind : operator.kind <;> rw [hkind] at hop <;> first | rfl | cases hop
  | binary left operator right ih _ =>
    obtain ⟨-, hkl, -⟩ := everywhere_binary.mp hk
    obtain ⟨-, hcl, -⟩ := everywhere_binary.mp hc
    obtain ⟨token, rest, hleaves, hstarts⟩ := ih hcl hkl
    exact ⟨token, _, by rw [leaves_binary, hleaves, List.cons_append], hstarts⟩
  | parenthesis opening inner closing _ =>
    have hopen : opening.kind = .openParen := hk.self.1
    exact ⟨opening, _, leaves_parenthesis .., by rw [hopen]; rfl⟩
  | block body _ =>
    have hopen : body.opening.kind = .openCurly := hk.self.opening
    exact ⟨body.opening, _, leaves_block body, by rw [hopen]; rfl⟩
  | function keyword name parameters body _ =>
    have hkeyword : keyword.kind = .function := hk.self.1
    exact ⟨keyword, _, leaves_function .., by rw [hkeyword]; rfl⟩
  | invalidToken token => exact hc.complete.elim
  | invalidExpr inner _ => exact hc.complete.elim

end Expr

namespace Rules
variable {kind : TokenKind}

/-- Apart from the signs, no token both begins an expression and goes on with one. -/
theorem standard_starts_cases (h : standard.startsExpression kind = true) :
    kind.isBinaryOperator = false ∨ kind = .plus ∨ kind = .minus := by
  cases kind <;> first | decide | cases h

theorem standard_starts_ne {other : TokenKind} (h : standard.startsExpression kind = true)
    (h' : standard.startsExpression other = false := by decide) : kind ≠ other := by
  rintro rfl
  rw [h] at h'
  cases h'

end Rules

end ExprReader
