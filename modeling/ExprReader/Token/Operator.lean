import ExprReader.Token.Kind

/-! # Operators

How strongly a token binds in operator position, and which operators may extend an expression that is
read at a given strength. Operators that group to the right extend an expression of their own strength,
operators that group to the left only one of a weaker strength. -/

namespace ExprReader

/-- Binding strengths, weakest first. -/
inductive Precedence where
  | lowest
  | assignment
  | ternary
  | nullCoalescing
  | logicalOr
  | logicalAnd
  | bitwiseOr
  | bitwiseXor
  | bitwiseAnd
  | equality
  | relational
  | bitShift
  | additive
  | multiplicative
  | switch
  | unary
  | primary
  | declaration
  | block
  | parenthesis
deriving DecidableEq, Repr, Inhabited

namespace Precedence

/-- Every strength, weakest first. -/
def all : List Precedence :=
  [lowest, assignment, ternary, nullCoalescing, logicalOr, logicalAnd, bitwiseOr, bitwiseXor, bitwiseAnd, equality,
   relational, bitShift, additive, multiplicative, switch, unary, primary, declaration, block, parenthesis]

/-- The number of strictly weaker strengths. -/
def rank : Precedence → Nat
  | lowest => 0
  | assignment => 1
  | ternary => 2
  | nullCoalescing => 3
  | logicalOr => 4
  | logicalAnd => 5
  | bitwiseOr => 6
  | bitwiseXor => 7
  | bitwiseAnd => 8
  | equality => 9
  | relational => 10
  | bitShift => 11
  | additive => 12
  | multiplicative => 13
  | switch => 14
  | unary => 15
  | primary => 16
  | declaration => 17
  | block => 18
  | parenthesis => 19

instance : LE Precedence := ⟨fun weaker stronger => weaker.rank ≤ stronger.rank⟩

instance : LT Precedence := ⟨fun weaker stronger => weaker.rank < stronger.rank⟩

instance (weaker stronger : Precedence) : Decidable (weaker ≤ stronger) :=
  inferInstanceAs (Decidable (weaker.rank ≤ stronger.rank))

instance (weaker stronger : Precedence) : Decidable (weaker < stronger) :=
  inferInstanceAs (Decidable (weaker.rank < stronger.rank))

theorem all_pairwise_lt : all.Pairwise (· < ·) := by decide

theorem mem_all (precedence : Precedence) : precedence ∈ all := by
  cases precedence <;> decide

end Precedence

/-- The side to which a chain of operators of one strength groups. -/
inductive Associativity where
  | leftToRight
  | rightToLeft
deriving DecidableEq, Repr, Inhabited

namespace TokenKind

/-- The strength of a token in operator position. A token that is no binary operator has the strength of
the construct it starts. -/
def precedence : TokenKind → Precedence
  | equals => .assignment
  | doubleQuestionMark => .nullCoalescing
  | doubleEquals | exclamationEquals => .equality
  | lessThan | lessThanOrEqual | greaterThan | greaterThanOrEqual => .relational
  | plus | minus => .additive
  | asterisk | forwardSlash | questionForwardSlash => .multiplicative
  | exclamation => .unary
  | number | string | identifier => .primary
  | function => .declaration
  | openCurly | closeCurly => .block
  | openParen | closeParen => .parenthesis
  | eof | colon | comma | invalid => .lowest

/-- Assignment and the choice of a default group to the right. -/
def associativity : TokenKind → Associativity
  | equals | doubleQuestionMark => .rightToLeft
  | _ => .leftToRight

/-- Whether a token stands between two operands. -/
def isBinaryOperator : TokenKind → Bool
  | equals | doubleQuestionMark | doubleEquals | exclamationEquals | lessThan | lessThanOrEqual | greaterThan
  | greaterThanOrEqual | plus | minus | asterisk | forwardSlash | questionForwardSlash => true
  | _ => false

/-- Whether a token stands in front of a single operand. -/
def isUnaryOperator : TokenKind → Bool
  | plus | minus | exclamation => true
  | _ => false

/-- Whether an operator may extend an expression that is read at the strength `least`. -/
def continues (kind : TokenKind) (least : Precedence) : Bool :=
  kind.isBinaryOperator &&
    match kind.associativity with
    | .rightToLeft => decide (least ≤ kind.precedence)
    | .leftToRight => decide (least < kind.precedence)

theorem isBinaryOperator_of_continues {kind : TokenKind} {least : Precedence} (h : kind.continues least = true) :
    kind.isBinaryOperator = true := by
  simp only [continues, Bool.and_eq_true] at h
  exact h.1

/-- The end of the input extends nothing. -/
theorem ne_eof_of_continues {kind : TokenKind} {least : Precedence} (h : kind.continues least = true) :
    kind ≠ eof := by
  rintro rfl
  exact absurd (isBinaryOperator_of_continues h) (by decide)

end TokenKind

end ExprReader
