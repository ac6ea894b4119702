import ExprReader.Token.Kind

/-! # Rules of a parser

Which construct a token begins is not fixed: a parser looks it up by the kind of the token. The rules of
the language are `Rules.standard`, and others are made from them one kind at a time. -/

namespace ExprReader

/-- The constructs that a token may begin. -/
inductive Construct where
  | literal
  | identifier
  | unary
  | parenthesis
  | block
  | function
  /-- Whatever the rules say about the token, looked up once more one level deeper. -/
  | primary
deriving DecidableEq, Repr

/-- Which construct a token of each kind begins, if any, and which kinds of tokens name a type. -/
structure Rules where
  construct? : TokenKind → Option Construct
  namesType : TokenKind → Bool

namespace Rules

/-- The rules of the language. -/
def standard : Rules where
  construct?
    | .number | .string => some .literal
    | .identifier => some .identifier
    | .plus | .minus | .exclamation => some .unary
    | .openParen => some .parenthesis
    | .openCurly => some .block
    | .function => some .function
    | _ => none
  namesType kind := kind == .identifier

/-- Whether a token of a kind can begin an expression. -/
def startsExpression (rules : Rules) (kind : TokenKind) : Bool :=
  (rules.construct? kind).isSome

/-- Lets tokens of a kind begin a construct. -/
def withConstruct (rules : Rules) (kind : TokenKind) (construct : Construct) : Rules :=
  { rules with construct? := fun other => if other = kind then some construct else rules.construct? other }

/-- Lets tokens of a kind name a type. -/
def withTypeName (rules : Rules) (kind : TokenKind) : Rules :=
  { rules with namesType := fun other => other == kind || rules.namesType other }

end Rules

end ExprReader
