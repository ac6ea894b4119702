/-! # Kinds of tokens

What a token is, apart from its text: the end of the input, a literal, a name, a delimiter, an
operator, a reserved word, or a character that no token starts with. -/

namespace ExprReader

/-- The kind of a token. -/
inductive TokenKind where
  | eof
  | number
  | string
  | identifier
  | openParen
  | closeParen
  | openCurly
  | closeCurly
  | plus
  | minus
  | asterisk
  | forwardSlash
  | questionForwardSlash
  | doubleQuestionMark
  | exclamation
  | equals
  | doubleEquals
  | exclamationEquals
  | lessThan
  | lessThanOrEqual
  | greaterThan
  | greaterThanOrEqual
  | colon
  | comma
  | function
  | invalid
deriving DecidableEq, Repr, Inhabited

namespace TokenKind

/-- Every kind once. -/
def all : List TokenKind :=
  [eof, number, string, identifier, openParen, closeParen, openCurly, closeCurly, plus, minus, asterisk, forwardSlash,
   questionForwardSlash, doubleQuestionMark, exclamation, equals, doubleEquals, exclamationEquals, lessThan,
   lessThanOrEqual, greaterThan, greaterThanOrEqual, colon, comma, function, invalid]

/-- The name under which a kind is shown. -/
def name : TokenKind → String
  | eof => "EOF"
  | number => "Number"
  | string => "String"
  | identifier => "Identifier"
  | openParen => "OpenParen"
  | closeParen => "CloseParen"
  | openCurly => "OpenCurly"
  | closeCurly => "CloseCurly"
  | plus => "Plus"
  | minus => "Minus"
  | asterisk => "Asterisk"
  | forwardSlash => "ForwardSlash"
  | questionForwardSlash => "QuestionForwardSlash"
  | doubleQuestionMark => "DoubleQuestionMark"
  | exclamation => "Exclamation"
  | equals => "Equals"
  | doubleEquals => "DoubleEquals"
  | exclamationEquals => "ExclamationEquals"
  | lessThan => "LessThan"
  | lessThanOrEqual => "LessThanOrEqual"
  | greaterThan => "GreaterThan"
  | greaterThanOrEqual => "GreaterThanOrEqual"
  | colon => "Colon"
  | comma => "Comma"
  | function => "Function"
  | invalid => "Invalid"

instance : ToString TokenKind := ⟨name⟩

/-- The kind shown under a name. -/
def ofName? (name : String) : Option TokenKind :=
  all.find? fun kind => kind.name == name

theorem mem_all (kind : TokenKind) : kind ∈ all := by
  cases kind <;> decide

/-- Whether a token of this kind is a number or a string. -/
def isLiteral : TokenKind → Bool
  | number | string => true
  | _ => false

/-- The reserved words and their kinds. -/
def reservedWords : List (String × TokenKind) :=
  [("function", function)]

/-- The kind of a reserved word. -/
def reserved? (word : String) : Option TokenKind :=
  reservedWords.lookup word

end TokenKind

end ExprReader
