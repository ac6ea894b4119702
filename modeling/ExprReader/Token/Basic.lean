import ExprReader.Source.Position
import ExprReader.Source.Span
import ExprReader.Text.Bytes
import ExprReader.Token.Kind

/-! # Tokens

A token is a piece of a source text with its kind and the place where it starts. Its span is not
stored: it ends where its text ends. -/

namespace ExprReader

/-- A token: its kind, its exact text, the byte offset and the line and column of its first character. -/
structure Token where
  kind : TokenKind
  text : String
  start : Nat
  position : Position
deriving DecidableEq, Repr, Inhabited

namespace Token

/-- The byte offset right after the token. -/
def stop (token : Token) : Nat :=
  token.start + byteLength token.text.toList

/-- The bytes that the token covers. -/
def span (token : Token) : Span :=
  ⟨token.start, token.stop⟩

/-- A token placed from outside, refused when the offset of its end does not fit a word. -/
def place? (kind : TokenKind) (text : String) (start : Nat) (position : Position) : Option Token :=
  let token : Token := ⟨kind, text, start, position⟩
  if token.stop < wordBound then some token else none

/-- The line and column right after the token, as long as they fit a word. -/
def positionAfter? (token : Token) : Option Position :=
  token.position.after? token.text.toList

/-- Whether the token marks the end of the input. -/
def isEof (token : Token) : Bool :=
  token.kind == .eof

/-- Whether the kind of the token is in a list. -/
def hasKindIn (token : Token) (kinds : List TokenKind) : Bool :=
  kinds.contains token.kind

/-- A token is shown as its text, and the end of the input as `EOF`. -/
def display (token : Token) : String :=
  if token.isEof then "EOF" else token.text

instance : ToString Token := ⟨display⟩

@[simp] theorem span_start (token : Token) : token.span.start = token.start := rfl

@[simp] theorem span_stop (token : Token) : token.span.stop = token.stop := rfl

theorem start_le_stop (token : Token) : token.start ≤ token.stop :=
  Nat.le_add_right ..

end Token

end ExprReader
