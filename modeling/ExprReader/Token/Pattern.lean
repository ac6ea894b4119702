import ExprReader.Token.Kind

/-! # Patterns of tokens

A table of patterns says how the front of a text is cut into a token. The patterns are tried in order
and the first that fits decides, so an operator of two characters stands before its first character. -/

namespace ExprReader

/-- The shape of the text of a token. -/
inductive Pattern where
  /-- One or more decimal digits. -/
  | digits
  /-- A letter, then letters, digits and underscores. -/
  | word
  /-- A quotation mark, any text without one, and another. -/
  | quoted
  /-- Always the same text. -/
  | fixed (text : List Char) (kind : TokenKind)
deriving DecidableEq, Repr

namespace Pattern

/-- A character that may follow the first of a word. Letters and digits are those of ASCII. -/
def isWordChar (c : Char) : Bool :=
  c.isAlphanum || c == '_'

/-- The number of characters at the front of a text that fit the pattern. -/
def length? : Pattern → List Char → Option Nat
  | digits, text =>
    let count := (text.takeWhile Char.isDigit).length
    if count = 0 then none else some count
  | word, [] => none
  | word, c :: text => if c.isAlpha then some ((text.takeWhile isWordChar).length + 1) else none
  | quoted, [] => none
  | quoted, c :: text =>
    let inside := (text.takeWhile (· != '"')).length
    if c = '"' ∧ inside < text.length then some (inside + 2) else none
  | fixed front _, text => if front.isPrefixOf text then some front.length else none

/-- The kind of a token cut out by the pattern. A word that is reserved has the kind of that word. -/
def kind : Pattern → List Char → TokenKind
  | digits, _ => .number
  | word, lexeme => (TokenKind.reserved? (String.ofList lexeme)).getD .identifier
  | quoted, _ => .string
  | fixed _ kind, _ => kind

/-- The patterns in the order in which they are tried. -/
def table : List Pattern :=
  [digits, word, quoted,
   fixed ['?', '/'] .questionForwardSlash,
   fixed ['?', '?'] .doubleQuestionMark,
   fixed ['!', '='] .exclamationEquals,
   fixed ['!'] .exclamation,
   fixed ['=', '='] .doubleEquals,
   fixed ['='] .equals,
   fixed ['<', '='] .lessThanOrEqual,
   fixed ['<'] .lessThan,
   fixed ['>', '='] .greaterThanOrEqual,
   fixed ['>'] .greaterThan,
   fixed ['+'] .plus,
   fixed ['-'] .minus,
   fixed ['*'] .asterisk,
   fixed ['/'] .forwardSlash,
   fixed ['('] .openParen,
   fixed [')'] .closeParen,
   fixed ['\x7b'] .openCurly,
   fixed ['\x7d'] .closeCurly,
   fixed [':'] .colon,
   fixed [','] .comma]

/-- The kind and the number of characters of the token at the front of a text, if a pattern fits. -/
def first? (text : List Char) : Option (TokenKind × Nat) :=
  table.findSome? fun pattern =>
    (pattern.length? text).map fun count => (pattern.kind (text.take count), count)

/-- No fixed text of the table is empty. -/
theorem fixed_ne_nil {front : List Char} {kind : TokenKind} (h : fixed front kind ∈ table) : front ≠ [] := by
  simp only [table, List.mem_cons, List.not_mem_nil, reduceCtorEq, fixed.injEq, false_or, or_false] at h
  rintro rfl
  simp at h

/-- Whatever fits a pattern of the table has at least one character. -/
theorem length?_pos {pattern : Pattern} (h : pattern ∈ table) {text : List Char} {count : Nat}
    (fits : pattern.length? text = some count) : 0 < count := by
  cases pattern with
  | digits =>
    simp only [length?] at fits
    split at fits
    · simp at fits
    · cases fits; omega
  | word =>
    cases text with
    | nil => simp [length?] at fits
    | cons c text =>
      simp only [length?] at fits
      split at fits
      · cases fits; omega
      · simp at fits
  | quoted =>
    cases text with
    | nil => simp [length?] at fits
    | cons c text =>
      simp only [length?] at fits
      split at fits
      · cases fits; omega
      · simp at fits
  | fixed front kind =>
    simp only [length?] at fits
    split at fits
    · cases fits
      exact List.length_pos_iff.mpr (fixed_ne_nil h)
    · simp at fits

/-- The token at the front of a text has at least one character. -/
theorem first?_pos {text : List Char} {kind : TokenKind} {count : Nat} (h : first? text = some (kind, count)) :
    0 < count := by
  obtain ⟨pattern, member, found⟩ := List.exists_of_findSome?_eq_some h
  obtain ⟨_, fits, same⟩ := Option.map_eq_some_iff.mp found
  cases same
  exact length?_pos member fits

end Pattern

end ExprReader
