import ExprReader.Token.Basic

/-! # Token buffers

The tokens that a parser walks over, closed by a token for the end of the input. An index beyond the
last token stands for the end. -/

namespace ExprReader

/-- Tokens followed by the end of the input. A token before the end may itself be of kind `eof`. -/
structure TokenBuffer where
  tokens : Array Token
  ending : Token
  ending_kind : ending.kind = .eof

namespace TokenBuffer

/-- The token at an index, which is the end for every index past the tokens. -/
def get (buffer : TokenBuffer) (index : Nat) : Token :=
  buffer.tokens.getD index buffer.ending

/-- The number of tokens before the end. -/
def size (buffer : TokenBuffer) : Nat :=
  buffer.tokens.size

/-- All tokens with the end last. -/
def toList (buffer : TokenBuffer) : List Token :=
  buffer.tokens.toList ++ [buffer.ending]

theorem get_of_size_le {buffer : TokenBuffer} {index : Nat} (h : buffer.size ≤ index) :
    buffer.get index = buffer.ending := by
  simp only [get, Array.getD, size] at h ⊢
  rw [dif_neg (by omega)]

/-- A token that is not the end of the input lies before the end of the buffer. -/
theorem lt_size_of_kind_ne_eof {buffer : TokenBuffer} {index : Nat} (h : (buffer.get index).kind ≠ .eof) :
    index < buffer.size := by
  rcases Nat.lt_or_ge index buffer.size with hlt | hge
  · exact hlt
  · rw [get_of_size_le hge] at h
    exact absurd buffer.ending_kind h

/-- Where the end of the input goes after a list of tokens: right after the last one. -/
def endAfter? (tokens : List Token) : Option Token :=
  match tokens.getLast? with
  | none => some ⟨.eof, "", 0, {}⟩
  | some last => last.positionAfter?.map fun position => ⟨.eof, "", last.stop, position⟩

theorem endAfter?_kind {tokens : List Token} {ending : Token} (h : endAfter? tokens = some ending) :
    ending.kind = .eof := by
  unfold endAfter? at h
  split at h
  · cases h; rfl
  · obtain ⟨position, -, rfl⟩ := Option.map_eq_some_iff.mp h
    rfl

/-- Closes a list of tokens by an end of the input of its own. -/
def close? (tokens : List Token) : Option TokenBuffer :=
  match h : endAfter? tokens with
  | some ending => some ⟨tokens.toArray, ending, endAfter?_kind h⟩
  | none => none

/-- The buffer of a list of tokens. A list that ends with an end of the input is taken as it is; any
other is closed, unless the line or column of its end does not fit a word. -/
def ofList? (tokens : List Token) : Option TokenBuffer :=
  match tokens.getLast? with
  | some last => if h : last.kind = .eof then some ⟨tokens.dropLast.toArray, last, h⟩ else close? tokens
  | none => close? tokens

end TokenBuffer

end ExprReader
